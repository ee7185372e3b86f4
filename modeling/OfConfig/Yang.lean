import OfConfig.Lib.Pattern

/-!
# `OfConfig.Yang`: address types of the data model

`inet:ip-address` and its two members, from the pattern facets that
`of-config-gdefs-config.rng` has for them. They are languages: the server
itself does not check a value against its type.
-/

set_option autoImplicit false

namespace OfConfig.Yang

open OfConfig.Lib.Pattern

/-- One given character. -/
def char (c : Char) : Language Char := one (· = c)

/-- A range of characters. -/
def range (a b : Char) : Language Char := one (fun c => a ≤ c ∧ c ≤ b)

/-- `[0-9]` -/
def digit : Language Char := range '0' '9'

/-- `[0-9a-fA-F]` -/
def hexDigit : Language Char := range '0' '9' + range 'a' 'f' + range 'A' 'F'

/-- Any character. -/
def any : Language Char := one (fun c => c ≠ '\n' ∧ c ≠ '\r')

/-- `[0-9]|[1-9][0-9]|1[0-9][0-9]|2[0-4][0-9]|25[0-5]` -/
def octet : Language Char :=
  digit + range '1' '9' * digit + char '1' * digit * digit + char '2' * range '0' '4' * digit +
    char '2' * char '5' * range '0' '5'

/-- `[\p{N}\p{L}]`, with every character outside ASCII counted as a letter. -/
def zoneChar : Language Char := one (fun c => c.isAlphanum || 127 < c.toNat)

/-- `%[\p{N}\p{L}]+` -/
def zone : Language Char := char '%' * many1 zoneChar

/-- `inet:ipv4-address` -/
def ipv4Address : Language Char := (octet * char '.') ^ 3 * octet * optional zone

/-- `25[0-5]|2[0-4][0-9]|[01]?[0-9]?[0-9]` -/
def looseOctet : Language Char :=
  char '2' * char '5' * range '0' '5' + char '2' * range '0' '4' * digit +
    optional (range '0' '1') * optional digit * digit

/-- `[0-9a-fA-F]{0,4}` -/
def group : Language Char := upTo 4 hexDigit

/-- The first pattern of `inet:ipv6-address`. -/
def ipv6Shape : Language Char :=
  (char ':' + group) * char ':' * upTo 5 (group * char ':') *
    (optional (group * char ':') * (char ':' + group) + (looseOctet * char '.') ^ 3 * looseOctet) *
    optional zone

/-- `[^:]+` -/
def noColons : Language Char := many1 (one (· ≠ ':'))

/-- `(([^:]+:)*[^:]+)?` -/
def groups : Language Char := optional (KStar.kstar (noColons * char ':') * noColons)

/-- The second pattern of `inet:ipv6-address`. -/
def ipv6Groups : Language Char :=
  (noColons * char ':') ^ 6 *
      (noColons * char ':' * noColons + KStar.kstar any * char '.' * KStar.kstar any) +
    groups * char ':' * char ':' * groups * optional (char '%' * many1 any)

/-- `inet:ipv6-address` -/
def ipv6Address : Language Char := {w | w ∈ ipv6Shape ∧ w ∈ ipv6Groups}

/-- `inet:ip-address` -/
def ipAddress : Language Char := ipv4Address + ipv6Address

/-! ### The characters of an address -/

/-- What an IPv4 address is written with. -/
def Ipv4Char (c : Char) : Prop := c.isAlphanum = true ∨ 127 < c.toNat ∨ c = '.' ∨ c = '%'

/-- What an IPv6 address is written with. -/
def Ipv6Char (c : Char) : Prop := Ipv4Char c ∨ c = ':'

theorem ipv4Char_ne_colon {c : Char} (h : Ipv4Char c) : c ≠ ':' := by
  rintro rfl
  revert h
  simp [Ipv4Char]

theorem ipv6Char_ne_bracket {c : Char} (h : Ipv6Char c) : c ≠ '[' := by
  rintro rfl
  revert h
  simp [Ipv6Char, Ipv4Char]

section

variable {q : Char → Prop}

theorem within_char {c : Char} (h : q c) : Within q (char c) :=
  within_one fun d hd => by simpa [of_decide_eq_true hd] using h

theorem within_range {a b : Char} (h : ∀ c, a ≤ c → c ≤ b → q c) : Within q (range a b) :=
  within_one fun c hc => h c (of_decide_eq_true hc).1 (of_decide_eq_true hc).2

end

theorem isAlphanum_of_digit {c : Char} (h0 : '0' ≤ c) (h9 : c ≤ '9') : c.isAlphanum = true := by
  have hd : c.isDigit = true := by
    simp only [Char.isDigit, ge_iff_le, Bool.and_eq_true, decide_eq_true_eq]
    exact ⟨h0, h9⟩
  simp [Char.isAlphanum, hd]

/-- A range of digits. -/
theorem within_digits {a b : Char} (ha : '0' ≤ a) (hb : b ≤ '9') : Within Ipv4Char (range a b) :=
  within_range fun _ h h' => .inl (isAlphanum_of_digit (Char.le_trans ha h) (Char.le_trans h' hb))

theorem within_digit : Within Ipv4Char digit := within_digits (Char.le_refl _) (Char.le_refl _)

theorem within_one_digit (c : Char) (h0 : '0' ≤ c) (h9 : c ≤ '9') : Within Ipv4Char (char c) :=
  within_char (.inl (isAlphanum_of_digit h0 h9))

theorem within_octet : Within Ipv4Char octet := by
  have h1 := within_one_digit '1' (by decide) (by decide)
  have h2 := within_one_digit '2' (by decide) (by decide)
  have h5 := within_one_digit '5' (by decide) (by decide)
  have h19 : Within Ipv4Char (range '1' '9') := within_digits (by decide) (by decide)
  have h04 : Within Ipv4Char (range '0' '4') := within_digits (by decide) (by decide)
  have h05 : Within Ipv4Char (range '0' '5') := within_digits (by decide) (by decide)
  exact (((within_digit.add (h19.mul within_digit)).add
    ((h1.mul within_digit).mul within_digit)).add
    ((h2.mul h04).mul within_digit)).add ((h2.mul h5).mul h05)

theorem within_dot : Within Ipv4Char (char '.') := within_char (.inr (.inr (.inl rfl)))

theorem within_zone : Within Ipv4Char zone := by
  have hchar : Within Ipv4Char zoneChar := within_one fun c hc => by
    rcases Bool.or_eq_true _ _ |>.mp hc with h | h
    · exact .inl h
    · exact .inr (.inl (of_decide_eq_true h))
  exact (within_char (.inr (.inr (.inr rfl)))).mul hchar.many1

theorem within_ipv4Address : Within Ipv4Char ipv4Address :=
  (((within_octet.mul within_dot).pow 3).mul within_octet).mul within_zone.optional

theorem within_looseOctet : Within Ipv4Char looseOctet := by
  have h2 := within_one_digit '2' (by decide) (by decide)
  have h5 := within_one_digit '5' (by decide) (by decide)
  have h01 : Within Ipv4Char (range '0' '1') := within_digits (by decide) (by decide)
  have h04 : Within Ipv4Char (range '0' '4') := within_digits (by decide) (by decide)
  have h05 : Within Ipv4Char (range '0' '5') := within_digits (by decide) (by decide)
  exact (((h2.mul h5).mul h05).add ((h2.mul h04).mul within_digit)).add
    ((h01.optional.mul within_digit.optional).mul within_digit)

theorem within_hexDigit : Within Ipv4Char hexDigit := by
  have halnum (c : Char) : c.isAlphanum = ((c.isUpper || c.isLower) || c.isDigit) := rfl
  have haf : Within Ipv4Char (range 'a' 'f') := within_range fun c ha hf => .inl (by
    have hl : c.isLower = true := Bool.and_eq_true_iff.mpr
      ⟨decide_eq_true ha, decide_eq_true (Char.le_trans hf (by decide) : c ≤ 'z')⟩
    rw [halnum, hl, Bool.or_true, Bool.true_or])
  have hAF : Within Ipv4Char (range 'A' 'F') := within_range fun c ha hf => .inl (by
    have hu : c.isUpper = true :=
      decide_eq_true ⟨ha, (Char.le_trans hf (by decide) : c ≤ 'Z')⟩
    rw [halnum, hu, Bool.true_or, Bool.true_or])
  exact (within_digit.add haf).add hAF

theorem Ipv6Char.within {L : Language Char} (h : Within Ipv4Char L) : Within Ipv6Char L :=
  fun w hw c hc => .inl (h w hw c hc)

theorem within_ipv6Shape : Within Ipv6Char ipv6Shape := by
  have hcolon : Within Ipv6Char (char ':') := within_char (.inr rfl)
  have hgroup : Within Ipv6Char group := (Ipv6Char.within within_hexDigit).upTo 4
  have hoctet := Ipv6Char.within within_looseOctet
  have htail := ((hgroup.mul hcolon).optional.mul (hcolon.add hgroup)).add
    (((hoctet.mul (Ipv6Char.within within_dot)).pow 3).mul hoctet)
  exact ((((hcolon.add hgroup).mul hcolon).mul ((hgroup.mul hcolon).upTo 5)).mul htail).mul
    (Ipv6Char.within within_zone).optional

theorem needs_ipv6Shape : Needs (· = ':') ipv6Shape := by
  have hcolon : Needs (· = ':') (char ':') := needs_one fun c hc => of_decide_eq_true hc
  exact (((hcolon.mul_left _).mul_right _).mul_right _).mul_right _

/-! ### Addresses of the two kinds -/

/-- An IPv4 address has no colon. -/
theorem colon_not_mem_ipv4Address {w : List Char} (h : w ∈ ipv4Address) : ':' ∉ w :=
  fun hc => ipv4Char_ne_colon (within_ipv4Address w h ':' hc) rfl

/-- An IPv6 address has one. -/
theorem colon_mem_ipv6Address {w : List Char} (h : w ∈ ipv6Address) : ':' ∈ w := by
  obtain ⟨c, hc, rfl⟩ := needs_ipv6Shape w h.1
  exact hc

/-- An address has no bracket. -/
theorem bracket_not_mem_ipAddress {w : List Char} (h : w ∈ ipAddress) : '[' ∉ w := by
  intro hc
  rcases (Language.mem_add _ _ _).mp h with h | h
  · exact ipv6Char_ne_bracket (.inl (within_ipv4Address w h '[' hc)) rfl
  · exact ipv6Char_ne_bracket (within_ipv6Shape w h.1 '[' hc) rfl

/-- An address is an IPv4 address if and only if it has no colon. -/
theorem mem_ipv4Address_iff {w : List Char} (h : w ∈ ipAddress) : w ∈ ipv4Address ↔ ':' ∉ w := by
  refine ⟨colon_not_mem_ipv4Address, fun hc => ?_⟩
  rcases (Language.mem_add _ _ _).mp h with h | h
  · exact h
  · exact absurd (colon_mem_ipv6Address h) hc

/-- Four digits with dots. -/
theorem mem_ipv4Address_of_digits {a b c d : Char} (ha : [a] ∈ digit) (hb : [b] ∈ digit)
    (hc : [c] ∈ digit) (hd : [d] ∈ digit) : [a, '.', b, '.', c, '.', d] ∈ ipv4Address := by
  have hoctet {x : Char} (hx : [x] ∈ digit) : [x] ∈ octet := .inl (.inl (.inl (.inl hx)))
  have hdot {x : Char} (hx : [x] ∈ digit) : [x] ++ ['.'] ∈ octet * char '.' :=
    Language.append_mem_mul (hoctet hx) ⟨'.', by decide, rfl⟩
  have hthree : [a, '.', b, '.', c, '.'] ∈ (octet * char '.') ^ 3 := by
    rw [pow_succ, pow_succ, pow_one]
    exact Language.append_mem_mul (Language.append_mem_mul (hdot ha) (hdot hb)) (hdot hc)
  have hnone : [] ∈ optional zone := .inl rfl
  simpa [ipv4Address] using
    Language.append_mem_mul (Language.append_mem_mul hthree (hoctet hd)) hnone

/-- The loopback address. -/
theorem mem_ipv6Address_loopback : [':', ':', '1'] ∈ ipv6Address := by
  have hnil {L : Language Char} : [] ∈ optional L := .inl rfl
  have hcolon : [':'] ∈ char ':' := ⟨':', by decide, rfl⟩
  have hone : ['1'] ∈ digit := ⟨'1', by decide, rfl⟩
  have hgroup : ['1'] ∈ group := by
    have h : ['1'] ∈ optional hexDigit := .inr (.inl (.inl hone))
    rw [group, upTo, pow_succ, pow_succ, pow_succ, pow_one]
    simpa using Language.append_mem_mul (Language.append_mem_mul (Language.append_mem_mul h
      (hnil (L := hexDigit))) (hnil (L := hexDigit))) (hnil (L := hexDigit))
  have hrest : [] ∈ upTo 5 (group * char ':') := by
    rw [upTo, pow_succ, pow_succ, pow_succ, pow_succ, pow_one]
    simpa using Language.append_mem_mul (Language.append_mem_mul (Language.append_mem_mul
      (Language.append_mem_mul (hnil (L := group * char ':')) hnil) hnil) hnil) hnil
  have hshape : [':', ':', '1'] ∈ ipv6Shape := by
    have htail : ['1'] ∈ optional (group * char ':') * (char ':' + group) :=
      Language.append_mem_mul hnil (.inr hgroup)
    have hend : ['1'] ∈ optional (group * char ':') * (char ':' + group) +
        (looseOctet * char '.') ^ 3 * looseOctet := .inl htail
    have hfirst : [':'] ∈ char ':' + group := .inl hcolon
    simpa [ipv6Shape] using Language.append_mem_mul (Language.append_mem_mul
      (Language.append_mem_mul (Language.append_mem_mul hfirst hcolon) hrest) hend)
      (hnil (L := zone))
  have hgroups : [':', ':', '1'] ∈ ipv6Groups := by
    have hlast : ['1'] ∈ groups := by
      have h : ['1'] ++ [] ∈ noColons :=
        Language.append_mem_mul ⟨'1', by decide, rfl⟩ (Language.nil_mem_kstar _)
      exact .inr (Language.append_mem_mul (Language.nil_mem_kstar _) h)
    have hfirst : [] ∈ groups := .inl rfl
    have hall : [':', ':', '1'] ∈
        groups * char ':' * char ':' * groups * optional (char '%' * many1 any) := by
      simpa using Language.append_mem_mul (Language.append_mem_mul (Language.append_mem_mul
        (Language.append_mem_mul hfirst hcolon) hcolon) hlast) (hnil (L := char '%' * many1 any))
    exact .inr hall
  exact ⟨hshape, hgroups⟩

end OfConfig.Yang
