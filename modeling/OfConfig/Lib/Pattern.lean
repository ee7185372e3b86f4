import Mathlib.Computability.Language

/-!
# `OfConfig.Lib.Pattern`: regular patterns over character classes

The operators of a pattern facet on top of the languages of Mathlib: a
class of characters, `?`, `{0,n}` and `+`. Alternatives are sums,
sequences are products, and `{n}` is a power.

`Within q L` says that every character of every text of `L` satisfies `q`,
and `Needs q L` that every text of `L` has such a character. Both are read
off a pattern with one rule for each operator.
-/

set_option autoImplicit false

namespace OfConfig.Lib.Pattern

variable {α : Type}

/-- The texts of one character of a class. -/
def one (p : α → Bool) : Language α := {w | ∃ c, p c = true ∧ w = [c]}

/-- `L?` -/
def optional (L : Language α) : Language α := 1 + L

/-- `L{0,n}` -/
def upTo (n : Nat) (L : Language α) : Language α := optional L ^ n

/-- `L+` -/
def many1 (L : Language α) : Language α := L * KStar.kstar L

/-- Every character of every text satisfies `q`. -/
def Within (q : α → Prop) (L : Language α) : Prop := ∀ w ∈ L, ∀ c ∈ w, q c

/-- Every text has a character that satisfies `q`. -/
def Needs (q : α → Prop) (L : Language α) : Prop := ∀ w ∈ L, ∃ c ∈ w, q c

variable {q : α → Prop} {L M : Language α}

theorem within_one {p : α → Bool} (h : ∀ c, p c = true → q c) : Within q (one p) := by
  rintro w ⟨c, hc, rfl⟩ d hd
  obtain rfl : d = c := by simpa using hd
  exact h d hc

theorem within_empty : Within q (1 : Language α) := by
  intro w hw c hc
  obtain rfl : w = [] := Language.mem_one w |>.mp hw
  simp at hc

theorem Within.add (hL : Within q L) (hM : Within q M) : Within q (L + M) := by
  intro w hw
  rcases (Language.mem_add L M w).mp hw with h | h
  · exact hL w h
  · exact hM w h

theorem Within.mul (hL : Within q L) (hM : Within q M) : Within q (L * M) := by
  intro w hw c hc
  obtain ⟨a, ha, b, hb, rfl⟩ := Language.mem_mul.mp hw
  rcases List.mem_append.mp hc with h | h
  · exact hL a ha c h
  · exact hM b hb c h

theorem Within.optional (hL : Within q L) : Within q (optional L) := within_empty.add hL

theorem Within.pow (hL : Within q L) (n : Nat) : Within q (L ^ n) := by
  induction n with
  | zero => exact within_empty
  | succ n ih =>
    rw [pow_succ]
    exact ih.mul hL

theorem Within.upTo (hL : Within q L) (n : Nat) : Within q (upTo n L) := hL.optional.pow n

theorem Within.many1 (hL : Within q L) : Within q (many1 L) := by
  refine hL.mul ?_
  intro w hw c hc
  obtain ⟨ws, rfl, hws⟩ := Language.mem_kstar.mp hw
  obtain ⟨v, hv, hcv⟩ := List.mem_flatten.mp hc
  exact hL v (hws v hv) c hcv

theorem needs_one {p : α → Bool} (h : ∀ c, p c = true → q c) : Needs q (one p) := by
  rintro w ⟨c, hc, rfl⟩
  exact ⟨c, by simp, h c hc⟩

theorem Needs.mul_right (hL : Needs q L) (M : Language α) : Needs q (L * M) := by
  intro w hw
  obtain ⟨a, ha, b, -, rfl⟩ := Language.mem_mul.mp hw
  obtain ⟨c, hc, hq⟩ := hL a ha
  exact ⟨c, by simp [hc], hq⟩

theorem Needs.mul_left (hM : Needs q M) (L : Language α) : Needs q (L * M) := by
  intro w hw
  obtain ⟨a, -, b, hb, rfl⟩ := Language.mem_mul.mp hw
  obtain ⟨c, hc, hq⟩ := hM b hb
  exact ⟨c, by simp [hc], hq⟩

end OfConfig.Lib.Pattern
