import OfConfig.Proofs.Certificates

/-!
# `OfConfig.Proofs.PrivateKey`: edits of the owned certificate

The certificate is in one file, the type and the data of the private key are
in another one, each between markers. `txn_add_owned_certificate` writes the
files, `txn_mod_own_cert_key_type` overwrites the type in place,
`txn_mod_own_cert_key_data` puts the file together again from its markers,
and `get_owned_certificates_config` reads between the markers.

* `strstr_append`: a search goes on behind a part that has no start of the
  pattern.
* `pemMarkers_keyText`: both markers are found where they were written, for
  data of every length without five dashes in a row.
* `owned_certificate_round_trip`: after any run of edits the configuration
  shows what was set last.
-/

set_option autoImplicit false

namespace OfConfig.Proofs

open OfConfig.Lib OfConfig.Xml OfConfig.Edit OfConfig.Ovs

variable {node : Node} {path : String} {rid : Option String} {u : Uuid} {w : World}

/-! ### Searching -/

section Search

variable {p xs ys l : List Char} {c : Char}

theorem strstr_of_prefix (h : p <+: xs) : strstr p xs = some 0 := by
  cases xs with
  | nil => rw [strstr, if_pos (List.prefix_nil.mp h)]
  | cons x xs => rw [strstr, if_pos (List.isPrefixOf_iff_prefix.mpr h)]

/-- A search goes on behind a part where the pattern does not start. -/
theorem strstr_append (h : ∀ s, s ≠ [] → s <:+ xs → ¬ p <+: s ++ ys) :
    strstr p (xs ++ ys) = (strstr p ys).map (· + xs.length) := by
  induction xs with
  | nil => simp
  | cons x xs ih =>
    have hx : ¬ p <+: x :: (xs ++ ys) := h (x :: xs) (by simp) List.suffix_rfl
    rw [List.cons_append, strstr, if_neg (fun hp => hx (List.isPrefixOf_iff_prefix.mp hp)),
      ih fun s hs hsuf => h s hs (hsuf.trans (List.suffix_cons x xs)), Option.map_map]
    congr 1

/-- A pattern without the character that ends a part lies inside the part. -/
theorem prefix_of_not_mem (hc : c ∉ p) (h : p <+: l ++ c :: ys) : p <+: l := by
  induction p generalizing l with
  | nil => exact List.nil_prefix
  | cons a p ih =>
    cases l with
    | nil =>
      obtain ⟨rfl, -⟩ := List.cons_prefix_cons.mp h
      exact absurd (List.mem_cons_self) hc
    | cons b l =>
      obtain ⟨rfl, htail⟩ := List.cons_prefix_cons.mp h
      exact List.cons_prefix_cons.mpr ⟨rfl, ih (fun hm => hc (List.mem_cons_of_mem _ hm)) htail⟩

end Search

/-- The five dashes of a marker. -/
def dashes : List Char := ['-', '-', '-', '-', '-']

/-- A text that can stand between markers. -/
structure PemText where
  text : String
  plain : ¬ dashes <:+: text.toList

/-- The characters of a text, with the end of line before it. -/
def PemText.line (d : PemText) : List Char := '\n' :: d.text.toList

theorem PemText.not_dashes_line (d : PemText) : ¬ dashes <:+: d.line := by
  intro h
  rcases List.infix_cons_iff.mp h with hpre | hinf
  · exact absurd (List.cons_prefix_cons.mp hpre).1 (by decide)
  · exact d.plain hinf

/-- No marker starts inside the text. -/
theorem PemText.strstr_line (d : PemText) {p ys : List Char}
    (hp : dashes <+: p ∨ '\n' :: dashes <+: p) :
    strstr p (d.line ++ '\n' :: ys) = (strstr p ('\n' :: ys)).map (· + d.line.length) := by
  refine strstr_append fun s hs hsuf hpre => d.not_dashes_line ?_
  rcases hp with hd | hn
  · exact (prefix_of_not_mem (by decide) (hd.trans hpre)).isInfix.trans hsuf.isInfix
  · cases s with
    | nil => exact absurd rfl hs
    | cons a s =>
      have htail : dashes <+: s ++ '\n' :: ys := (List.cons_prefix_cons.mp (hn.trans hpre)).2
      exact (prefix_of_not_mem (by decide) htail).isInfix.trans
        ((List.suffix_cons a s).trans hsuf).isInfix

/-! ### A text between two markers -/

/-- The characters of a file: a line, the text and another line. -/
def framed (first : List Char) (d : PemText) (last : List Char) : List Char :=
  first ++ (d.line ++ '\n' :: last)

section Framed

variable (first last : List Char) (d : PemText)

theorem strstr_first : strstr (first ++ ['\n']) (framed first d last) = some 0 := by
  refine strstr_of_prefix ⟨d.text.toList ++ '\n' :: last, ?_⟩
  simp [framed, PemText.line]

variable {first last}

/-- The last line is found behind the text. -/
theorem strstr_last (hfirst : '\n' ∉ first) (hlast : dashes <+: last) :
    strstr ('\n' :: last) (framed first d last) =
      some (first.length + d.text.toList.length + 1) := by
  have hskip : strstr ('\n' :: last) (first ++ (d.line ++ '\n' :: last)) =
      (strstr ('\n' :: last) (d.line ++ '\n' :: last)).map (· + first.length) := by
    refine strstr_append fun s hs hsuf hpre => ?_
    cases s with
    | nil => exact hs rfl
    | cons a s =>
      obtain ⟨rfl, -⟩ := List.cons_prefix_cons.mp hpre
      exact hfirst (hsuf.subset List.mem_cons_self)
  rw [framed, hskip, d.strstr_line (.inr (List.cons_prefix_cons.mpr ⟨rfl, hlast⟩)),
    strstr_of_prefix List.prefix_rfl]
  simp only [Option.map_some, PemText.line, List.length_cons, Option.some.injEq]
  omega

/-- Another line of the same length is not found. -/
theorem strstr_other {p : List Char} (hlen : p.length = first.length) (hne : p ≠ first)
    (hp : '\n' ∉ p) (hdashes : dashes <+: p)
    (hlast : strstr (p ++ ['\n']) ('\n' :: last) = none) :
    strstr (p ++ ['\n']) (framed first d last) = none := by
  have hskip : strstr (p ++ ['\n']) (first ++ '\n' :: (d.text.toList ++ '\n' :: last)) =
      (strstr (p ++ ['\n']) (d.line ++ '\n' :: last)).map (· + first.length) := by
    refine strstr_append fun s _ hsuf hpre => hne ?_
    have hps : p <+: s := prefix_of_not_mem hp ((List.prefix_append p _).trans hpre)
    have hs : s = first := hsuf.eq_of_length_le (hlen ▸ hps.length_le)
    exact (hs ▸ hps).eq_of_length hlen
  have hline : strstr (p ++ ['\n']) (d.line ++ '\n' :: last) =
      (strstr (p ++ ['\n']) ('\n' :: last)).map (· + d.line.length) :=
    d.strstr_line (.inl (hdashes.trans (List.prefix_append p ['\n'])))
  rw [hlast] at hline
  rw [framed, PemText.line, List.cons_append, hskip, hline]
  rfl

variable (first last)

/-- What is printed between the lines. -/
theorem printFrom_framed {zeros : List Nat}
    (hz : ∀ z ∈ zeros, first.length + d.text.toList.length + 1 ≤ z) :
    printFrom (framed first d last) (first.length + 1)
      ((first.length + d.text.toList.length + 1) :: zeros) = d.text := by
  have hmin : (((first.length + d.text.toList.length + 1) :: zeros).filter
      (first.length + 1 ≤ ·)).min? = some (first.length + d.text.toList.length + 1) := by
    rw [List.min?_eq_some_iff]
    refine ⟨by simp, fun z hmem => ?_⟩
    rcases List.mem_cons.mp (List.mem_filter.mp hmem).1 with rfl | hold
    · exact Nat.le_refl _
    · exact hz z hold
  rw [printFrom, hmin]
  have hdrop : (framed first d last).drop (first.length + 1) = d.text.toList ++ '\n' :: last := by
    rw [framed, ← List.drop_drop, List.drop_left]
    rfl
  have hlen : first.length + d.text.toList.length + 1 - (first.length + 1) =
      d.text.toList.length := by omega
  dsimp only
  rw [hdrop, hlen, List.take_left, String.ofList_toList]

end Framed

/-! ### The two files -/

/-- The types of private keys. -/
inductive KeyType where
  | rsa
  | dsa
deriving DecidableEq

/-- How a type is written. -/
def KeyType.text : KeyType → String
  | .rsa => "RSA"
  | .dsa => "DSA"

/-- The line before the data of a key. -/
def beginKey (t : KeyType) : List Char := ("-----BEGIN " ++ t.text ++ " PRIVATE KEY-----").toList

/-- The line behind the data of a key. -/
def endKey (t : KeyType) : List Char := ("-----END " ++ t.text ++ " PRIVATE KEY-----").toList

/-- The line before a certificate. -/
def beginCert : List Char := "-----BEGIN CERTIFICATE-----".toList

/-- The line behind a certificate. -/
def endCert : List Char := "-----END CERTIFICATE-----".toList

theorem toList_between (a s b : String) :
    (a ++ s ++ b).toList = a.toList ++ (s.toList ++ b.toList) := by
  simp only [String.toList_append, List.append_assoc]

/-- The patterns of a certificate. -/
theorem certPatterns : "-----BEGIN CERTIFICATE-----\n".toList = beginCert ++ ['\n'] ∧
    "\n-----END CERTIFICATE-----".toList = '\n' :: endCert := ⟨rfl, rfl⟩

/-- The patterns of a key. -/
theorem keyPatterns (t : KeyType) :
    ("-----BEGIN " ++ t.text ++ " PRIVATE KEY-----\n").toList = beginKey t ++ ['\n'] ∧
    ("\n-----END " ++ t.text ++ " PRIVATE KEY-----").toList = '\n' :: endKey t := by
  cases t <;> exact ⟨rfl, rfl⟩

theorem framed_eq (first : List Char) (d : PemText) (last : List Char) :
    (first ++ ['\n']) ++ (d.text.toList ++ '\n' :: last) = framed first d last := by
  simp [framed, PemText.line]

theorem toList_certText (c : PemText) : (certText c.text).toList = framed beginCert c endCert :=
  calc (certText c.text).toList
      = "-----BEGIN CERTIFICATE-----\n".toList ++
          (c.text.toList ++ "\n-----END CERTIFICATE-----".toList) := toList_between _ _ _
    _ = framed beginCert c endCert := by rw [certPatterns.1, certPatterns.2, framed_eq]

/-- The text of a key, as its two markers with the data between them. -/
theorem keyText_eq (type data : String) : keyText type data =
    ("-----BEGIN " ++ type ++ " PRIVATE KEY-----\n") ++ data ++
      ("\n-----END " ++ type ++ " PRIVATE KEY-----") := by
  have hgroup : ∀ a b c e : String, a ++ type ++ b ++ data ++ c ++ type ++ e =
      (a ++ type ++ b) ++ data ++ (c ++ type ++ e) := fun a b c e => by
    simp only [String.append_assoc]
  exact hgroup _ _ _ _

theorem toList_keyText (t : KeyType) (d : PemText) :
    (keyText t.text d.text).toList = framed (beginKey t) d (endKey t) := by
  rw [keyText_eq, toList_between, (keyPatterns t).1, (keyPatterns t).2, framed_eq]

theorem length_beginKey (t : KeyType) : (beginKey t).length = 31 := by
  cases t <;> rfl

/-- The markers of a key are where they were written. -/
theorem pemMarkers_keyText (t : KeyType) (d : PemText) :
    pemMarkers (keyText t.text d.text).toList = some (0, 32 + d.text.toList.length) := by
  have hlast : strstr ('\n' :: endKey t) (framed (beginKey t) d (endKey t)) =
      some (32 + d.text.toList.length) := by
    rw [strstr_last d (by cases t <;> decide) (by cases t <;> decide)]
    rw [length_beginKey]
    congr 1
    omega
  have hfirst := strstr_first (beginKey t) (endKey t) d
  have hrsa := keyPatterns .rsa
  have hdsa := keyPatterns .dsa
  rw [toList_keyText]
  unfold pemMarkers
  dsimp only [KeyType.text] at hrsa hdsa ⊢
  rw [hrsa.1, hrsa.2, hdsa.1, hdsa.2]
  cases t with
  | rsa => rw [hfirst, hlast]; rfl
  | dsa =>
    have hlen : (beginKey .rsa).length = (beginKey .dsa).length := by decide
    have hend : strstr (beginKey .rsa ++ ['\n']) ('\n' :: endKey .dsa) = none := by decide
    have hnone : strstr (beginKey .rsa ++ ['\n']) (framed (beginKey .dsa) d (endKey .dsa)) = none :=
      strstr_other d hlen (by decide) (by decide) (by decide) hend
    rw [hnone, hfirst, hlast]
    rfl

/-! ### Reading and rewriting the files -/

/-- The certificate that is printed is the one in the file. -/
theorem certOfFile_eq {c : PemText} (h : w.files.get path = some (certText c.text)) :
    certOfFile w path = some c.text := by
  have hfirst : strstr "-----BEGIN CERTIFICATE-----\n".toList (certText c.text).toList =
      some 0 := by
    rw [certPatterns.1, toList_certText, strstr_first]
  have hlast : strstr "\n-----END CERTIFICATE-----".toList (certText c.text).toList =
      some (beginCert.length + c.text.toList.length + 1) := by
    rw [certPatterns.2, toList_certText, strstr_last c (by decide) (by decide)]
  have hprint : printFrom (framed beginCert c endCert) 28
      [beginCert.length + c.text.toList.length + 1] = c.text :=
    printFrom_framed beginCert endCert c (by simp)
  rw [← toList_certText] at hprint
  rw [certOfFile, h]
  simp only [Option.bind_eq_bind, Option.bind_some, hfirst, hlast]
  exact congrArg some hprint

theorem length_text (t : KeyType) : t.text.toList.length = 3 := by
  cases t <;> rfl

theorem beginKey_eq (t : KeyType) :
    beginKey t = "-----BEGIN ".toList ++ (t.text.toList ++ " PRIVATE KEY-----".toList) :=
  toList_between _ _ _

theorem endKey_eq (t : KeyType) :
    endKey t = "-----END ".toList ++ (t.text.toList ++ " PRIVATE KEY-----".toList) :=
  toList_between _ _ _

/-- Everything in the file up to the type in the last line. -/
def beforeType (t : KeyType) (d : PemText) : List Char :=
  beginKey t ++ d.line ++ '\n' :: "-----END ".toList

theorem length_beforeType (t : KeyType) (d : PemText) :
    (beforeType t d).length = 32 + d.text.toList.length + 10 := by
  have hend : ('\n' :: "-----END ".toList).length = 10 := rfl
  rw [beforeType, List.length_append, List.length_append, length_beginKey, hend, PemText.line,
    List.length_cons]
  omega

theorem toList_keyText_type (t : KeyType) (d : PemText) : (keyText t.text d.text).toList =
    beforeType t d ++ (t.text.toList ++ " PRIVATE KEY-----".toList) := by
  rw [toList_keyText, framed, endKey_eq, beforeType]
  simp only [List.append_assoc, List.cons_append]

/-- The type and the data that are printed are those in the file. -/
theorem keyOfFile_eq {t : KeyType} {d : PemText}
    (h : w.files.get path = some (keyText t.text d.text)) :
    keyOfFile w path = some (t.text, d.text) := by
  have htype : ((keyText t.text d.text).toList.drop (32 + d.text.toList.length + 10)).take 3 =
      t.text.toList := by
    rw [toList_keyText_type, List.drop_left' (length_beforeType t d),
      List.take_left' (length_text t)]
  have hdata : printFrom (keyText t.text d.text).toList (0 + 32)
      [32 + d.text.toList.length, 32 + d.text.toList.length + 13] = d.text := by
    have hlen : (beginKey t).length + d.text.toList.length + 1 = 32 + d.text.toList.length := by
      rw [length_beginKey]
      omega
    have hprint : printFrom (framed (beginKey t) d (endKey t)) ((beginKey t).length + 1)
        [(beginKey t).length + d.text.toList.length + 1, 32 + d.text.toList.length + 13] =
          d.text := by
      refine printFrom_framed (beginKey t) (endKey t) d fun z hz => ?_
      rw [List.mem_singleton.mp hz, hlen]
      omega
    rwa [hlen, length_beginKey, ← toList_keyText] at hprint
  rw [keyOfFile, h]
  simp only [Option.bind_eq_bind, Option.bind_some, pemMarkers_keyText]
  rw [htype, String.ofList_toList]
  exact congrArg (fun x => some (t.text, x)) hdata

/-- Overwriting a part by one of the same length. -/
theorem overwrite_append {xs old new ys : List Char} (hlen : new.length = old.length) :
    overwrite (xs ++ (old ++ ys)) xs.length new = xs ++ (new ++ ys) := by
  rw [overwrite, List.take_left, hlen, ← List.drop_drop, List.drop_left, List.drop_left,
    List.append_assoc]

/-- `txn_mod_own_cert_key_type` changes the type in both lines. -/
theorem overwrite_keyText (t t' : KeyType) (d : PemText) :
    overwrite (overwrite (keyText t.text d.text).toList (0 + 11) t'.text.toList)
      (32 + d.text.toList.length + 10) t'.text.toList = (keyText t'.text d.text).toList := by
  have hlen : t'.text.toList.length = t.text.toList.length := by rw [length_text, length_text]
  have hfirst : overwrite (keyText t.text d.text).toList (0 + 11) t'.text.toList =
      beforeType t' d ++ (t.text.toList ++ " PRIVATE KEY-----".toList) := by
    rw [toList_keyText_type, beforeType, beforeType, beginKey_eq, beginKey_eq]
    simp only [List.append_assoc]
    exact overwrite_append hlen
  rw [hfirst, ← length_beforeType t' d, overwrite_append hlen, toList_keyText_type]

/-- `txn_mod_own_cert_key_data` keeps both lines. -/
theorem rebuild_keyText (t : KeyType) (d d' : PemText) :
    ((keyText t.text d.text).toList.drop 0).take 32 ++ d'.text.toList ++
      ((keyText t.text d.text).toList.drop (32 + d.text.toList.length)).take 30 =
      (keyText t.text d'.text).toList := by
  have hfirst : (beginKey t ++ ['\n']).length = 32 := by
    rw [List.length_append, length_beginKey]
    rfl
  have hlast : ('\n' :: endKey t).length = 30 := by cases t <;> rfl
  have hline : (beginKey t ++ ['\n'] ++ d.text.toList).length = 32 + d.text.toList.length := by
    rw [List.length_append, hfirst]
  rw [List.drop_zero, toList_keyText, toList_keyText, ← framed_eq, ← framed_eq,
    List.take_left' hfirst, ← List.append_assoc, List.drop_left' hline,
    List.take_of_length_le (Nat.le_of_eq hlast), List.append_assoc]

/-! ### The row and the files -/

/-- What an `owned-certificate` says. -/
structure OwnedCert where
  cert : PemText
  type : KeyType
  data : PemText

/-- The only row of `SSL` names the two files, and these hold the
certificate. -/
structure HoldsCert (env : Env) (resid : String) (k : OwnedCert) (w : Work) : Prop where
  row : ∃ r, w.idl.ssl.live = [r] ∧ r.val.certificate = some (certPem env) ∧
    r.val.privateKey = some (keyPem env) ∧ r.val.externalIds.get ofcResidOwn = some resid
  cert : w.files.get (certPem env) = some (certText k.cert.text)
  key : w.files.get (keyPem env) = some (keyText k.type.text k.data.text)

/-- The configuration for a certificate. -/
def ownedText (resid : String) (k : OwnedCert) : String :=
  put "owned-certificate" (put "resource-id" resid ++ put "certificate" k.cert.text ++
    put "private-key" (put "key-type" k.type.text ++ put "key-data" k.data.text))

/-- `get_owned_certificates_config` shows it. -/
theorem HoldsCert.shown {env : Env} {resid : String} {k : OwnedCert}
    (h : HoldsCert env resid k w.toWork) : getOwnedCertificatesConfig w = ownedText resid k := by
  obtain ⟨r, hlive, hcert, hkey, hresid⟩ := h.row
  have hfirst : w.idl.ssl.first (fun _ => true) = some r := by rw [Table.first, hlive]; rfl
  unfold getOwnedCertificatesConfig
  simp only [hfirst, hcert, hkey, hresid, Option.bind_eq_bind, Option.bind_some,
    certOfFile_eq h.cert, keyOfFile_eq h.key]
  rfl

variable {env : Env} {resid : String} {k : OwnedCert} {w w' : Work}

/-! ### Edits -/

/-- A call of `txn_mod_own_cert_certificate`, `txn_mod_own_cert_key_type` or
`txn_mod_own_cert_key_data`: the element, and the value in it. -/
inductive OwnedEdit where
  | certificate (node : Node) (cert : PemText) (h : firstContent node = some cert.text)
  | keyType (node : Node) (type : KeyType) (h : firstContent node = some type.text)
  | keyData (node : Node) (data : PemText) (h : (firstContent node).getD "" = data.text)

/-- The call. -/
def OwnedEdit.run (env : Env) (resid : Option String) : OwnedEdit → Txn Unit
  | .certificate node _ _ => txnModOwnCertCertificate env resid (some node)
  | .keyType node _ _ => txnModOwnCertKeyType env resid (some node)
  | .keyData node _ _ => txnModOwnCertKeyData env resid (some node)

/-- What the call sets. -/
def OwnedEdit.apply (k : OwnedCert) : OwnedEdit → OwnedCert
  | .certificate _ cert _ => { k with cert := cert }
  | .keyType _ type _ => { k with type := type }
  | .keyData _ data _ => { k with data := data }

/-- The row that is found is the only one. -/
theorem findSsl_sole {r s : Row Ssl} {type rid : String} (hlive : w.idl.ssl.live = [r])
    (h : findSsl type rid w = (.ok s, w')) : s = r ∧ w' = w := by
  obtain ⟨o, w₁, h₁, h₂⟩ := Prog.bind_ok.mp h
  obtain ⟨hfirst, rfl⟩ := Prog.read_ok.mp h₁
  cases o with
  | none => cases h₂
  | some s' =>
    obtain ⟨rfl, rfl⟩ := Prog.pure_ok.mp h₂
    have hmem : s' ∈ w.idl.ssl.live := (Table.first_some hfirst).1
    rw [hlive] at hmem
    exact ⟨List.mem_singleton.mp hmem, rfl⟩

theorem updateSsl_ok {f : Ssl → Ssl} (h : updateSsl u f w = (.ok (), w')) :
    w' = { w with idl := { w.idl with ssl := w.idl.ssl.update u f } } := by
  cases h
  rfl

theorem writeFile_ok {content : String} (h : writeFile env path content w = (.ok (), w')) :
    w' = { w with files := w.files.replace path content } := by
  unfold writeFile at h
  by_cases hcan : env.canWrite path = true
  · rw [if_pos hcan] at h
    exact (Prog.update_ok.mp h).symm
  · rw [if_neg hcan] at h
    cases h

/-- The key file as `parse_pem` reads it. -/
theorem parsePem_ok {t : KeyType} {d : PemText} {x : String × List Char × Nat × Nat}
    (hfile : w.files.get path = some (keyText t.text d.text))
    (h : parsePem env (some path) w = (.ok x, w')) :
    x = (path, (keyText t.text d.text).toList, 0, 32 + d.text.toList.length) ∧ w' = w := by
  obtain ⟨p, w₁, h₁, h₂⟩ := Prog.bind_ok.mp h
  obtain ⟨hp, rfl⟩ := Prog.ofOption_ok.mp h₁
  obtain rfl : path = p := (Option.filter_eq_some_iff.mp hp).1 |> Option.some.inj
  obtain ⟨o, w₂, h₃, h₄⟩ := Prog.bind_ok.mp h₂
  obtain ⟨rfl, rfl⟩ := Prog.read_ok.mp h₃
  rw [hfile] at h₄
  obtain ⟨m, w₃, h₅, h₆⟩ := Prog.bind_ok.mp h₄
  obtain ⟨hm, rfl⟩ := Prog.ofOption_ok.mp h₅
  rw [pemMarkers_keyText] at hm
  obtain rfl := Option.some.inj hm
  obtain ⟨rfl, rfl⟩ := Prog.pure_ok.mp h₆
  exact ⟨rfl, rfl⟩

/-- A call for the private key writes the rewritten file. -/
theorem modOwnCertKey_ok (hold : HoldsCert env resid k w)
    (rewrite : List Char → Nat → Nat → List Char → List Char)
    (h : modOwnCertKey env rewrite rid (some node) w = (.ok (), w')) {content : String}
    (hcontent : rewrite (keyText k.type.text k.data.text).toList 0 (32 + k.data.text.toList.length)
      ((firstContent node).getD "").toList = content.toList) :
    w' = { w with files := w.files.replace (keyPem env) content } := by
  obtain ⟨r, hlive, -, hkey, -⟩ := hold.row
  obtain ⟨rid', w₁, h₁, h₂⟩ := Prog.bind_ok.mp h
  obtain ⟨-, rfl⟩ := Prog.ofOption_ok.mp h₁
  obtain ⟨s, w₂, h₃, h₄⟩ := Prog.bind_ok.mp h₂
  obtain ⟨rfl, rfl⟩ := findSsl_sole hlive h₃
  rw [hkey] at h₄
  obtain ⟨x, w₃, h₅, h₆⟩ := Prog.bind_ok.mp h₄
  obtain ⟨rfl, rfl⟩ := parsePem_ok hold.key h₅
  rw [← String.ofList_toList (s := content), ← hcontent]
  exact (Prog.update_ok.mp h₆).symm

theorem txnModOwnCertKeyType_ok (hold : HoldsCert env resid k w) {type : KeyType}
    (hnode : firstContent node = some type.text)
    (h : txnModOwnCertKeyType env rid (some node) w = (.ok (), w')) :
    w' = { w with files := w.files.replace (keyPem env) (keyText type.text k.data.text) } := by
  unfold txnModOwnCertKeyType at h
  refine modOwnCertKey_ok hold _ h ?_
  have hvalue : ((firstContent node).getD "").toList = type.text.toList := by
    rw [hnode, Option.getD_some]
  rw [hvalue]
  exact overwrite_keyText k.type type k.data

theorem txnModOwnCertKeyData_ok (hold : HoldsCert env resid k w) {data : PemText}
    (hnode : (firstContent node).getD "" = data.text)
    (h : txnModOwnCertKeyData env rid (some node) w = (.ok (), w')) :
    w' = { w with files := w.files.replace (keyPem env) (keyText k.type.text data.text) } := by
  unfold txnModOwnCertKeyData at h
  refine modOwnCertKey_ok hold _ h ?_
  rw [hnode]
  exact rebuild_keyText k.type k.data data

/-- A rewritten key file. -/
theorem HoldsCert.putKey (h : HoldsCert env resid k w) (t : KeyType) (d : PemText) :
    HoldsCert env resid { k with type := t, data := d }
      { w with files := w.files.replace (keyPem env) (keyText t.text d.text) } := by
  refine ⟨h.row, ?_, ?_⟩
  · rw [Smap.get_replace, if_neg (keyPem_ne_certPem env).symm]
    exact h.cert
  · rw [Smap.get_replace, if_pos rfl]

/-- A row that is changed stays the only one. -/
theorem live_update_sole {α : Type} {t : Table α} {r : Row α} (h : t.live = [r]) (f : α → α) :
    (t.update r.uuid f).live = [{ r with val := f r.val }] := by
  have halive : ∀ x : Row α,
      (if x.uuid = r.uuid then { x with val := f x.val } else x).alive = x.alive := fun x => by
    split <;> rfl
  rw [Table.live] at h
  simp only [Table.live, Table.update, List.filter_map, Function.comp_def, halive, h, List.map_cons,
    List.map_nil, if_true]

/-- One edit sets its value and nothing else. -/
theorem HoldsCert.step (h : HoldsCert env resid k w) {edit : OwnedEdit}
    (hrun : edit.run env rid w = (.ok (), w')) : HoldsCert env resid (edit.apply k) w' := by
  cases edit with
  | certificate node cert hnode =>
    obtain ⟨r, hlive, hcert, hkey, hresid⟩ := h.row
    obtain ⟨rid', w₁, h₁, h₂⟩ := Prog.bind_ok.mp hrun
    obtain ⟨-, rfl⟩ := Prog.ofOption_ok.mp h₁
    obtain ⟨s, w₂, h₃, h₄⟩ := Prog.bind_ok.mp h₂
    obtain ⟨rfl, rfl⟩ := findSsl_sole hlive h₃
    dsimp only at h₄
    rw [hnode] at h₄
    obtain ⟨_, w₃, h₅, h₆⟩ := Prog.bind_ok.mp h₄
    obtain rfl := writeFile_ok h₅
    obtain rfl := updateSsl_ok h₆
    have hlive' := live_update_sole hlive (fun s => { s with certificate := some (certPem env) })
    refine ⟨⟨_, hlive', rfl, hkey, hresid⟩, ?_, ?_⟩
    · exact (Smap.get_replace _ _ _ _).trans (if_pos rfl)
    · exact (Smap.get_replace _ _ _ _).trans
        ((if_neg (keyPem_ne_certPem env)).trans h.key)
  | keyType node type hnode =>
    rw [txnModOwnCertKeyType_ok h hnode hrun]
    exact h.putKey type k.data
  | keyData node data hnode =>
    rw [txnModOwnCertKeyData_ok h hnode hrun]
    exact h.putKey k.type data

/-- A run of edits. -/
theorem HoldsCert.run (h : HoldsCert env resid k w) {calls : List (Option String × OwnedEdit)}
    (hrun : Prog.forEach calls (fun c => c.2.run env c.1) w = (.ok (), w')) :
    HoldsCert env resid ((calls.map Prod.snd).foldl OwnedEdit.apply k) w' := by
  induction calls generalizing k w with
  | nil =>
    cases hrun
    exact h
  | cons c calls ih =>
    obtain ⟨_, w₁, h₁, h₂⟩ := Prog.bind_ok.mp hrun
    exact ih (h.step h₁) h₂

/-! ### `txn_add_owned_certificate` -/

/-- The row for the certificate is the only one. -/
theorem certRow_sole {type which : String} {x : Uuid × Option String}
    (hrows : w.idl.ssl.live.length ≤ 1) (h : certRow type which node w = (.ok x, w')) :
    ∃ r, w'.idl.ssl.live = [r] ∧ r.uuid = x.1 := by
  obtain ⟨o, w₁, h₁, h₂⟩ := Prog.bind_ok.mp h
  obtain ⟨hfirst, rfl⟩ := Prog.read_ok.mp h₁
  cases o with
  | some r =>
    have hmem : r ∈ w.idl.ssl.live := (Table.first_some hfirst).1
    obtain ⟨hw, hx⟩ : w' = w ∧ x.1 = r.uuid := by
      dsimp only at h₂
      cases hkey : getKey (some node) "resource-id" with
      | none =>
        rw [hkey] at h₂
        cases h₂
      | some new =>
        rw [hkey] at h₂
        dsimp only at h₂
        by_cases hid : (r.val.externalIds.get type).getD new = new
        · rw [if_pos hid] at h₂
          obtain ⟨rfl, rfl⟩ := Prog.pure_ok.mp h₂
          exact ⟨rfl, rfl⟩
        · rw [if_neg hid] at h₂
          cases h₂
    obtain ⟨r', hr'⟩ := List.length_eq_one_iff.mp
      (Nat.le_antisymm hrows (List.length_pos_of_mem hmem))
    rw [hr'] at hmem
    obtain rfl := List.mem_singleton.mp hmem
    exact ⟨r, hw ▸ hr', hx.symm⟩
  | none =>
    have hnil : w.idl.ssl.live = [] := by
      refine List.eq_nil_iff_forall_not_mem.mpr fun r hr => ?_
      exact Table.first_ne_none hr rfl hfirst
    cases h₂
    refine ⟨⟨w.next, true, true, {}⟩, ?_, rfl⟩
    show (w.idl.ssl.insert w.next {}).live = _
    rw [Table.live] at hnil
    rw [Table.live, Table.insert, List.filter_append, hnil]
    rfl

theorem mandatory_ok {name v : String} {o : Option String} (h : mandatory name o w = (.ok v, w')) :
    o = some v ∧ w' = w := by
  cases o with
  | none => cases h
  | some v' =>
    cases h
    exact ⟨rfl, rfl⟩

theorem linkSsl_ok (h : linkSsl u w = (.ok (), w')) :
    w'.idl.ssl = w.idl.ssl ∧ w'.files = w.files := by
  obtain ⟨o, w₁, h₁, h₂⟩ := Prog.bind_ok.mp h
  obtain ⟨-, rfl⟩ := Prog.read_ok.mp h₁
  cases o with
  | none =>
    cases h₂
    exact ⟨rfl, rfl⟩
  | some r =>
    cases h₂
    exact ⟨rfl, rfl⟩

/-- The data of a new certificate are stored. -/
theorem storeOwned_ok {key : Option String} {r : Row Ssl} (hlive : w.idl.ssl.live = [r])
    (hu : r.uuid = u) (hcert : lastContent node "certificate" = some k.cert.text)
    (htype : keyLeaf node "key-type" = some k.type.text)
    (hdata : keyLeaf node "key-data" = some k.data.text)
    (h : storeOwned env node u key w = (.ok (), w')) : ∃ resid, HoldsCert env resid k w' := by
  subst hu
  obtain ⟨resid, w₁, h₁, h₂⟩ := Prog.bind_ok.mp h
  obtain ⟨-, rfl⟩ := mandatory_ok h₁
  obtain ⟨cert, w₂, h₃, h₄⟩ := Prog.bind_ok.mp h₂
  obtain ⟨hc, rfl⟩ := mandatory_ok h₃
  obtain ⟨type, w₃, h₅, h₆⟩ := Prog.bind_ok.mp h₄
  obtain ⟨ht, rfl⟩ := mandatory_ok h₅
  obtain ⟨data, w₄, h₇, h₈⟩ := Prog.bind_ok.mp h₆
  obtain ⟨hd, rfl⟩ := mandatory_ok h₇
  obtain rfl := Option.some.inj (hcert.symm.trans hc)
  obtain rfl := Option.some.inj (htype.symm.trans ht)
  obtain rfl := Option.some.inj (hdata.symm.trans hd)
  obtain ⟨_, w₅, h₉, h₁₀⟩ := Prog.bind_ok.mp h₈
  obtain rfl := writeFile_ok h₉
  obtain ⟨_, w₆, h₁₁, h₁₂⟩ := Prog.bind_ok.mp h₁₀
  obtain rfl := updateSsl_ok h₁₁
  obtain ⟨_, w₇, h₁₃, h₁₄⟩ := Prog.bind_ok.mp h₁₂
  obtain rfl := writeFile_ok h₁₃
  obtain ⟨_, w₈, h₁₅, h₁₆⟩ := Prog.bind_ok.mp h₁₄
  obtain rfl := updateSsl_ok h₁₅
  obtain ⟨_, w₉, h₁₇, h₁₈⟩ := Prog.bind_ok.mp h₁₆
  obtain rfl := updateSsl_ok h₁₇
  obtain ⟨hssl, hfiles⟩ := linkSsl_ok h₁₈
  have hlive₁ := live_update_sole hlive (fun s => { s with certificate := some (certPem env) })
  have hlive₂ := live_update_sole hlive₁ (fun s => { s with privateKey := some (keyPem env) })
  have hlive₃ := live_update_sole hlive₂
    (fun s => { s with externalIds := s.externalIds.replace ofcResidOwn resid })
  refine ⟨resid, ⟨_, (congrArg Table.live hssl).trans hlive₃, rfl, rfl, ?_⟩, ?_, ?_⟩
  · exact (Smap.get_replace _ _ _ _).trans (if_pos rfl)
  · rw [hfiles, Smap.get_replace, if_neg (keyPem_ne_certPem env).symm, Smap.get_replace, if_pos rfl]
  · rw [hfiles, Smap.get_replace, if_pos rfl]

/-- After a certificate was added and edited in any way, the configuration
shows the certificate, the type and the data that were set last. -/
theorem owned_certificate_round_trip {node : Node} {calls : List (Option String × OwnedEdit)}
    {w₁ w₂ : Work} (hrows : w.idl.ssl.live.length ≤ 1)
    (hcert : lastContent node "certificate" = some k.cert.text)
    (htype : keyLeaf node "key-type" = some k.type.text)
    (hdata : keyLeaf node "key-data" = some k.data.text)
    (hadd : txnAddOwnedCertificate env node w = (.ok (), w₁))
    (hrun : Prog.forEach calls (fun c => c.2.run env c.1) w₁ = (.ok (), w₂)) :
    ∃ resid, ∀ world : World, world.toWork = w₂ →
      getOwnedCertificatesConfig world =
        ownedText resid ((calls.map Prod.snd).foldl OwnedEdit.apply k) := by
  obtain ⟨x, w₀, h₁, h₂⟩ := Prog.bind_ok.mp hadd
  obtain ⟨r, hlive, hu⟩ := certRow_sole hrows h₁
  obtain ⟨resid, hold⟩ := storeOwned_ok hlive hu hcert htype hdata h₂
  refine ⟨resid, fun world hworld => ?_⟩
  subst hworld
  exact (hold.run hrun).shown

/-- An entry to add. -/
def ownedNode : Node :=
  elem "owned-certificate" none [elem "resource-id" none [txt "c"],
    elem "certificate" none [txt "x"],
    elem "private-key" none [elem "key-type" none [txt "RSA"], elem "key-data" none [txt "yy"]]]

/-- Data with a line of four dashes. -/
def dashedData : PemText := ⟨"----\nz", by decide⟩

/-- The type is changed, then the data to a longer text. -/
def dsaEdits : List (Option String × OwnedEdit) :=
  [(some "c", .keyType (elem "key-type" none [txt "DSA"]) .dsa rfl),
    (some "c", .keyData (elem "key-data" none [txt "----\nz"]) dashedData rfl)]

theorem owned_certificate_round_trip_dsa :
    ∃ w₁ w₂ resid, txnAddOwnedCertificate grantingEnv ownedNode {} = (.ok (), w₁) ∧
      Prog.forEach dsaEdits (fun c => c.2.run grantingEnv c.1) w₁ = (.ok (), w₂) ∧
      ∀ world : World, world.toWork = w₂ → getOwnedCertificatesConfig world =
        ownedText resid ⟨⟨"x", by decide⟩, .dsa, dashedData⟩ := by
  have hadd : txnAddOwnedCertificate grantingEnv ownedNode {} =
      (.ok (), (txnAddOwnedCertificate grantingEnv ownedNode {}).2) :=
    Prod.ext (by decide) rfl
  have hok : (Prog.forEach dsaEdits (fun c => c.2.run grantingEnv c.1)
      (txnAddOwnedCertificate grantingEnv ownedNode {}).2).1 = .ok () := by decide
  obtain ⟨resid, hshown⟩ := owned_certificate_round_trip
    (k := ⟨⟨"x", by decide⟩, .rsa, ⟨"yy", by decide⟩⟩) (by decide) (by decide) (by decide)
    (by decide) hadd (Prod.ext hok rfl)
  exact ⟨_, _, resid, hadd, Prod.ext hok rfl, hshown⟩

end OfConfig.Proofs
