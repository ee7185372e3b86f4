import Mathlib.Data.List.TakeWhile

/-!
# `OfConfig.Edit.Text`: `clrwspace`

`clrwspace` of `edit-config.c` is meant to cut white space off both
ends of a text. A text is a `String` with one character for every
`xmlChar` of the C buffer. The buffer is a list of `Option Char` whose
`none` is the terminating zero, so the loops below are the C loops
with their two indices.

`clrwspace_eq` gives the function in closed form. It trims only in part:

* a text that does not begin with white space comes back as it is,
  trailing white space included;
* from a text that begins with white space every white space character
  is dropped, inner ones too, and then the end of the text may be
  kept a second time: `" a"` becomes `"aa"`.
-/

set_option autoImplicit false

namespace OfConfig.Edit

/-- `isspace` of the C locale. -/
def isSpace (c : Char) : Bool :=
  c = ' ' || c = '\t' || c = '\n' || c = '\x0b' || c = '\x0c' || c = '\r'

/-- A C buffer: the characters of a string and its terminating zero. -/
abbrev Buf := List (Option Char)

/-- The buffer of a text, as `strdup` makes it. -/
def bufOf (t : List Char) : Buf := t.map some ++ [none]

/-- `isspace(retval[i])`; false for the terminating zero. -/
def Buf.isSpaceAt (b : Buf) (i : Nat) : Bool :=
  match b[i]? with
  | some (some c) => isSpace c
  | _ => false

/-- The inner loop `while (retval[i] != '\0' && isspace(retval[i])) i++`. -/
def Buf.skipSpace (b : Buf) : Nat → Nat → Nat
  | 0, i => i
  | n + 1, i => if b.isSpaceAt i then b.skipSpace n (i + 1) else i

/-- The loop over the buffer, `for (i = 0, j = 0; i < len; i++, j++)`,
from the indices `i` and `j` on. -/
def Buf.moveLoop (len : Nat) : Nat → Buf → Nat → Nat → Buf × Nat
  | 0, b, _, j => (b, j)
  | n + 1, b, i, j =>
    if i < len then
      let i' := b.skipSpace len i
      Buf.moveLoop len n (b.set j (b.getD i' none)) (i' + 1) (j + 1)
    else (b, j)

/-- The loop `while (j >= 0 && isspace(retval[j]))` over the trailing
white space. -/
def Buf.cutLoop (b : Buf) : Nat → Buf
  | 0 => if b.isSpaceAt 0 then b.set 0 none else b
  | j + 1 => if b.isSpaceAt (j + 1) then Buf.cutLoop (b.set (j + 1) none) j else b

/-- The string a buffer holds: everything before the first zero. -/
def Buf.string : Buf → List Char
  | some c :: b => c :: Buf.string b
  | _ => []

/-- `clrwspace` -/
def clrwspace (s : String) : String :=
  let b := bufOf s.toList
  let len := s.toList.length
  let r := if b.isSpaceAt 0 then Buf.moveLoop len len b 0 0 else (b, 0)
  String.ofList (r.1.cutLoop r.2).string

/-! ### Closed form -/

private theorem isSpaceAt_append_right (p : List Char) (r : Buf) (i : Nat) :
    Buf.isSpaceAt (p.map some ++ r) (p.length + i) = Buf.isSpaceAt r i := by
  simp [Buf.isSpaceAt, List.getElem?_append_right]

private theorem isSpaceAt_drop (r : Buf) (j i : Nat) :
    Buf.isSpaceAt (r.drop j) i = Buf.isSpaceAt r (j + i) := by
  simp [Buf.isSpaceAt]

/-- The inner loop stops right after the white space it stands on. -/
private theorem skipSpace_eq (b : Buf) (u : List Char) (i n : Nat) (hn : u.length ≤ n)
    (hb : ∀ k, Buf.isSpaceAt b (i + k) = Buf.isSpaceAt (bufOf u) k) :
    Buf.skipSpace b n i = i + (u.takeWhile isSpace).length := by
  induction u generalizing i n with
  | nil =>
    have h0 : Buf.isSpaceAt b i = false := by simpa [bufOf, Buf.isSpaceAt] using hb 0
    cases n <;> simp [Buf.skipSpace, h0]
  | cons c u ih =>
    obtain ⟨n, rfl⟩ : ∃ k, n = k + 1 := ⟨n - 1, by simp at hn; omega⟩
    have h0 : Buf.isSpaceAt b i = isSpace c := by simpa [bufOf, Buf.isSpaceAt] using hb 0
    by_cases hc : isSpace c = true
    · have ih' := ih (i + 1) n (by simpa using hn) (fun k => by
        have h := hb (k + 1)
        rw [show i + (k + 1) = i + 1 + k by omega] at h
        rw [h]
        simp [bufOf, Buf.isSpaceAt])
      simp [Buf.skipSpace, h0, hc, ih']
      omega
    · simp [Buf.skipSpace, h0, hc]

/-- Writing at the end of the kept characters. -/
private theorem set_kept (p : List Char) (r : Buf) (x : Option Char) (hr : p.length < r.length) :
    (p.map some ++ r.drop p.length).set p.length x = p.map some ++ x :: r.drop (p.length + 1) := by
  rw [List.set_append_right _ _ (by simp)]
  simp only [List.length_map, Nat.sub_self]
  rw [List.drop_eq_getElem_cons hr, List.set_cons_zero]

/-- Reading behind the kept characters. -/
private theorem getD_kept (p : List Char) (r : Buf) (i : Nat) (hi : p.length ≤ i) :
    (p.map some ++ r.drop p.length).getD i none = r.getD i none := by
  simp only [List.getD_eq_getElem?_getD]
  rw [List.getElem?_append_right (by simpa using hi)]
  simp [Nat.add_sub_cancel' hi]

/-- Does the text end in white space? -/
def endsInSpace (t : List Char) : Bool :=
  (t.getLast?.map isSpace).getD false

private theorem endsInSpace_cons (c : Char) (t : List Char) (h : t ≠ []) :
    endsInSpace (c :: t) = endsInSpace t := by
  simp [endsInSpace, List.getLast?_cons_of_ne_nil h]

private theorem endsInSpace_append (w t : List Char) (h : t ≠ []) :
    endsInSpace (w ++ t) = endsInSpace t := by
  simp [endsInSpace, List.getLast?_append, List.getLast?_eq_some_getLast h]

private theorem endsInSpace_of_all (t : List Char) (h : t ≠ []) (ha : ∀ c ∈ t, isSpace c = true) :
    endsInSpace t = true := by
  simp [endsInSpace, List.getLast?_eq_some_getLast h, ha _ (List.getLast_mem h)]

private theorem moveLoop_stop (len n : Nat) (b : Buf) (i j : Nat) (hi : len ≤ i) :
    Buf.moveLoop len n b i j = (b, j) := by
  cases n with
  | zero => rfl
  | succ n => simp [Buf.moveLoop, Nat.not_lt.mpr hi]

/-- What the loop over the buffer leaves: the characters kept so far,
then the ones it still finds, then the old buffer. When the text ends
in white space the last round writes a zero and moves on. -/
private theorem moveLoop_eq (t p u : List Char) (i n : Nat) (hu : t.drop i = u)
    (hi : i ≤ t.length) (hp : p.length ≤ i) (hn : u.length ≤ n) :
    let q := p ++ u.filter (fun c => !isSpace c)
    Buf.moveLoop t.length n (p.map some ++ (bufOf t).drop p.length) i p.length =
      if endsInSpace u then
        (q.map some ++ none :: (bufOf t).drop (q.length + 1), q.length + 1)
      else (q.map some ++ (bufOf t).drop q.length, q.length) := by
  have hlen : u.length = t.length - i := by rw [← hu, List.length_drop]
  induction n generalizing p u i with
  | zero =>
    obtain rfl : u = [] := List.length_eq_zero_iff.mp (by omega)
    simp [Buf.moveLoop, endsInSpace]
  | succ n ih =>
    by_cases hit : i < t.length
    · have hbuf : p.length < (bufOf t).length := by simp [bufOf]; omega
      have hskip : Buf.skipSpace (p.map some ++ (bufOf t).drop p.length) t.length i
          = i + (u.takeWhile isSpace).length := by
        refine skipSpace_eq _ u i t.length (by omega) (fun k => ?_)
        obtain ⟨d, rfl⟩ : ∃ d, i = p.length + d := ⟨i - p.length, by omega⟩
        rw [Nat.add_assoc, isSpaceAt_append_right, isSpaceAt_drop, ← hu, ← Nat.add_assoc,
          ← isSpaceAt_drop]
        rw [bufOf, List.drop_append_of_le_length (by simpa using hi), ← List.map_drop, bufOf]
      have hun : u ≠ [] := by
        intro h
        rw [h] at hlen
        simp at hlen
        omega
      simp only [Buf.moveLoop, hit, if_true, hskip]
      rw [set_kept p _ _ hbuf, getD_kept p _ _ (by omega)]
      have hsplit := List.takeWhile_append_dropWhile (p := isSpace) (l := u)
      cases hv : u.dropWhile isSpace with
      | nil =>
        -- only white space is left: the terminating zero moves forward
        rw [hv, List.append_nil] at hsplit
        have hall : ∀ c ∈ u, isSpace c = true := by
          rw [← hsplit]
          exact fun c hc => List.mem_takeWhile_imp hc
        have hq : u.filter (fun c => !isSpace c) = [] := by
          rw [List.filter_eq_nil_iff]
          intro c hc
          simp [hall c hc]
        have hend : i + (u.takeWhile isSpace).length = t.length := by
          rw [hsplit, hlen]
          omega
        rw [hend, endsInSpace_of_all u hun hall, hq]
        have hz : (bufOf t).getD t.length none = none := by
          simp [bufOf, List.getD_eq_getElem?_getD]
        rw [hz, moveLoop_stop _ _ _ _ _ (by omega)]
        simp
      | cons c v =>
        rw [hv] at hsplit
        have hc : isSpace c = false := by
          simpa [hv] using List.head?_dropWhile_not isSpace u
        have hdrop : t.drop (i + (u.takeWhile isSpace).length) = c :: v := by
          have h := congrArg (List.drop (u.takeWhile isSpace).length) hsplit
          rw [List.drop_left] at h
          rw [← List.drop_drop, hu, ← h]
        have hlt : i + (u.takeWhile isSpace).length < t.length := by
          by_contra hge
          rw [List.drop_eq_nil_of_le (by omega)] at hdrop
          simp at hdrop
        have hget : (bufOf t).getD (i + (u.takeWhile isSpace).length) none = some c := by
          have h0 : (bufOf t)[i + (u.takeWhile isSpace).length]? = some (some c) := by
            rw [bufOf, List.getElem?_append_left (by simpa using hlt), List.getElem?_map,
              ← List.head?_drop, hdrop]
            rfl
          simp [List.getD_eq_getElem?_getD, h0]
        have hspaces : (u.takeWhile isSpace).filter (fun c => !isSpace c) = [] := by
          rw [List.filter_eq_nil_iff]
          intro x hx
          simp [List.mem_takeWhile_imp hx]
        have hfilter : u.filter (fun c => !isSpace c) = c :: v.filter (fun c => !isSpace c) := by
          have h := congrArg (List.filter (fun c => !isSpace c)) hsplit
          rw [List.filter_append, List.filter_cons_of_pos (by simp [hc]), hspaces,
            List.nil_append] at h
          exact h.symm
        have hends : endsInSpace u = endsInSpace v := by
          rw [← hsplit, endsInSpace_append _ _ (by simp)]
          by_cases hvn : v = []
          · simp [hvn, endsInSpace, hc]
          · exact endsInSpace_cons c v hvn
        have hvlen : v.length = t.length - (i + (u.takeWhile isSpace).length + 1) := by
          have h := congrArg List.length hdrop
          simp at h
          omega
        have hrest := ih (p ++ [c]) v (i + (u.takeWhile isSpace).length + 1)
          (by rw [← List.drop_drop, hdrop]; rfl) (by omega) (by simp; omega) (by omega) hvlen
        rw [hget, hends, hfilter]
        simpa using hrest
    · obtain rfl : u = [] := List.length_eq_zero_iff.mp (by omega)
      simp [Buf.moveLoop, endsInSpace, hit]

/-- The trailing loop leaves a text alone that is already closed by a
zero in front of it. -/
private theorem string_append_none (q : List Char) (r : Buf) :
    Buf.string (q.map some ++ none :: r) = q := by
  induction q with
  | nil => rfl
  | cons c q ih => simp [Buf.string, ih]

/-- The trailing loop changes nothing when it starts on a character
that is not white space. -/
private theorem cutLoop_of_not_isSpaceAt (b : Buf) (j : Nat) (h : b.isSpaceAt j = false) :
    b.cutLoop j = b := by
  cases j <;> simp [Buf.cutLoop, h]

private theorem string_bufOf (q : List Char) : Buf.string (bufOf q) = q :=
  string_append_none q []

private theorem string_append (q : List Char) (r : Buf) :
    Buf.string (q.map some ++ r) = q ++ Buf.string r := by
  induction q with
  | nil => rfl
  | cons c q ih => simp [Buf.string, ih]

/-- Cutting behind a closed text. -/
private theorem string_cutLoop_closed (q : List Char) (r : Buf) :
    Buf.string (Buf.cutLoop (q.map some ++ none :: r) (q.length + 1)) = q := by
  have hz : ∀ r' : Buf, Buf.isSpaceAt (q.map some ++ none :: r') q.length = false := by
    intro r'
    simp [Buf.isSpaceAt]
  cases h : Buf.isSpaceAt (q.map some ++ none :: r) (q.length + 1) with
  | false => rw [cutLoop_of_not_isSpaceAt _ _ h, string_append_none]
  | true =>
    have hset : (q.map some ++ none :: r).set (q.length + 1) none
        = q.map some ++ none :: r.set 0 none := by
      rw [List.set_append_right _ _ (by simp)]
      simp
    rw [Buf.cutLoop, if_pos h, hset, cutLoop_of_not_isSpaceAt _ _ (hz _), string_append_none]

/-- Cutting right behind the kept characters, none of which is white
space: one character goes, or the rest of the old text stays. -/
private theorem string_cutLoop_open (q : List Char) (c : Char) (r : List Char) (hq : q ≠ [])
    (hns : ∀ x ∈ q, isSpace x = false) :
    Buf.string (Buf.cutLoop (q.map some ++ bufOf (c :: r)) q.length) =
      if isSpace c then q else q ++ c :: r := by
  have hat : Buf.isSpaceAt (q.map some ++ bufOf (c :: r)) q.length = isSpace c := by
    simp [Buf.isSpaceAt, bufOf]
  cases hc : isSpace c with
  | false =>
    rw [cutLoop_of_not_isSpaceAt _ _ (by rw [hat, hc]), string_append, string_bufOf]
    simp
  | true =>
    obtain ⟨k, hk⟩ : ∃ k, q.length = k + 1 :=
      ⟨q.length - 1, by have := List.length_pos_iff.mpr hq; omega⟩
    have hset : (q.map some ++ bufOf (c :: r)).set (k + 1) none
        = q.map some ++ none :: bufOf r := by
      rw [List.set_append_right _ _ (by simp [hk])]
      simp [bufOf, hk]
    have hlast : Buf.isSpaceAt (q.map some ++ none :: bufOf r) k = false := by
      have hkq : k < q.length := by omega
      simp only [Buf.isSpaceAt]
      rw [List.getElem?_append_left (by simpa using hkq)]
      simp [hkq, hns]
    rw [hk] at hat ⊢
    rw [Buf.cutLoop, if_pos (by rw [hat, hc]), hset, cutLoop_of_not_isSpaceAt _ _ hlast,
      string_append_none]
    rfl

/-- `clrwspace` in closed form, on the characters of the text. -/
def clrwspaceChars : List Char → List Char
  | [] => []
  | c :: t =>
    if isSpace c then
      let q := t.filter (fun c => !isSpace c)
      if endsInSpace (c :: t) then q
      else if ((c :: t)[q.length]?.map isSpace).getD false then q
      else q ++ (c :: t).drop q.length
    else c :: t

/-- A text that does not end in white space has a character to keep. -/
private theorem filter_ne_nil_of_not_endsInSpace (t : List Char) (ht : t ≠ [])
    (h : endsInSpace t = false) : t.filter (fun c => !isSpace c) ≠ [] := by
  intro hnil
  rw [List.filter_eq_nil_iff] at hnil
  have hall : ∀ c ∈ t, isSpace c = true := fun c hc => by simpa using hnil c hc
  rw [endsInSpace_of_all t ht hall] at h
  exact absurd h (by simp)

/-- The C loops compute `clrwspaceChars`. -/
theorem clrwspace_eq (s : String) : clrwspace s = String.ofList (clrwspaceChars s.toList) := by
  unfold clrwspace
  cases s.toList with
  | nil => rfl
  | cons c t =>
    have hat : Buf.isSpaceAt (bufOf (c :: t)) 0 = isSpace c := by simp [Buf.isSpaceAt, bufOf]
    simp only [hat, clrwspaceChars]
    cases hc : isSpace c with
    | false =>
      simp only [Bool.false_eq_true, if_false]
      rw [cutLoop_of_not_isSpaceAt _ _ (by rw [hat, hc]), string_bufOf]
    | true =>
      -- both loops start: `q` is what the first one keeps
      have hq : (c :: t).filter (fun c => !isSpace c) = t.filter (fun c => !isSpace c) :=
        List.filter_cons_of_neg (by simp [hc])
      have hmove := moveLoop_eq (c :: t) [] (c :: t) 0 (c :: t).length rfl (by simp) (by simp)
        (Nat.le_refl _)
      simp only [List.nil_append, List.map_nil, List.length_nil, List.drop_zero, hq] at hmove
      simp only [if_true, hmove]
      cases he : endsInSpace (c :: t) with
      | true => simp only [if_true]; rw [string_cutLoop_closed]
      | false =>
        have hqn := filter_ne_nil_of_not_endsInSpace (c :: t) (by simp) he
        have hns : ∀ x ∈ t.filter (fun c => !isSpace c), isSpace x = false := by
          intro x hx
          simpa using (List.mem_filter.mp hx).2
        rw [hq] at hqn
        have hlt : (t.filter (fun c => !isSpace c)).length < (c :: t).length := by
          have h := List.length_filter_le (fun c => !isSpace c) t
          simp only [List.length_cons]
          omega
        have hbuf : (bufOf (c :: t)).drop (t.filter (fun c => !isSpace c)).length
            = bufOf ((c :: t).drop (t.filter (fun c => !isSpace c)).length) := by
          rw [bufOf, List.drop_append_of_le_length (by simpa using hlt.le), ← List.map_drop,
            bufOf]
        rw [List.drop_eq_getElem_cons hlt] at hbuf ⊢
        simp only [Bool.false_eq_true, if_false, hbuf]
        rw [string_cutLoop_open _ _ _ hqn hns, List.getElem?_eq_getElem hlt]
        simp

example : clrwspace " a" = "aa" := by decide

end OfConfig.Edit
