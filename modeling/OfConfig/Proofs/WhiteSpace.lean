import OfConfig.Proofs.Identity

/-!
# `OfConfig.Proofs.WhiteSpace`: what `clrwspace` trims

`clrwspaceChecked` is `clrwspace` with every access to the buffer checked:
`none` stands for an index outside of it, and for a loop that does not end.
`clrwspaceChecked_eq` says that neither happens.

* `clrwspace_trims_iff`: the result is the text without the white space around
  it if and only if the text has no white space at its ends, or it begins with
  white space, has none inside, and either ends in white space or has fewer
  other characters than white space in front.
* `clrwspace_doubles`: `" a"` becomes `"aa"`.
-/

set_option autoImplicit false

namespace OfConfig.Proofs

open OfConfig.Edit

/-! ### Checked accesses -/

/-- `isspace(retval[i])`, with the index checked. -/
def isSpaceAtChecked (b : Buf) (i : Nat) : Option Bool := b[i]?.map (fun c => c.any isSpace)

/-- `retval[j] = c`, with the index checked. -/
def writeChecked (b : Buf) (j : Nat) (c : Option Char) : Option Buf :=
  if j < b.length then some (b.set j c) else none

/-- `Buf.skipSpace` -/
def skipSpaceChecked (b : Buf) : Nat → Nat → Option Nat
  | 0, _ => none
  | n + 1, i => do if ← isSpaceAtChecked b i then skipSpaceChecked b n (i + 1) else some i

/-- `Buf.moveLoop` -/
def moveLoopChecked (len : Nat) : Nat → Buf → Nat → Nat → Option (Buf × Nat)
  | 0, _, _, _ => none
  | n + 1, b, i, j =>
    if i < len then do
      let i' ← skipSpaceChecked b (len + 1) i
      let c ← b[i']?
      let b' ← writeChecked b j c
      moveLoopChecked len n b' (i' + 1) (j + 1)
    else some (b, j)

/-- `Buf.cutLoop` -/
def cutLoopChecked (b : Buf) : Nat → Option Buf
  | 0 => do if ← isSpaceAtChecked b 0 then writeChecked b 0 none else some b
  | j + 1 => do
      if ← isSpaceAtChecked b (j + 1) then
        let b' ← writeChecked b (j + 1) none
        cutLoopChecked b' j
      else some b

/-- `clrwspace` -/
def clrwspaceChecked (s : String) : Option String := do
  let b := bufOf s.toList
  let len := s.toList.length
  let r ← if ← isSpaceAtChecked b 0 then moveLoopChecked len (len + 1) b 0 0 else some (b, 0)
  let b' ← cutLoopChecked r.1 r.2
  return String.ofList b'.string

theorem isSpaceAtChecked_eq {b : Buf} {i : Nat} (hi : i < b.length) :
    isSpaceAtChecked b i = some (b.isSpaceAt i) := by
  unfold isSpaceAtChecked Buf.isSpaceAt
  rw [List.getElem?_eq_getElem hi]
  cases b[i] with
  | none => rfl
  | some c => rfl

/-- A buffer of a text of the given length: it is closed behind the text. -/
structure Closed (len : Nat) (b : Buf) : Prop where
  length : b.length = len + 1
  zero : b[len]? = some none

theorem closed_bufOf (t : List Char) : Closed t.length (bufOf t) where
  length := by simp [bufOf]
  zero := by simp [bufOf]

section Loops

variable {len : Nat} {b : Buf}

/-- The inner loop stays inside the buffer and ends at the zero at the latest. -/
theorem skipSpaceChecked_eq (hb : Closed len b) {n m i : Nat} (hi : i ≤ len)
    (hn : len - i < n) (hm : len - i ≤ m) :
    skipSpaceChecked b n i = some (b.skipSpace m i) ∧ b.skipSpace m i ≤ len := by
  induction n generalizing i m with
  | zero => omega
  | succ n ih =>
    have hspace := isSpaceAtChecked_eq (b := b) (i := i) (by rw [hb.length]; omega)
    rw [skipSpaceChecked, hspace]
    cases h : b.isSpaceAt i with
    | false =>
      have hstop : b.skipSpace m i = i := by cases m <;> simp [Buf.skipSpace, h]
      rw [hstop]
      exact ⟨rfl, hi⟩
    | true =>
      have hlt : i ≠ len := by
        rintro rfl
        rw [Buf.isSpaceAt, hb.zero] at h
        cases h
      obtain ⟨m, rfl⟩ : ∃ k, m = k + 1 := ⟨m - 1, by omega⟩
      have hnext : b.skipSpace (m + 1) i = b.skipSpace m (i + 1) := by
        rw [Buf.skipSpace, if_pos h]
      rw [hnext]
      exact ih (by omega) (by omega) (by omega)

theorem le_skipSpace (b : Buf) (n i : Nat) : i ≤ b.skipSpace n i := by
  induction n generalizing i with
  | zero => exact Nat.le_refl i
  | succ n ih =>
    rw [Buf.skipSpace]
    split
    · exact Nat.le_trans (Nat.le_succ i) (ih (i + 1))
    · exact Nat.le_refl i

theorem Closed.set (hb : Closed len b) {j : Nat} (hj : j < len) (c : Option Char) :
    Closed len (b.set j c) where
  length := by rw [List.length_set, hb.length]
  zero := by rw [List.getElem?_set_ne (Nat.ne_of_lt hj), hb.zero]

/-- A round writes in front of the place it reads from. -/
theorem moveLoopChecked_eq {n i j : Nat} (hb : Closed len b) (hj : j ≤ i) (hjl : j ≤ len)
    (hn : len - i ≤ n) :
    moveLoopChecked len (n + 1) b i j = some (Buf.moveLoop len n b i j) ∧
      (Buf.moveLoop len n b i j).1.length = len + 1 ∧ (Buf.moveLoop len n b i j).2 ≤ len := by
  induction n generalizing b i j with
  | zero =>
    rw [moveLoopChecked, if_neg (by omega), Buf.moveLoop]
    exact ⟨rfl, hb.length, hjl⟩
  | succ n ih =>
    rw [moveLoopChecked, Buf.moveLoop]
    by_cases hi : i < len
    · obtain ⟨hskip, hle⟩ :=
        skipSpaceChecked_eq hb (n := len + 1) (m := len) (i := i) (by omega) (by omega) (by omega)
      have hread : b[b.skipSpace len i]? = some (b.getD (b.skipSpace len i) none) := by
        rw [List.getD_eq_getElem?_getD,
          List.getElem?_eq_getElem (by rw [hb.length]; omega), Option.getD_some]
      have hwrite : writeChecked b j (b.getD (b.skipSpace len i) none) =
          some (b.set j (b.getD (b.skipSpace len i) none)) :=
        if_pos (by rw [hb.length]; omega)
      have hge : i ≤ b.skipSpace len i := le_skipSpace b len i
      rw [if_pos hi, if_pos hi, hskip]
      dsimp only [Option.bind_eq_bind, Option.bind_some]
      rw [hread, Option.bind_some, hwrite, Option.bind_some]
      exact ih (hb.set (by omega) _) (by omega) (by omega) (by omega)
    · rw [if_neg hi, if_neg hi]
      exact ⟨rfl, hb.length, hjl⟩

/-- The trailing loop goes down from a place inside the buffer. -/
theorem cutLoopChecked_eq {j : Nat} (hj : j < b.length) :
    cutLoopChecked b j = some (b.cutLoop j) := by
  induction j generalizing b with
  | zero =>
    rw [cutLoopChecked, isSpaceAtChecked_eq hj, Buf.cutLoop]
    cases b.isSpaceAt 0 with
    | false => rfl
    | true => exact if_pos hj
  | succ j ih =>
    rw [cutLoopChecked, isSpaceAtChecked_eq hj, Buf.cutLoop]
    cases b.isSpaceAt (j + 1) with
    | false => rfl
    | true =>
      have hwrite : writeChecked b (j + 1) none = some (b.set (j + 1) none) := if_pos hj
      dsimp only [Option.bind_eq_bind, Option.bind_some]
      rw [if_pos rfl, if_pos rfl, hwrite, Option.bind_some]
      exact ih (by rw [List.length_set]; omega)

end Loops

/-- No index is outside of the buffer, and all loops end. -/
theorem clrwspaceChecked_eq (s : String) : clrwspaceChecked s = some (clrwspace s) := by
  have hb := closed_bufOf s.toList
  have hspace := isSpaceAtChecked_eq (b := bufOf s.toList) (i := 0) (by rw [hb.length]; omega)
  unfold clrwspaceChecked clrwspace
  dsimp only
  rw [hspace]
  dsimp only [Option.bind_eq_bind, Option.bind_some]
  cases (bufOf s.toList).isSpaceAt 0 with
  | false =>
    rw [if_neg Bool.false_ne_true, if_neg Bool.false_ne_true,
      cutLoopChecked_eq (by rw [hb.length]; omega)]
    rfl
  | true =>
    obtain ⟨hmove, hlen, hle⟩ := moveLoopChecked_eq (n := s.toList.length) (i := 0) (j := 0) hb
      (Nat.le_refl 0) (Nat.zero_le _) (by omega)
    rw [if_pos rfl, if_pos rfl, hmove, Option.bind_some, cutLoopChecked_eq (by omega)]
    rfl

/-! ### Trimming -/

/-- The characters without the white space around them. -/
def trimChars (t : List Char) : List Char := (t.dropWhile isSpace).rdropWhile isSpace

/-- No white space inside. -/
def SolidCore (t : List Char) : Prop := ∀ c ∈ trimChars t, isSpace c = false

/-- The texts that `clrwspace` trims as it should: nothing to trim at all; or
white space in front, none inside, and the old characters behind the ones
that were moved begin with white space or are cut off. -/
def Trimmable (t : List Char) : Prop :=
  ((t.head?.any isSpace = false) ∧ endsInSpace t = false) ∨
  (t.head?.any isSpace = true ∧ SolidCore t ∧
    (endsInSpace t = true ∨ (trimChars t).length < (t.takeWhile isSpace).length))

theorem filter_dropWhile_isSpace (t : List Char) :
    (t.dropWhile isSpace).filter (fun c => !isSpace c) = t.filter (fun c => !isSpace c) := by
  induction t with
  | nil => rfl
  | cons c t ih =>
    by_cases hc : isSpace c = true
    · rw [List.dropWhile_cons_of_pos hc, ih, List.filter_cons_of_neg (by simp [hc])]
    · rw [List.dropWhile_cons_of_neg hc]

/-- Trimming keeps every character that is not white space. -/
theorem filter_trimChars (t : List Char) :
    (trimChars t).filter (fun c => !isSpace c) = t.filter (fun c => !isSpace c) := by
  rw [trimChars, List.rdropWhile, List.filter_reverse, filter_dropWhile_isSpace,
    ← List.filter_reverse, List.reverse_reverse, filter_dropWhile_isSpace]

/-- The other characters are the trimmed text exactly when there is no white
space inside. -/
theorem filter_eq_trimChars_iff (t : List Char) :
    t.filter (fun c => !isSpace c) = trimChars t ↔ SolidCore t := by
  rw [← filter_trimChars, List.filter_eq_self]
  exact forall_congr' fun c => imp_congr_right fun _ => by simp

theorem endsInSpace_eq_false_iff (t : List Char) :
    endsInSpace t = false ↔ t.rdropWhile isSpace = t := by
  rw [List.rdropWhile_eq_self_iff, endsInSpace]
  cases t with
  | nil => simp
  | cons c t =>
    rw [List.getLast?_eq_some_getLast (List.cons_ne_nil c t)]
    simp

/-- A text that does not end in white space is trimmed in front only. -/
theorem trimChars_of_not_endsInSpace {t : List Char} (h : endsInSpace t = false) :
    t.takeWhile isSpace ++ trimChars t = t := by
  have hdrop : endsInSpace (t.dropWhile isSpace) = false := by
    by_cases hnil : t.dropWhile isSpace = []
    · rw [hnil]
      rfl
    · rw [endsInSpace, ← List.getLast?_append_of_ne_nil (t.takeWhile isSpace) hnil,
        List.takeWhile_append_dropWhile]
      exact h
  rw [trimChars, (endsInSpace_eq_false_iff _).mp hdrop, List.takeWhile_append_dropWhile]

/-- The case in which the end of the text stays behind the characters that
were moved. -/
theorem open_end_iff {t : List Char} (hhead : t.head?.any isSpace = true)
    (hend : endsInSpace t = false) :
    (let q := t.filter (fun c => !isSpace c)
      if (t[q.length]?.map isSpace).getD false then q else q ++ t.drop q.length) = trimChars t ↔
    SolidCore t ∧ (trimChars t).length < (t.takeWhile isSpace).length := by
  have happ := trimChars_of_not_endsInSpace hend
  have hlen : (t.takeWhile isSpace).length + (trimChars t).length = t.length := by
    rw [← List.length_append, happ]
  have hat : ∀ k : Nat, t[k]? = (t.takeWhile isSpace ++ trimChars t)[k]? := fun k => by rw [happ]
  have hall : ∀ c ∈ t.takeWhile isSpace, isSpace c = true :=
    List.all_eq_true.mp List.all_takeWhile
  have hlead : 0 < (t.takeWhile isSpace).length := by
    cases t with
    | nil => cases hhead
    | cons c t =>
      have hc : isSpace c = true := hhead
      rw [List.takeWhile_cons_of_pos hc]
      exact Nat.succ_pos _
  -- with the old end the result is as long as the text, and trimming is shorter
  have hlong : t.filter (fun c => !isSpace c) ++ t.drop (t.filter (fun c => !isSpace c)).length ≠
      trimChars t := by
    intro h
    have hle := List.length_filter_le (fun c => !isSpace c) t
    have := congrArg List.length h
    rw [List.length_append, List.length_drop] at this
    omega
  dsimp only
  by_cases hsolid : SolidCore t
  · rw [(filter_eq_trimChars_iff t).mpr hsolid] at hlong ⊢
    by_cases hshort : (trimChars t).length < (t.takeWhile isSpace).length
    · have hspace : (t[(trimChars t).length]?.map isSpace).getD false = true := by
        rw [hat, List.getElem?_append_left hshort, List.getElem?_eq_getElem hshort]
        exact hall _ (List.getElem_mem hshort)
      rw [if_pos hspace]
      exact iff_of_true rfl ⟨hsolid, hshort⟩
    · have hsub : (trimChars t).length - (t.takeWhile isSpace).length < (trimChars t).length := by
        omega
      have hspace : (t[(trimChars t).length]?.map isSpace).getD false = false := by
        rw [hat, List.getElem?_append_right (Nat.not_lt.mp hshort), List.getElem?_eq_getElem hsub]
        exact hsolid _ (List.getElem_mem hsub)
      rw [if_neg (by rw [hspace]; exact Bool.false_ne_true)]
      exact iff_of_false hlong (fun h => hshort h.2)
  · refine iff_of_false ?_ (fun h => hsolid h.1)
    split
    · exact fun h => hsolid ((filter_eq_trimChars_iff t).mp h)
    · exact hlong

theorem clrwspaceChars_eq_iff (t : List Char) :
    clrwspaceChars t = trimChars t ↔ Trimmable t := by
  cases t with
  | nil => exact iff_of_true rfl (.inl ⟨rfl, rfl⟩)
  | cons c u =>
    rw [clrwspaceChars]
    cases hc : isSpace c with
    | false =>
      have hfirst : (c :: u).head?.any isSpace = false := hc
      have htrim : trimChars (c :: u) = (c :: u).rdropWhile isSpace := by
        rw [trimChars, List.dropWhile_cons_of_neg (by simp [hc])]
      rw [if_neg Bool.false_ne_true, htrim, eq_comm, ← endsInSpace_eq_false_iff]
      constructor
      · exact fun h => .inl ⟨hfirst, h⟩
      · rintro (h | h)
        · exact h.2
        · rw [hfirst] at h
          exact absurd h.1 Bool.false_ne_true
    | true =>
      have hfirst : (c :: u).head?.any isSpace = true := hc
      have hfilter : u.filter (fun c => !isSpace c) = (c :: u).filter (fun c => !isSpace c) := by
        rw [List.filter_cons_of_neg (by simp [hc])]
      have hcond : Trimmable (c :: u) ↔ SolidCore (c :: u) ∧ (endsInSpace (c :: u) = true ∨
          (trimChars (c :: u)).length < ((c :: u).takeWhile isSpace).length) := by
        simp only [Trimmable, hfirst, Bool.true_eq_false, false_and, true_and, false_or]
      rw [if_pos rfl, hfilter, hcond]
      cases hend : endsInSpace (c :: u) with
      | true =>
        rw [if_pos rfl, filter_eq_trimChars_iff]
        exact ⟨fun h => ⟨h, .inl rfl⟩, fun h => h.1⟩
      | false =>
        have hopen := open_end_iff hfirst hend
        simpa only [Bool.false_eq_true, if_false, false_or] using hopen

/-- For every text: `clrwspace` stays inside its buffer, and it gives the text
without the white space around it, if and only if the text is of this
kind. -/
theorem clrwspace_trims_iff (s : String) :
    clrwspaceChecked s = some (trim s) ↔ Trimmable s.toList := by
  have htrim : trim s = String.ofList (trimChars s.toList) := rfl
  rw [clrwspaceChecked_eq, clrwspace_eq, htrim, ← clrwspaceChars_eq_iff]
  constructor
  · intro h
    have hlist := congrArg String.toList (Option.some.inj h)
    rwa [String.toList_ofList, String.toList_ofList] at hlist
  · intro h
    rw [h]

/-- One blank in front of one letter: the letter comes back twice. -/
theorem clrwspace_doubles :
    clrwspaceChecked " a" = some "aa" ∧ clrwspaceChecked " a" ≠ some (trim " a") := by
  decide

end OfConfig.Proofs
