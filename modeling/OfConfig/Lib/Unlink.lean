import OfConfig.Lib.Rose

/-!
# `OfConfig.Lib.Unlink`: what is left when a tree is cut out of a forest

A pointer into a forest is a position, and `afterUnlink` says where it
points after a tree was cut out. The results about the nodes that are left:

* `label_afterUnlink`, `focus?_afterUnlink`, `focus?_unlink`: a node keeps its
  label and the labels above it, and every node that is left was there before.
* `afterUnlink_eq_none`, `afterUnlink_inside`, `afterUnlink_inj`: a pointer
  dangles exactly when it pointed into the tree, and two pointers never fall
  together.
* `pairwise_positions`: positions are listed with every node before the nodes
  below it.
* `unlink_cases`, `mem_unlink`: the trees that are left.
-/

set_option autoImplicit false

namespace OfConfig.Lib

variable {i : Nat} {l l' r : Loc}

namespace Rose

variable {α β : Type}

/-! ### Labels after a tree was cut out -/

theorem get?_cons_cons {F : Forest α} {j : Nat} {u : Rose α} (h : F[i]? = some u) :
    get? F (i :: j :: l) = get? u.children (j :: l) := by
  simp only [get?, h, getIn]

theorem get?_one {F : Forest α} : get? F [i] = F[i]? := by
  simp only [get?, getIn]
  cases F[i]? <;> rfl

/-- A node that did not go with the tree that was cut out keeps its
label. -/
theorem label_afterUnlink {F : Forest α} {t u : Rose α} (hr : get? F r = some t)
    (hl : get? F l = some u) (h : afterUnlink r l = some l') :
    ∃ u', get? (unlink r F) l' = some u' ∧ u'.label = u.label := by
  revert l l' u
  refine get_induct (motive := fun F r => ∀ {l l' u}, get? F l = some u →
    afterUnlink r l = some l' → ∃ u', get? (unlink r F) l' = some u' ∧ u'.label = u.label) ?_ ?_ hr
  · intro F i hi l l' u hl h
    have hlen : (F.take i).length = i := by
      obtain ⟨hlt, -⟩ := List.getElem?_eq_some_iff.mp hi
      rw [List.length_take]
      omega
    rw [unlink, modify_one _ hi]
    cases l with
    | nil => simp [get?] at hl
    | cons j l =>
      refine ⟨u, ?_, rfl⟩
      simp only [afterUnlink] at h
      split at h
      · simp at h
      · split at h
        · next hne hlt =>
            obtain rfl : (j - 1) :: l = l' := by simpa using h
            simp only [get?, List.append_nil] at hl ⊢
            have hj : (F.take i ++ F.drop (i + 1))[j - 1]? = F[j]? := by
              rw [List.getElem?_append_right (by omega), hlen, List.getElem?_drop]
              congr 1
              omega
            rw [hj]
            exact hl
        · next hne hlt =>
            obtain rfl : j :: l = l' := by simpa using h
            simp only [get?, List.append_nil] at hl ⊢
            have hj : (F.take i ++ F.drop (i + 1))[j]? = F[j]? := by
              rw [List.getElem?_append_left (by omega), List.getElem?_take_of_lt (by omega)]
            rw [hj]
            exact hl
  · intro F i v j r hv ih l l' u hl h
    rw [unlink, modify_down _ j r hv]
    cases l with
    | nil => simp [get?] at hl
    | cons k l =>
      simp only [afterUnlink] at h
      split at h
      · next hik =>
          subst hik
          obtain ⟨m, hm, rfl⟩ := Option.map_eq_some_iff.mp h
          obtain ⟨hlt, -⟩ := List.getElem?_eq_some_iff.mp hv
          have hset : (F.set i (node v.label (modify (fun _ => []) (j :: r) v.children)))[i]? =
              some (node v.label (modify (fun _ => []) (j :: r) v.children)) := by
            simp [hlt]
          cases l with
          | nil =>
            obtain rfl : [] = m := by simpa [afterUnlink] using hm
            rw [get?_one] at hl ⊢
            obtain rfl : v = u := by simpa using hv.symm.trans hl
            exact ⟨_, hset, rfl⟩
          | cons k' l =>
            rw [get?_cons_cons hv] at hl
            obtain ⟨u', hu', hlab⟩ := ih hl hm
            cases m with
            | nil => simp [get?] at hu'
            | cons m1 m =>
              rw [get?_cons_cons hset]
              exact ⟨u', hu', hlab⟩
      · next hik =>
          obtain rfl : k :: l = l' := by simpa using h
          refine ⟨u, ?_, rfl⟩
          simp only [get?] at hl ⊢
          rwa [List.getElem?_set_ne hik]

/-! ### Paths after a tree was cut out -/

/-- The labels on the way down to a position, from the top. -/
def labelsTo : Forest α → Loc → Option (List α)
  | _, [] => some []
  | F, i :: l =>
    match F[i]? with
    | none => none
    | some t => (labelsTo t.children l).map (t.label :: ·)

theorem labelsTo_cons {F : Forest α} {u : Rose α} (hu : F[i]? = some u) (l : Loc) :
    labelsTo F (i :: l) = (labelsTo u.children l).map (u.label :: ·) := by
  simp only [labelsTo, hu]

/-- The labels of a node in its context, from the node to the top. -/
def path (t : Rose α) (ctx : List (Frame α)) : List α := t.label :: ctx.map Frame.label

theorem map_label_ancestors (t : Rose α) (ctx : List (Frame α)) :
    (ancestors t ctx).map label = ctx.map Frame.label := by
  induction ctx generalizing t with
  | nil => rfl
  | cons f ctx ih =>
    rw [ancestors_cons, chain_eq, List.map_cons, ih, List.map_cons, Frame.label_plug]

theorem map_label_chain (t : Rose α) (ctx : List (Frame α)) :
    (chain t ctx).map label = path t ctx := by
  rw [chain_eq, List.map_cons, map_label_ancestors, path]

theorem labelsTo_of_focusIn {t u : Rose α} {ctx c : List (Frame α)}
    (h : focusIn t ctx l = some (u, c)) :
    ∃ ls, labelsTo t.children l = some ls ∧ path u c = ls.reverse ++ path t ctx := by
  induction l generalizing t ctx with
  | nil =>
    obtain ⟨rfl, rfl⟩ : t = u ∧ ctx = c := by simpa [focusIn] using h
    exact ⟨[], rfl, rfl⟩
  | cons i l ih =>
    simp only [focusIn] at h
    split at h
    · simp at h
    · next d hd =>
        obtain ⟨ls, hls, hpath⟩ := ih h
        refine ⟨d.label :: ls, by simp only [labelsTo, hd, hls, Option.map_some], ?_⟩
        rw [hpath]
        simp [path]

/-- The path to a node, from the node to the top, and from the top to the
node. -/
theorem labelsTo_of_focus? {F : Forest α} {u : Rose α} {c : List (Frame α)}
    (h : focus? F l = some (u, c)) : labelsTo F l = some (path u c).reverse := by
  cases l with
  | nil => simp [focus?] at h
  | cons i l =>
    simp only [focus?] at h
    split at h
    · simp at h
    · next t ht =>
        obtain ⟨ls, hls, hpath⟩ := labelsTo_of_focusIn h
        simp only [labelsTo, ht, hls, hpath]
        simp [path]

theorem exists_focusIn_of_labelsTo {t : Rose α} {ls : List α} (h : labelsTo t.children l = some ls)
    (ctx : List (Frame α)) : ∃ u c, focusIn t ctx l = some (u, c) := by
  induction l generalizing t ctx ls with
  | nil => exact ⟨t, ctx, rfl⟩
  | cons i l ih =>
    simp only [labelsTo] at h
    split at h
    · simp at h
    · next d hd =>
        obtain ⟨ms, hms, -⟩ := Option.map_eq_some_iff.mp h
        simp only [focusIn, hd]
        exact ih hms _

theorem exists_focus?_of_labelsTo {F : Forest α} {ls : List α} (hl : l ≠ [])
    (h : labelsTo F l = some ls) : ∃ u c, focus? F l = some (u, c) ∧ path u c = ls.reverse := by
  cases l with
  | nil => exact absurd rfl hl
  | cons i l =>
    have hls := h
    simp only [labelsTo] at h
    split at h
    · simp at h
    · next t ht =>
        obtain ⟨ms, hms, -⟩ := Option.map_eq_some_iff.mp h
        obtain ⟨u, c, hu⟩ := exists_focusIn_of_labelsTo hms []
        have hfoc : focus? F (i :: l) = some (u, c) := by simp only [focus?, ht, hu]
        refine ⟨u, c, hfoc, ?_⟩
        have hrev := (labelsTo_of_focus? hfoc).symm.trans hls
        rw [← Option.some.inj hrev, List.reverse_reverse]

/-- Every way down that is left was there before, with the same labels. -/
theorem labelsTo_unlink {F : Forest α} {t : Rose α} (hr : get? F r = some t) :
    ∀ {l' : Loc} {ls : List α}, labelsTo (unlink r F) l' = some ls →
      ∃ l, afterUnlink r l = some l' ∧ labelsTo F l = some ls := by
  refine get_induct (motive := fun F r => ∀ {l' : Loc} {ls : List α},
    labelsTo (unlink r F) l' = some ls →
      ∃ l, afterUnlink r l = some l' ∧ labelsTo F l = some ls) ?_ ?_ hr
  · intro F i hi l' ls h
    obtain ⟨hlt, -⟩ := List.getElem?_eq_some_iff.mp hi
    have hlen : (F.take i).length = i := by
      rw [List.length_take]
      omega
    rw [unlink, modify_one _ hi, List.append_nil] at h
    cases l' with
    | nil => exact ⟨[], rfl, h⟩
    | cons j l' =>
      by_cases hj : j < i
      · refine ⟨j :: l', ?_, ?_⟩
        · simp only [afterUnlink]
          rw [if_neg (by omega), if_neg (by omega)]
        · simp only [labelsTo] at h ⊢
          rwa [List.getElem?_append_left (by omega), List.getElem?_take_of_lt hj] at h
      · refine ⟨(j + 1) :: l', ?_, ?_⟩
        · simp only [afterUnlink]
          rw [if_neg (by omega), if_pos (by omega), Nat.add_sub_cancel]
        · simp only [labelsTo] at h ⊢
          rw [List.getElem?_append_right (by omega), hlen, List.getElem?_drop] at h
          rwa [show i + 1 + (j - i) = j + 1 by omega] at h
  · intro F i v j r hv ih l' ls h
    obtain ⟨hlt, -⟩ := List.getElem?_eq_some_iff.mp hv
    rw [unlink, modify_down _ j r hv] at h
    cases l' with
    | nil => exact ⟨[], rfl, h⟩
    | cons k l' =>
      by_cases hik : i = k
      · subst hik
        simp only [labelsTo, List.getElem?_set_self hlt, label_node, children_node] at h
        obtain ⟨ms, hms, rfl⟩ := Option.map_eq_some_iff.mp h
        obtain ⟨l, hl, hlab⟩ := ih hms
        refine ⟨i :: l, ?_, ?_⟩
        · simp only [afterUnlink, if_true, hl, Option.map_some]
        · simp only [labelsTo, hv, hlab, Option.map_some]
      · refine ⟨k :: l', ?_, ?_⟩
        · simp only [afterUnlink, if_neg hik]
        · simp only [labelsTo] at h ⊢
          rwa [List.getElem?_set_ne hik] at h

/-- Every node that is left was there before, on a path with the same
labels. -/
theorem focus?_unlink {F : Forest α} {t : Rose α} (hr : get? F r = some t) {u' : Rose α}
    {c' : List (Frame α)} (h : focus? (unlink r F) l' = some (u', c')) :
    ∃ l u c, focus? F l = some (u, c) ∧ afterUnlink r l = some l' ∧ path u c = path u' c' := by
  obtain ⟨l, hl, hlab⟩ := labelsTo_unlink hr (labelsTo_of_focus? h)
  have hne : l ≠ [] := by
    rintro rfl
    have hlen := length_of_focus? h
    have hlen' := length_afterUnlink hl
    rw [List.length_nil] at hlen'
    omega
  obtain ⟨u, c, hu, hpath⟩ := exists_focus?_of_labelsTo hne hlab
  exact ⟨l, u, c, hu, hl, by rw [hpath, List.reverse_reverse]⟩

/-- A way down that is left has the labels it had before. -/
theorem labelsTo_afterUnlink {F : Forest α} {t : Rose α} (hr : get? F r = some t) :
    ∀ {l l' : Loc} {ls : List α}, labelsTo F l = some ls → afterUnlink r l = some l' →
      labelsTo (unlink r F) l' = some ls := by
  refine get_induct (motive := fun F r => ∀ {l l' : Loc} {ls : List α},
    labelsTo F l = some ls → afterUnlink r l = some l' →
      labelsTo (unlink r F) l' = some ls) ?_ ?_ hr
  · intro F i hi l l' ls hls h
    obtain ⟨hlt, -⟩ := List.getElem?_eq_some_iff.mp hi
    have hlen : (F.take i).length = i := by
      rw [List.length_take]
      omega
    rw [unlink, modify_one _ hi, List.append_nil]
    cases l with
    | nil =>
      cases h
      exact hls
    | cons j l =>
      simp only [afterUnlink] at h
      split at h
      · simp at h
      · next hne =>
          split at h
          · next hij =>
              cases h
              simp only [labelsTo] at hls ⊢
              rw [List.getElem?_append_right (by omega), hlen, List.getElem?_drop]
              rwa [show i + 1 + (j - 1 - i) = j by omega]
          · next hij =>
              cases h
              simp only [labelsTo] at hls ⊢
              rwa [List.getElem?_append_left (by omega), List.getElem?_take_of_lt (by omega)]
  · intro F i v j r hv ih l l' ls hls h
    obtain ⟨hlt, -⟩ := List.getElem?_eq_some_iff.mp hv
    rw [unlink, modify_down _ j r hv]
    cases l with
    | nil =>
      cases h
      exact hls
    | cons k l =>
      simp only [afterUnlink] at h
      split at h
      · next hik =>
          subst hik
          obtain ⟨m, hm, rfl⟩ := Option.map_eq_some_iff.mp h
          simp only [labelsTo, hv] at hls
          obtain ⟨ms, hms, rfl⟩ := Option.map_eq_some_iff.mp hls
          simp only [labelsTo, List.getElem?_set_self hlt, label_node, children_node]
          rw [show labelsTo (modify (fun _ => []) (j :: r) v.children) m = some ms from ih hms hm]
          rfl
      · next hik =>
          cases h
          simp only [labelsTo] at hls ⊢
          rwa [List.getElem?_set_ne hik]

/-- A node that is left is on a path with the labels it had before. -/
theorem focus?_afterUnlink {F : Forest α} {t u : Rose α} {c : List (Frame α)}
    (hr : get? F r = some t) (hl : focus? F l = some (u, c)) (h : afterUnlink r l = some l') :
    ∃ u' c', focus? (unlink r F) l' = some (u', c') ∧ path u' c' = path u c := by
  have hne : l' ≠ [] := by
    rintro rfl
    have hlen := length_of_focus? hl
    have hlen' := length_afterUnlink h
    rw [List.length_nil] at hlen'
    omega
  obtain ⟨u', c', hu', hpath⟩ :=
    exists_focus?_of_labelsTo hne (labelsTo_afterUnlink hr (labelsTo_of_focus? hl) h)
  exact ⟨u', c', hu', by rw [hpath, List.reverse_reverse]⟩

/-! ### Dangling pointers -/

/-- Only a pointer into the tree that was cut out dangles. -/
theorem afterUnlink_eq_none (h : afterUnlink r l = none) : ∃ rest, l = r ++ rest := by
  induction r generalizing l with
  | nil => simp [afterUnlink] at h
  | cons i r ih =>
    cases l with
    | nil => cases r <;> simp [afterUnlink] at h
    | cons j l =>
      cases r with
      | nil =>
        simp only [afterUnlink] at h
        split at h
        · next hij => exact ⟨l, by simp [hij]⟩
        · split at h <;> simp at h
      | cons k r =>
        simp only [afterUnlink] at h
        split at h
        · next hij =>
            obtain ⟨rest, hrest⟩ := ih (Option.map_eq_none_iff.mp h)
            exact ⟨rest, by rw [hij, hrest]; rfl⟩
        · simp at h

/-- A pointer into the tree that was cut out dangles. -/
theorem afterUnlink_inside (hr : r ≠ []) (rest : Loc) : afterUnlink r (r ++ rest) = none := by
  induction r with
  | nil => exact absurd rfl hr
  | cons i r ih =>
    cases r with
    | nil => simp [afterUnlink]
    | cons k r =>
      simp only [List.cons_append, afterUnlink, if_true, Option.map_eq_none_iff]
      exact ih (by simp)

/-- A pointer below one that is left dangles, or is still below it. -/
theorem afterUnlink_append (h : afterUnlink r l = some l') (rest : Loc) :
    afterUnlink r (l ++ rest) = none ∨ ∃ rest', afterUnlink r (l ++ rest) = some (l' ++ rest') := by
  induction r generalizing l l' with
  | nil =>
    obtain rfl : l = l' := by simpa [afterUnlink] using h
    exact .inr ⟨rest, by simp [afterUnlink]⟩
  | cons i r ih =>
    cases l with
    | nil =>
      obtain rfl : [] = l' := by cases r <;> simpa [afterUnlink] using h
      cases hafter : afterUnlink (i :: r) ([] ++ rest) with
      | none => exact .inl rfl
      | some m => exact .inr ⟨m, rfl⟩
    | cons j l =>
      cases r with
      | nil =>
        simp only [List.cons_append, afterUnlink] at h ⊢
        by_cases hij : i = j
        · simp [hij] at h
        · rw [if_neg hij] at h ⊢
          refine .inr ⟨rest, ?_⟩
          split at h <;> cases h <;> simp [*]
      | cons k r =>
        simp only [List.cons_append, afterUnlink] at h ⊢
        by_cases hij : i = j
        · rw [if_pos hij] at h ⊢
          obtain ⟨m, hm, rfl⟩ := Option.map_eq_some_iff.mp h
          rcases ih hm with hnone | ⟨rest', hsome⟩
          · exact .inl (by rw [hnone]; rfl)
          · exact .inr ⟨rest', by rw [hsome]; rfl⟩
        · rw [if_neg hij] at h ⊢
          cases h
          exact .inr ⟨rest, rfl⟩

/-- Two pointers that are left never fall together. -/
theorem afterUnlink_inj {a b x : Loc} (ha : afterUnlink r a = some x)
    (hb : afterUnlink r b = some x) : a = b := by
  induction r generalizing a b x with
  | nil =>
    obtain rfl : a = x := by simpa [afterUnlink] using ha
    simpa [afterUnlink] using hb.symm
  | cons i r ih =>
    have hlen := (length_afterUnlink ha).symm.trans (length_afterUnlink hb)
    cases a with
    | nil => exact (List.length_eq_zero_iff.mp hlen.symm).symm
    | cons j a =>
      cases b with
      | nil => simp at hlen
      | cons k b =>
        cases r with
        | nil =>
          simp only [afterUnlink] at ha hb
          split at ha
          · simp at ha
          · split at hb
            · simp at hb
            · split at ha <;> split at hb <;> cases ha <;>
                simp only [Option.some.injEq, List.cons.injEq] at hb ⊢ <;>
                exact ⟨by omega, hb.2.symm⟩
        | cons m r =>
          simp only [afterUnlink] at ha hb
          split at ha
          · next hij =>
              obtain ⟨a', ha', rfl⟩ := Option.map_eq_some_iff.mp ha
              split at hb
              · next hik =>
                  obtain ⟨b', hb', hcons⟩ := Option.map_eq_some_iff.mp hb
                  obtain ⟨-, rfl⟩ := List.cons_eq_cons.mp hcons
                  rw [← hij, ← hik, ih ha' hb']
              · next hik =>
                  simp only [Option.some.injEq, List.cons.injEq] at hb
                  exact absurd (hij.trans hb.1.symm) hik
          · next hij =>
              cases ha
              split at hb
              · next hik =>
                  obtain ⟨b', hb', hcons⟩ := Option.map_eq_some_iff.mp hb
                  exact absurd (hik.trans (List.cons_eq_cons.mp hcons).1) hij
              · simpa using hb.symm

theorem labelsTo_append {F : Forest α} {rest : Loc} {ls : List α}
    (h : labelsTo F (l ++ rest) = some ls) :
    ∃ a b, labelsTo F l = some a ∧ ls = a ++ b ∧ b.length = rest.length := by
  induction l generalizing F ls with
  | nil =>
    refine ⟨[], ls, rfl, rfl, ?_⟩
    rw [List.nil_append] at h
    induction rest generalizing F ls with
    | nil =>
      obtain rfl : [] = ls := by simpa [labelsTo] using h
      rfl
    | cons i rest ih =>
      simp only [labelsTo] at h
      split at h
      · simp at h
      · obtain ⟨ms, hms, rfl⟩ := Option.map_eq_some_iff.mp h
        simp [ih hms]
  | cons i l ih =>
    simp only [List.cons_append, labelsTo] at h ⊢
    split at h
    · simp at h
    · next t ht =>
        obtain ⟨ms, hms, rfl⟩ := Option.map_eq_some_iff.mp h
        obtain ⟨a, b, ha, rfl, hb⟩ := ih hms
        exact ⟨t.label :: a, b, by simp [ha], rfl, hb⟩

/-- A node below another one has its label, and the labels above it, on
its path. -/
theorem path_append {F : Forest α} {rest : Loc} {t u : Rose α} {ctx c : List (Frame α)}
    (hl : focus? F l = some (t, ctx)) (h : focus? F (l ++ rest) = some (u, c)) :
    ∃ inner, inner.length = rest.length ∧ path u c = inner ++ path t ctx := by
  obtain ⟨a, b, ha, heq, hlen⟩ := labelsTo_append (labelsTo_of_focus? h)
  have hpath : a = (path t ctx).reverse := by
    simpa using ha.symm.trans (labelsTo_of_focus? hl)
  refine ⟨b.reverse, by simpa using hlen, ?_⟩
  rw [← List.reverse_reverse (path u c), heq, hpath]
  simp

/-- A node above another one is at a position above it. -/
theorem focus?_of_path {F : Forest α} {u : Rose α} {c : List (Frame α)} {inner outer : List α}
    {y : α} (h : focus? F l = some (u, c)) (hp : path u c = inner ++ y :: outer) :
    ∃ l' rest t c', l = l' ++ rest ∧ rest.length = inner.length ∧
      focus? F l' = some (t, c') ∧ path t c' = y :: outer := by
  have hlen : l.length = inner.length + (outer.length + 1) := by
    have hlen := congrArg List.length hp
    rw [← length_of_focus? h]
    simpa [path] using hlen
  have hlab := labelsTo_of_focus? h
  rw [← List.take_append_drop (outer.length + 1) l] at hlab
  obtain ⟨a, b, ha, heq, hb⟩ := labelsTo_append hlab
  have hdrop : (l.drop (outer.length + 1)).length = inner.length := by
    rw [List.length_drop]
    omega
  obtain ⟨rfl, -⟩ : a = (y :: outer).reverse ∧ b = inner.reverse := by
    rw [hp, List.reverse_append] at heq
    refine List.append_inj' heq.symm ?_
    rw [hb, hdrop, List.length_reverse]
  have hne : l.take (outer.length + 1) ≠ [] := by
    rw [← List.length_pos_iff, List.length_take]
    omega
  obtain ⟨t, c', ht, hpath⟩ := exists_focus?_of_labelsTo hne ha
  exact ⟨_, _, t, c', (List.take_append_drop _ l).symm, hdrop, ht,
    by rw [hpath, List.reverse_reverse]⟩

/-- Positions are listed from the top: none is listed after one below it. -/
theorem pairwise_positionsFrom {F : Forest α}
    (ih : ∀ t ∈ F, ((positionsIn t).map Prod.fst).Pairwise (fun a b => ¬ b <+: a)) (i : Nat) :
    ((positionsFrom i F).map Prod.fst).Pairwise (fun a b => ¬ b <+: a) := by
  induction F generalizing i with
  | nil => simp [positionsFrom]
  | cons t F ihF =>
    rw [positionsFrom, List.map_append, List.map_map, List.pairwise_append]
    refine ⟨?_, ihF (fun t' ht' => ih t' (List.mem_cons_of_mem _ ht')) (i + 1), ?_⟩
    · have hmap : (positionsIn t).map (Prod.fst ∘ fun p => (i :: p.1, p.2)) =
          ((positionsIn t).map Prod.fst).map (i :: ·) := by simp
      rw [hmap]
      exact List.pairwise_map.mpr
        ((ih t (by simp)).imp (fun hnot hpre => hnot (List.cons_prefix_cons.mp hpre).2))
    · intro a ha b hb hpre
      obtain ⟨p, -, rfl⟩ := List.mem_map.mp ha
      obtain ⟨⟨l, u⟩, hmem, rfl⟩ := List.mem_map.mp hb
      obtain ⟨j, l', t', rfl, -, -⟩ :=
        (mem_positionsFrom_of (fun t _ => mem_positionsIn t) (i + 1) l u).mp hmem
      have hhead := (List.cons_prefix_cons.mp hpre).1
      omega

theorem pairwise_positionsIn (t : Rose α) :
    ((positionsIn t).map Prod.fst).Pairwise (fun a b => ¬ b <+: a) := by
  induction t using Rose.induct with
  | h a cs ih =>
    rw [positionsIn, List.map_cons, List.pairwise_cons]
    refine ⟨?_, pairwise_positionsFrom ih 0⟩
    intro b hb hpre
    obtain ⟨⟨l, u⟩, hlu, rfl⟩ := List.mem_map.mp hb
    obtain ⟨j, l', t', rfl, -, -⟩ :=
      (mem_positionsFrom_of (fun t _ => mem_positionsIn t) 0 l u).mp hlu
    simp at hpre

theorem pairwise_positions (F : Forest α) :
    ((positions F).map Prod.fst).Pairwise (fun a b => ¬ b <+: a) :=
  pairwise_positionsFrom (fun t _ => pairwise_positionsIn t) 0

/-- The positions of a forest are listed once each. -/
theorem nodup_positions (F : Forest α) : ((positions F).map Prod.fst).Nodup := by
  refine (pairwise_positions F).imp ?_
  rintro a _ hnot rfl
  exact hnot (List.prefix_refl a)

/-! ### A property of all subtrees -/

/-- All subtrees of a tree, itself included, have the property. -/
inductive Every (P : Rose α → Prop) : Rose α → Prop where
  | node {a : α} {cs : Forest α} (h : P (node a cs)) (hcs : ∀ c ∈ cs, Every P c) :
      Every P (node a cs)

theorem Every.self {P : Rose α → Prop} {t : Rose α} (h : Every P t) : P t := by
  cases h with
  | node h hcs => exact h

theorem Every.children {P : Rose α → Prop} {t : Rose α} (h : Every P t) :
    ∀ c ∈ t.children, Every P c := by
  cases h with
  | node h hcs => exact hcs

/-- A tree is cut out of a forest: it is one of the top trees, or it is cut out of
the children of one of them. -/
theorem unlink_cases {F : Forest α} {t : Rose α} (hl : get? F l = some t) :
    (∃ pre post, F = pre ++ t :: post ∧ l = [pre.length] ∧ unlink l F = pre ++ post) ∨
    ∃ pre u post l', F = pre ++ u :: post ∧ l = pre.length :: l' ∧ get? u.children l' = some t ∧
      unlink l F = pre ++ .node u.label (unlink l' u.children) :: post := by
  have hlen : ∀ {i : Nat} {u : Rose α}, F[i]? = some u → (F.take i).length = i := by
    intro i u hi
    obtain ⟨hlt, -⟩ := List.getElem?_eq_some_iff.mp hi
    rw [List.length_take]
    omega
  cases l with
  | nil => simp [get?] at hl
  | cons i l =>
    cases hu : F[i]? with
    | none => simp [get?, hu] at hl
    | some u =>
      have hF := (take_append_drop_of_getElem? hu).symm
      cases l with
      | nil =>
        obtain rfl : u = t := by simpa [get?_one, hu] using hl
        refine .inl ⟨F.take i, F.drop (i + 1), hF, by rw [hlen hu], ?_⟩
        rw [unlink, modify_one _ hu, List.append_nil]
      | cons j l =>
        rw [get?_cons_cons hu] at hl
        refine .inr ⟨F.take i, u, F.drop (i + 1), j :: l, hF, by rw [hlen hu], hl, ?_⟩
        rw [unlink, modify_down _ j l hu, set_eq_of_getElem? _ hu]
        rfl

/-- Cutting a tree out leaves the other trees of the forest, and of the
one it was in what is left of it. -/
theorem mem_unlink {F : Forest α} {t c : Rose α} (hl : get? F l = some t) (hc : c ∈ unlink l F) :
    c ∈ F ∨ ∃ v ∈ F, ∃ l', get? v.children l' = some t ∧
      c = .node v.label (unlink l' v.children) := by
  cases l with
  | nil => simp [get?] at hl
  | cons i l =>
    cases hv : F[i]? with
    | none => simp [get?, hv] at hl
    | some v =>
      cases l with
      | nil =>
        rw [unlink, modify_one _ hv, List.append_nil] at hc
        rcases List.mem_append.mp hc with h | h
        · exact .inl (List.mem_of_mem_take h)
        · exact .inl (List.mem_of_mem_drop h)
      | cons j r =>
        rw [unlink, modify_down _ j r hv] at hc
        rw [get?_cons_cons hv] at hl
        rcases List.mem_or_eq_of_mem_set hc with h | h
        · exact .inl h
        · exact .inr ⟨v, List.mem_of_getElem? hv, j :: r, hl, h⟩

/-- No label is new after a tree was cut out. -/
theorem label_mem_unlink {F : Forest α} {t c : Rose α} (hl : get? F l = some t)
    (hc : c ∈ unlink l F) : ∃ v ∈ F, v.label = c.label := by
  rcases mem_unlink hl hc with h | ⟨v, hv, l', -, rfl⟩
  · exact ⟨c, h, rfl⟩
  · exact ⟨v, hv, rfl⟩

/-- A change further down leaves the labels at the top as they are. -/
theorem map_label_modify (g : Rose α → Forest α) (hl : 2 ≤ l.length) (F : Forest α) :
    (modify g l F).map label = F.map label := by
  rcases l with _ | ⟨i, _ | ⟨j, l⟩⟩
  · simp at hl
  · simp at hl
  · cases hi : F[i]? with
    | none =>
      rw [modify]
      simp only [hi]
    | some t =>
      rw [modify_down g j l hi, set_eq_of_getElem? _ hi]
      conv => rhs; rw [← take_append_drop_of_getElem? hi]
      simp

/-- A property of all labels survives a change at a position if the change
brings no other labels. -/
theorem every_modify {P : α → Prop} {g : Rose α → Forest α}
    (hg : ∀ t, Every (fun t => P t.label) t → ∀ c ∈ g t, Every (fun t => P t.label) c) (l : Loc)
    {F : Forest α} (h : ∀ c ∈ F, Every (fun t => P t.label) c) :
    ∀ c ∈ modify g l F, Every (fun t => P t.label) c := by
  induction l generalizing F with
  | nil => simpa [modify] using h
  | cons i l ih =>
    cases hi : F[i]? with
    | none =>
      have hsame : modify g (i :: l) F = F := by cases l <;> simp [modify, hi]
      rwa [hsame]
    | some t =>
      have ht := h t (List.mem_of_getElem? hi)
      intro c hc
      cases l with
      | nil =>
        rw [modify_one g hi] at hc
        rcases List.mem_append.mp hc with hc | hc
        · rcases List.mem_append.mp hc with hc | hc
          · exact h c (List.mem_of_mem_take hc)
          · exact hg t ht c hc
        · exact h c (List.mem_of_mem_drop hc)
      | cons j l =>
        rw [modify_down g j l hi] at hc
        rcases List.mem_or_eq_of_mem_set hc with hc | rfl
        · exact h c hc
        · exact .node ht.self (ih ht.children)

end Rose

end OfConfig.Lib
