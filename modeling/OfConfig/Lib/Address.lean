import Mathlib.Data.List.Induction
import Mathlib.Data.List.Pairwise
import OfConfig.Lib.Unlink

/-!
# `OfConfig.Lib.Address`: trees whose siblings are told apart

An `Addressing` gives a node an identity among its siblings. The identity may
look at the labels above the node and into the node itself, as that of a list
entry looks at its key. So a node is named by the identities on the way down to
it, and `ViewAt` says what a path leads to.

The condition on siblings (`Family`) that tells them apart has to hold
everywhere (`Families`). A change below a node may be seen from above, through
the identities. `Sim` is the difference that is not seen, and `Regrown` the
change of the children of one node:

* `Regrown.families`: the condition still holds everywhere.
* `Regrown.viewAt_inside`, `Regrown.viewAt_outside`: the paths through the
  node are those of its new children, and all others are as before.

`viewAt_unlink` and `viewAt_attach` are the two changes a document goes
through: a node is cut out, or one is added as the last child.
-/

set_option autoImplicit false

namespace OfConfig.Lib.Rose

variable {α ι β : Type}
variable {F ds : Forest α} {G : List α → Forest α → Prop} {c d t u : Rose α} {ctx : List (Frame α)}
  {i j : Nat} {k : ι} {l : Loc} {p q : List ι} {x : β}

/-! ### Conditions on siblings -/

/-- Every list of siblings meets the condition. The first argument of `F` are
the labels above the siblings, innermost first. -/
inductive Families (F : List α → Forest α → Prop) : List α → Forest α → Prop where
  | intro {anc : List α} {cs : Forest α} (here : F anc cs)
      (below : ∀ c ∈ cs, Families F (c.label :: anc) c.children) : Families F anc cs

section

variable {F : List α → Forest α → Prop} {anc : List α} {cs : Forest α}

theorem Families.here (h : Families F anc cs) : F anc cs := by
  cases h with
  | intro here _ => exact here

theorem Families.child (h : Families F anc cs) (hc : c ∈ cs) :
    Families F (c.label :: anc) c.children := by
  cases h with
  | intro _ below => exact below c hc

/-- The siblings below the node at a position. -/
theorem Families.focus {D : Forest α} (h : Families F [] D) (hf : focus? D l = some (t, ctx)) :
    Families F (path t ctx) t.children := by
  refine focus_induct (P := fun t ctx => Families F (path t ctx) t.children)
    (fun t ht => h.child ht) ?_ hf
  intro t ctx left c right hch ht
  exact ht.child (by rw [hch]; simp)

/-- A condition that follows from another one. -/
theorem Families.mono (hFG : ∀ anc cs, F anc cs → G anc cs) (h : Families F anc cs) :
    Families G anc cs := by
  induction h with
  | intro here _ ih => exact .intro (hFG _ _ here) ih

/-- Two conditions that both hold everywhere. -/
theorem Families.and (h : Families F anc cs) (h' : Families G anc cs) :
    Families (fun p ds => F p ds ∧ G p ds) anc cs := by
  induction h with
  | intro here below ih => exact .intro ⟨here, h'.here⟩ (fun c hc => ih c hc (h'.child hc))

/-- A list of siblings out of others. -/
theorem Families.of_subset (h : Families F anc cs) (hds : ∀ d ∈ ds, d ∈ cs) (hF : F anc ds) :
    Families F anc ds :=
  .intro hF (fun d hd => h.child (hds d hd))

theorem Families.append (h : Families F anc cs) (hc : Families F (c.label :: anc) c.children)
    (hF : F anc (cs ++ [c])) : Families F anc (cs ++ [c]) := by
  refine .intro hF (fun d hd => ?_)
  rcases List.mem_append.mp hd with hd | hd
  · exact h.child hd
  · obtain rfl := List.mem_singleton.mp hd
    exact hc

/-- The siblings below a node further down. The labels above them end with those
above the place where the way began, after the label of the first node on the way. -/
theorem Families.get (h : Families F anc cs) (hl : get? cs l = some t) :
    ∃ i u p, l.head? = some i ∧ cs[i]? = some u ∧ u.label :: anc <:+ t.label :: p ∧
      Families F (t.label :: p) t.children := by
  revert anc
  refine get_induct (motive := fun cs l => ∀ {anc}, Families F anc cs →
    ∃ i u p, l.head? = some i ∧ cs[i]? = some u ∧ u.label :: anc <:+ t.label :: p ∧
      Families F (t.label :: p) t.children) ?_ ?_ hl
  · intro cs i hi anc h
    exact ⟨i, t, anc, rfl, hi, List.suffix_refl _, h.child (List.mem_of_getElem? hi)⟩
  · intro cs i u j l hu ih anc h
    obtain ⟨k, v, p, -, -, hp, hfam⟩ := ih (h.child (List.mem_of_getElem? hu))
    exact ⟨i, u, p, rfl, hu, (List.suffix_cons v.label _).trans hp, hfam⟩

/-- The condition holds everywhere when a tree was cut out, if it still holds of
the siblings on the way to it. -/
theorem Families.unlink
    (hF : ∀ anc cs l, Families F anc cs → get? cs l = some t → F anc (unlink l cs))
    (h : Families F anc cs) (hl : get? cs l = some t) : Families F anc (unlink l cs) := by
  revert anc
  refine get_induct (motive := fun cs l => get? cs l = some t → ∀ {anc}, Families F anc cs →
    Families F anc (Rose.unlink l cs)) ?_ ?_ hl hl
  · intro cs i hi hl anc h
    refine h.of_subset (fun d hd => ?_) (hF anc cs [i] h hl)
    rw [Rose.unlink, modify_one _ hi, List.append_nil] at hd
    rcases List.mem_append.mp hd with hd | hd
    · exact List.mem_of_mem_take hd
    · exact List.mem_of_mem_drop hd
  · intro cs i u j l hu ih hl anc h
    refine .intro (hF anc cs _ h hl) (fun d hd => ?_)
    rw [get?_cons_cons hu] at hl
    rw [Rose.unlink, modify_down _ j l hu] at hd
    rcases List.mem_or_eq_of_mem_set hd with hd | rfl
    · exact h.child hd
    · exact ih hl (h.child (List.mem_of_getElem? hu))

/-- What holds of every node in its context holds of all siblings. -/
theorem Families.of_focus {D : Forest α} (htop : F [] D)
    (h : ∀ l t ctx, focus? D l = some (t, ctx) → F (path t ctx) t.children) :
    Families F [] D := by
  have below : ∀ t l ctx, focus? D l = some (t, ctx) → Families F (path t ctx) t.children := by
    intro t
    induction t using Rose.induct with
    | h a cs ih =>
      intro l ctx hf
      refine .intro (h l _ ctx hf) (fun c hc => ?_)
      obtain ⟨j, hj⟩ := List.mem_iff_getElem?.mp hc
      exact ih c hc _ _ (focus?_append hf hj)
  refine .intro htop (fun c hc => ?_)
  obtain ⟨i, hi⟩ := List.mem_iff_getElem?.mp hc
  exact below c [i] [] (by simp only [focus?, hi, focusIn])

/-- A condition that follows from another one below a place. -/
theorem Families.mono_below {base : List α}
    (hFG : ∀ p cs, base <:+ p → (p = base → cs = ds) → F p cs → G p cs) (h : Families F base ds) :
    Families G base ds := by
  have key : ∀ p cs, Families F p cs → base <:+ p → (p = base → cs = ds) → Families G p cs := by
    intro p cs h
    induction h with
    | @intro p cs here below ih =>
      intro hp hcs
      refine .intro (hFG p cs hp hcs here)
        (fun c hc => ih c hc (hp.trans (List.suffix_cons _ _)) ?_)
      rintro rfl
      have hlen := hp.length_le
      simp only [List.length_cons] at hlen
      omega
  exact key base ds h (List.suffix_refl _) (fun _ => rfl)

/-- A condition that reads of the labels above only what `f` shows of them. -/
theorem Families.congr {γ : Type} {f : α → γ}
    (hF : ∀ p q cs, p.map f = q.map f → F p cs → F q cs) (h : Families F anc cs) {anc' : List α}
    (hanc : anc.map f = anc'.map f) : Families F anc' cs := by
  induction h generalizing anc' with
  | intro here below ih =>
    refine .intro (hF _ _ _ hanc here) (fun c hc => ih c hc ?_)
    rw [List.map_cons, List.map_cons, hanc]

end

/-- Check the condition everywhere, down to a depth. -/
def checkFamilies (F : List α → Forest α → Prop) [∀ anc cs, Decidable (F anc cs)] :
    Nat → List α → Forest α → Bool
  | 0, _, _ => false
  | depth + 1, anc, cs =>
    decide (F anc cs) && cs.all fun c => checkFamilies F depth (c.label :: anc) c.children

theorem Families.of_check {F : List α → Forest α → Prop} [∀ anc cs, Decidable (F anc cs)]
    (depth : Nat) {anc : List α} {cs : Forest α} (h : checkFamilies F depth anc cs = true) :
    Families F anc cs := by
  induction depth generalizing anc cs with
  | zero => simp [checkFamilies] at h
  | succ depth ih =>
    obtain ⟨hhere, hbelow⟩ := Bool.and_eq_true_iff.mp h
    exact .intro (of_decide_eq_true hhere) fun c hc => ih (List.all_eq_true.mp hbelow c hc)

/-- The parent of a node that is not at the top. -/
theorem focus?_append_inv (hl : l ≠ []) (h : focus? F (l ++ [j]) = some (c, ctx)) :
    ∃ t ctx', focus? F l = some (t, ctx') ∧ t.children[j]? = some c ∧
      ctx = ⟨t.children.take j, t.label, t.children.drop (j + 1)⟩ :: ctx' := by
  cases l with
  | nil => exact absurd rfl hl
  | cons i l =>
    simp only [List.cons_append, focus?] at h ⊢
    cases hi : F[i]? with
    | none => simp [hi] at h
    | some u =>
      simp only [hi] at h ⊢
      rw [focusIn_append] at h
      cases hfoc : focusIn u [] l with
      | none => simp [hfoc] at h
      | some p =>
        obtain ⟨t, ctx'⟩ := p
        simp only [hfoc] at h
        cases hc : t.children[j]? with
        | none => simp [hc] at h
        | some d =>
          obtain ⟨rfl, rfl⟩ : d = c ∧ _ = ctx := by simpa [hc] using h
          exact ⟨t, ctx', rfl, hc, rfl⟩

/-- Induction on the way down to a position, from the top on. -/
theorem focus_induct_loc {P : Loc → Rose α → List (Frame α) → Prop}
    (top : ∀ i t, F[i]? = some t → P [i] t [])
    (down : ∀ l t ctx j c, focus? F l = some (t, ctx) → t.children[j]? = some c → P l t ctx →
      P (l ++ [j]) c (⟨t.children.take j, t.label, t.children.drop (j + 1)⟩ :: ctx))
    (h : focus? F l = some (u, ctx)) : P l u ctx := by
  induction l using List.reverseRecOn generalizing u ctx with
  | nil => simp [focus?] at h
  | append_singleton l j ih =>
    by_cases hl : l = []
    · subst hl
      simp only [List.nil_append, focus?] at h ⊢
      cases hj : F[j]? with
      | none => simp [hj] at h
      | some t =>
        obtain ⟨rfl, rfl⟩ : t = u ∧ [] = ctx := by simpa [hj, focusIn] using h
        exact top j t hj
    · obtain ⟨t, ctx', hf, hc, rfl⟩ := focus?_append_inv hl h
      exact down l t ctx' j u hf hc (ih hf)

/-! ### Identities -/

/-- Identities of nodes among their siblings. The first argument of `ident`,
`Family` and `Sim` are the labels above. -/
structure Addressing (α ι β : Type) where
  /-- The identity of a node, if it has one. -/
  ident : List α → Rose α → Option ι
  /-- The condition on siblings. -/
  Family : List α → Forest α → Prop
  /-- A tree and its replacement look the same from outside. -/
  Sim : List α → Rose α → Rose α → Prop
  tidy : ∀ {anc : List α} {cs : Forest α}, Family anc cs →
    cs.Pairwise (fun c d => ∀ k, ident anc c = some k → ident anc d ≠ some k)
  /-- What a path to a node shows of it. -/
  view : Rose α → β
  refl : ∀ (anc : List α) (t : Rose α), Sim anc t t
  label : ∀ {anc : List α} {c d : Rose α}, Sim anc c d → d.label = c.label
  seen : ∀ {anc : List α} {c d : Rose α}, Sim anc c d → view d = view c
  same : ∀ {anc : List α} {c d : Rose α}, Sim anc c d → ident anc d = ident anc c
  up : ∀ {anc : List α} {t c d : Rose α} {j : Nat}, t.children[j]? = some c →
    Sim (t.label :: anc) c d → Sim anc t (node t.label (t.children.set j d))
  keep : ∀ {anc : List α} {cs : Forest α} {c d : Rose α} {j : Nat}, cs[j]? = some c →
    Sim anc c d → Family anc cs → Family anc (cs.set j d)

namespace Addressing

variable (A : Addressing α ι β)

/-- The condition holds everywhere. -/
abbrev Proper (anc : List α) (cs : Forest α) : Prop := Families A.Family anc cs

/-- The identities on a path lead to a node that shows `x`. -/
def ViewAt : List α → Forest α → List ι → β → Prop
  | _, _, [], _ => False
  | anc, cs, k :: p, x => ∃ c ∈ cs, A.ident anc c = some k ∧
      (p = [] ∧ A.view c = x ∨ ViewAt (c.label :: anc) c.children p x)

/-- The identities on the way down to a position. -/
def idsTo : List α → Forest α → Loc → Option (List ι)
  | _, _, [] => some []
  | anc, cs, i :: l =>
    match cs[i]? with
    | none => none
    | some t =>
      match A.ident anc t with
      | none => none
      | some k => (idsTo (t.label :: anc) t.children l).map (k :: ·)

variable {A} {anc : List α} {cs : Forest α}

/-- The first step of a position. -/
theorem idsTo_cons :
    A.idsTo anc cs (i :: l) = some q ↔ ∃ t k r, cs[i]? = some t ∧ A.ident anc t = some k ∧
      A.idsTo (t.label :: anc) t.children l = some r ∧ q = k :: r := by
  rw [idsTo]
  cases cs[i]? with
  | none => simp
  | some t =>
    cases hk : A.ident anc t with
    | none => simp [hk]
    | some k => simp [hk, Option.map_eq_some_iff, eq_comm (a := q)]

theorem not_viewAt_nil : ¬ A.ViewAt anc cs [] x := by
  simp [ViewAt]

theorem not_viewAt_empty : ¬ A.ViewAt anc [] p x := by
  cases p with
  | nil => exact not_viewAt_nil
  | cons k p =>
    rintro ⟨c, hc, -⟩
    simp at hc

theorem viewAt_cons :
    A.ViewAt anc cs (k :: p) x ↔ ∃ c ∈ cs, A.ident anc c = some k ∧
      (p = [] ∧ A.view c = x ∨ A.ViewAt (c.label :: anc) c.children p x) := by
  rw [ViewAt]

/-- Siblings with one identity are one node. -/
theorem index_unique (h : A.Family anc cs) (hc : cs[i]? = some c) (hd : cs[j]? = some d)
    (hkc : A.ident anc c = some k) (hkd : A.ident anc d = some k) : i = j := by
  obtain ⟨hi, rfl⟩ := List.getElem?_eq_some_iff.mp hc
  obtain ⟨hj, rfl⟩ := List.getElem?_eq_some_iff.mp hd
  have hpair := List.pairwise_iff_getElem.mp (A.tidy h)
  rcases Nat.lt_trichotomy i j with hlt | heq | hgt
  · exact absurd hkd (hpair i j hi hj hlt k hkc)
  · exact heq
  · exact absurd hkc (hpair j i hj hi hgt k hkd)

theorem eq_of_ident (h : A.Family anc cs) (hc : c ∈ cs) (hd : d ∈ cs) (hkc : A.ident anc c = some k)
    (hkd : A.ident anc d = some k) : c = d := by
  obtain ⟨i, hi⟩ := List.mem_iff_getElem?.mp hc
  obtain ⟨j, hj⟩ := List.mem_iff_getElem?.mp hd
  obtain rfl := index_unique h hi hj hkc hkd
  exact Option.some.inj (hi.symm.trans hj)

/-- A path whose first step is known goes on below that node. -/
theorem viewAt_step (h : A.Family anc cs) (hc : c ∈ cs) (hk : A.ident anc c = some k) :
    A.ViewAt anc cs (k :: p) x ↔
      p = [] ∧ A.view c = x ∨ A.ViewAt (c.label :: anc) c.children p x := by
  rw [viewAt_cons]
  constructor
  · rintro ⟨d, hd, hkd, hrest⟩
    obtain rfl := eq_of_ident h hc hd hk hkd
    exact hrest
  · intro hrest
    exact ⟨c, hc, hk, hrest⟩

theorem viewAt_append :
    A.ViewAt anc (cs ++ ds) p x ↔ A.ViewAt anc cs p x ∨ A.ViewAt anc ds p x := by
  cases p with
  | nil => simp [ViewAt]
  | cons k p => simp only [viewAt_cons, List.mem_append, or_and_right, exists_or]

/-- Without one of the siblings the paths through it are gone. -/
theorem viewAt_eraseIdx (h : A.Family anc cs) (hc : cs[j]? = some c) (hk : A.ident anc c = some k) :
    A.ViewAt anc (cs.eraseIdx j) p x ↔ A.ViewAt anc cs p x ∧ ¬ [k] <+: p := by
  cases p with
  | nil => simp [ViewAt]
  | cons k' p =>
    simp only [viewAt_cons, List.prefix_cons_iff, List.mem_eraseIdx_iff_getElem?]
    constructor
    · rintro ⟨d, ⟨i, hne, hi⟩, hkd, hrest⟩
      refine ⟨⟨d, List.mem_of_getElem? hi, hkd, hrest⟩, ?_⟩
      rintro (h' | ⟨t, ht, -⟩)
      · simp at h'
      · obtain ⟨rfl, -⟩ := List.cons_eq_cons.mp ht
        exact hne (index_unique h hi hc hkd hk)
    · rintro ⟨⟨d, hd, hkd, hrest⟩, hnot⟩
      obtain ⟨i, hi⟩ := List.mem_iff_getElem?.mp hd
      refine ⟨d, ⟨i, ?_, hi⟩, hkd, hrest⟩
      rintro rfl
      obtain rfl := Option.some.inj (hi.symm.trans hc)
      obtain rfl := Option.some.inj (hk.symm.trans hkd)
      exact hnot (.inr ⟨[], rfl, List.nil_prefix⟩)

/-! ### A node with other children -/

/-- The last forest is the first one, with the children `new` below the node
`t` that the path leads to. The labels on the way to `t`, its own included, are
`ls`. -/
inductive Regrown (A : Addressing α ι β) (t : Rose α) (ls : List α) (new : Forest α) :
    List α → Forest α → List ι → Forest α → Prop where
  | here {anc : List α} {cs : Forest α} {i : Nat} {k : ι} (ht : cs[i]? = some t)
      (hk : A.ident anc t = some k) (hls : ls = t.label :: anc) :
      Regrown A t ls new anc cs [k] (cs.set i (node t.label new))
  | down {anc : List α} {cs : Forest α} {i : Nat} {u : Rose α} {k : ι} {q : List ι}
      {ds : Forest α} (hu : cs[i]? = some u) (hk : A.ident anc u = some k)
      (h : Regrown A t ls new (u.label :: anc) u.children q ds) :
      Regrown A t ls new anc cs (k :: q) (cs.set i (node u.label ds))

section

variable {t : Rose α} {ls : List α} {new : Forest α} {q : List ι} {ds : Forest α}

/-- Seen from outside, one tree was replaced by one that looks the same. -/
theorem Regrown.exists_set (h : Regrown A t ls new anc cs q ds)
    (hs : A.Sim ls.tail t (node t.label new)) :
    ∃ i u v, cs[i]? = some u ∧ ds = cs.set i v ∧ A.Sim anc u v := by
  induction h with
  | @here anc cs i k ht hk hls =>
    rw [hls, List.tail_cons] at hs
    exact ⟨i, t, _, ht, rfl, hs⟩
  | @down anc cs i u k q ds hu hk _ ih =>
    obtain ⟨j, c, d, hc, rfl, hcd⟩ := ih
    exact ⟨i, u, _, hu, rfl, A.up hc hcd⟩

theorem proper_set (h : A.Proper anc cs) (hc : cs[i]? = some c) (hs : A.Sim anc c d)
    (hd : A.Proper (c.label :: anc) d.children) : A.Proper anc (cs.set i d) := by
  refine .intro (A.keep hc hs h.here) (fun e he => ?_)
  rcases List.mem_or_eq_of_mem_set he with he | rfl
  · exact h.child he
  · rwa [A.label hs]

theorem Regrown.sim_node (h : Regrown A t ls new (u.label :: anc) u.children q ds)
    (hs : A.Sim ls.tail t (node t.label new)) : A.Sim anc u (node u.label ds) := by
  obtain ⟨j, c, d, hc, rfl, hcd⟩ := h.exists_set hs
  exact A.up hc hcd

/-- The condition still holds everywhere. -/
theorem Regrown.families (h : Regrown A t ls new anc cs q ds)
    (hs : A.Sim ls.tail t (node t.label new)) (hcs : A.Proper anc cs) (hnew : A.Proper ls new) :
    A.Proper anc ds := by
  induction h with
  | @here anc cs i k ht hk hls =>
    rw [hls] at hnew hs
    exact proper_set hcs ht hs hnew
  | @down anc cs i u k q ds hu hk h ih =>
    exact proper_set hcs hu (h.sim_node hs) (ih (hcs.child (List.mem_of_getElem? hu)))

/-- The paths through the replacement of a tree. -/
theorem viewAt_set_same (h : A.Family anc cs) (hc : cs[i]? = some c) (hs : A.Sim anc c d)
    (hk : A.ident anc c = some k) :
    A.ViewAt anc (cs.set i d) (k :: p) x ↔
      p = [] ∧ A.view c = x ∨ A.ViewAt (c.label :: anc) d.children p x := by
  obtain ⟨hi, -⟩ := List.getElem?_eq_some_iff.mp hc
  rw [viewAt_step (A.keep hc hs h) (List.mem_set hi d) ((A.same hs).trans hk), A.label hs,
    A.seen hs]

/-- The other paths. -/
theorem viewAt_set_other {k' : ι} (hc : cs[i]? = some c) (hs : A.Sim anc c d)
    (hk : A.ident anc c = some k) (hne : k' ≠ k) :
    A.ViewAt anc (cs.set i d) (k' :: p) x ↔ A.ViewAt anc cs (k' :: p) x := by
  have hdiff : ∀ e, A.ident anc e = some k' → A.ident anc e ≠ some k := by
    intro e he he'
    exact hne (Option.some.inj (he.symm.trans he'))
  rw [viewAt_cons, viewAt_cons]
  refine exists_congr fun e => and_congr_left fun he => ?_
  constructor
  · intro hmem
    rcases List.mem_or_eq_of_mem_set hmem with hmem | rfl
    · exact hmem
    · exact absurd ((A.same hs).trans hk) (hdiff e he.1)
  · intro hmem
    obtain ⟨j, hj⟩ := List.mem_iff_getElem?.mp hmem
    have hij : i ≠ j := by
      rintro rfl
      obtain rfl := Option.some.inj (hc.symm.trans hj)
      exact hdiff c he.1 hk
    exact List.mem_of_getElem? ((List.getElem?_set_ne hij).trans hj)

/-- A path through the node goes on in its new children. -/
theorem Regrown.viewAt_inside (h : Regrown A t ls new anc cs q ds)
    (hs : A.Sim ls.tail t (node t.label new)) (hcs : A.Proper anc cs) {r : List ι} (hr : r ≠ []) :
    A.ViewAt anc ds (q ++ r) x ↔ A.ViewAt ls new r x := by
  induction h with
  | @here anc cs i k ht hk hls =>
    rw [hls] at hs ⊢
    rw [List.singleton_append, viewAt_set_same hcs.here ht hs hk]
    simp [hr]
  | @down anc cs i u k q ds hu hk h ih =>
    have hne : q ++ r ≠ [] := by simp [hr]
    rw [List.cons_append, viewAt_set_same hcs.here hu (h.sim_node hs) hk]
    simpa [hne] using ih (hcs.child (List.mem_of_getElem? hu))

/-- A path that does not go through the node is as before. -/
theorem Regrown.viewAt_outside (h : Regrown A t ls new anc cs q ds)
    (hs : A.Sim ls.tail t (node t.label new)) (hcs : A.Proper anc cs)
    (hp : ∀ r, r ≠ [] → p ≠ q ++ r) : A.ViewAt anc ds p x ↔ A.ViewAt anc cs p x := by
  induction h generalizing p with
  | @here anc cs i k ht hk hls =>
    rw [hls] at hs
    cases p with
    | nil => simp [ViewAt]
    | cons k' p =>
      by_cases hkk : k' = k
      · subst hkk
        -- the path ends at the node, which looks the same
        obtain rfl : p = [] := by
          by_contra hne
          exact hp p hne rfl
        rw [viewAt_set_same hcs.here ht hs hk,
          viewAt_step hcs.here (List.mem_of_getElem? ht) hk]
        simp [ViewAt]
      · exact viewAt_set_other ht hs hk hkk
  | @down anc cs i u k q ds hu hk h ih =>
    cases p with
    | nil => simp [ViewAt]
    | cons k' p =>
      by_cases hkk : k' = k
      · subst hkk
        rw [viewAt_set_same hcs.here hu (h.sim_node hs) hk,
          viewAt_step hcs.here (List.mem_of_getElem? hu) hk]
        refine or_congr_right (ih (hcs.child (List.mem_of_getElem? hu)) ?_)
        intro r hr heq
        exact hp r hr (by rw [heq, List.cons_append])
      · exact viewAt_set_other hu (h.sim_node hs) hk hkk

theorem set_self_of_getElem? (hc : cs[i]? = some c) : cs.set i c = cs := by
  rw [set_eq_of_getElem? c hc, take_append_drop_of_getElem? hc]

/-- With its own children the node stays as it is. -/
theorem Regrown.self (h : Regrown A t ls new anc cs q ds) :
    Regrown A t ls t.children anc cs q cs := by
  induction h with
  | @here anc cs i k ht hk hls =>
    have h : Regrown A t ls t.children anc cs [k] (cs.set i (node t.label t.children)) :=
      .here ht hk hls
    rwa [eta, set_self_of_getElem? ht] at h
  | @down anc cs i u k q ds hu hk _ ih =>
    have h := Regrown.down hu hk ih
    rwa [eta, set_self_of_getElem? hu] at h

/-- Below the node the paths are those of its children. -/
theorem Regrown.viewAt_children (h : Regrown A t ls new anc cs q ds) (hcs : A.Proper anc cs)
    {r : List ι} (hr : r ≠ []) : A.ViewAt anc cs (q ++ r) x ↔ A.ViewAt ls t.children r x :=
  h.self.viewAt_inside (by rw [eta]; exact A.refl _ t) hcs hr

end

/-! ### Positions -/

theorem modifyChildren_one (g : Forest α → Forest α) (h : F[i]? = some t) :
    modifyChildren g [i] F = F.set i (node t.label (g t.children)) := by
  rw [modifyChildren, modify_one _ h, set_eq_of_getElem? _ h, List.append_assoc]
  rfl

/-- Rewriting the children of the node at a position. -/
theorem regrown_of_idsTo {ls : List α} (hget : get? F l = some t) (hq : A.idsTo anc F l = some q)
    (hls : labelsTo F l = some ls) (g : Forest α → Forest α) :
    Regrown A t (ls.reverse ++ anc) (g t.children) anc F q (modifyChildren g l F) := by
  refine get_induct (t := t) (motive := fun F l => ∀ anc q ls, A.idsTo anc F l = some q →
      labelsTo F l = some ls →
      Regrown A t (ls.reverse ++ anc) (g t.children) anc F q (modifyChildren g l F))
    ?_ ?_ hget anc q ls hq hls
  · intro F i hi anc q ls hq hls
    obtain ⟨u, k, r, hu, hk, hr, rfl⟩ := idsTo_cons.mp hq
    obtain rfl := Option.some.inj (hi.symm.trans hu)
    obtain rfl : [] = r := Option.some.inj hr
    obtain rfl : [t.label] = ls := by simpa [labelsTo, hi] using hls
    rw [modifyChildren_one g hi]
    exact .here hi hk rfl
  · intro F i u j l hu ih anc q ls hq hls
    simp only [labelsTo, hu] at hls
    obtain ⟨ms, hms, rfl⟩ := Option.map_eq_some_iff.mp hls
    obtain ⟨v, k, r, hv, hk, hr, rfl⟩ := idsTo_cons.mp hq
    obtain rfl := Option.some.inj (hu.symm.trans hv)
    rw [List.reverse_cons, List.append_assoc, List.singleton_append, modifyChildren,
      modify_down _ j l hu]
    exact .down hu hk (ih (u.label :: anc) r ms hr hms)

theorem viewAt_of_idsTo (hget : get? F l = some t) (hq : A.idsTo anc F l = some q) :
    A.ViewAt anc F q (A.view t) := by
  refine get_induct (t := t) (motive := fun F l => ∀ anc q, A.idsTo anc F l = some q →
    A.ViewAt anc F q (A.view t)) ?_ ?_ hget anc q hq
  · intro F i hi anc q hq
    obtain ⟨u, k, r, hu, hk, hr, rfl⟩ := idsTo_cons.mp hq
    obtain rfl := Option.some.inj (hi.symm.trans hu)
    obtain rfl : [] = r := Option.some.inj hr
    exact ⟨t, List.mem_of_getElem? hi, hk, .inl ⟨rfl, rfl⟩⟩
  · intro F i u j l hu ih anc q hq
    obtain ⟨v, k, r, hv, hk, hr, rfl⟩ := idsTo_cons.mp hq
    obtain rfl := Option.some.inj (hu.symm.trans hv)
    exact ⟨u, List.mem_of_getElem? hu, hk, .inr (ih (u.label :: anc) r hr)⟩

/-- One step further down. -/
theorem idsTo_append {ls : List α} (hget : get? F l = some t) (hq : A.idsTo anc F l = some q)
    (hls : labelsTo F l = some ls) (hc : t.children[j]? = some c)
    (hk : A.ident (ls.reverse ++ anc) c = some k) : A.idsTo anc F (l ++ [j]) = some (q ++ [k]) := by
  refine get_induct (t := t) (motive := fun F l => ∀ anc q ls, A.idsTo anc F l = some q →
    labelsTo F l = some ls → A.ident (ls.reverse ++ anc) c = some k →
    A.idsTo anc F (l ++ [j]) = some (q ++ [k])) ?_ ?_ hget anc q ls hq hls hk
  · intro F i hi anc q ls hq hls hk
    obtain ⟨u, k', r, hu, hk', hr, rfl⟩ := idsTo_cons.mp hq
    obtain rfl := Option.some.inj (hi.symm.trans hu)
    obtain rfl : [] = r := Option.some.inj hr
    obtain rfl : [t.label] = ls := by simpa [labelsTo, hi] using hls
    exact idsTo_cons.mpr ⟨t, k', [k], hi, hk', idsTo_cons.mpr ⟨c, k, [], hc, hk, rfl, rfl⟩, rfl⟩
  · intro F i u j' l hu ih anc q ls hq hls hk
    simp only [labelsTo, hu] at hls
    obtain ⟨ms, hms, rfl⟩ := Option.map_eq_some_iff.mp hls
    obtain ⟨v, k', r, hv, hk', hr, rfl⟩ := idsTo_cons.mp hq
    obtain rfl := Option.some.inj (hu.symm.trans hv)
    rw [List.reverse_cons, List.append_assoc, List.singleton_append] at hk
    exact idsTo_cons.mpr ⟨u, k', r ++ [k], hu, hk', ih (u.label :: anc) r ms hr hms hk, rfl⟩

/-- A path belongs to one position only. -/
theorem idsTo_inj (h : A.Proper anc F) {l' : Loc} (hl : A.idsTo anc F l = some q)
    (hl' : A.idsTo anc F l' = some q) : l = l' := by
  induction l generalizing anc F l' q with
  | nil =>
    obtain rfl : [] = q := Option.some.inj hl
    cases l' with
    | nil => rfl
    | cons i' l' =>
      obtain ⟨_, _, _, _, _, _, hnil⟩ := idsTo_cons.mp hl'
      simp at hnil
  | cons i l ih =>
    obtain ⟨t, k, r, ht, hk, hr, rfl⟩ := idsTo_cons.mp hl
    cases l' with
    | nil => simp [idsTo] at hl'
    | cons i' l' =>
      obtain ⟨t', k', r', ht', hk', hr', heq⟩ := idsTo_cons.mp hl'
      obtain ⟨rfl, rfl⟩ := List.cons_eq_cons.mp heq
      obtain rfl := index_unique h.here ht ht' hk hk'
      obtain rfl := Option.some.inj (ht.symm.trans ht')
      rw [ih (h.child (List.mem_of_getElem? ht)) hr hr']

/-- The beginning of a path is a path. -/
theorem exists_viewAt_prefix (h : A.ViewAt anc cs p x) (hq : q <+: p) (hne : q ≠ []) :
    ∃ y, A.ViewAt anc cs q y := by
  induction p generalizing anc cs q with
  | nil => exact absurd h not_viewAt_nil
  | cons k p ih =>
    obtain ⟨c, hc, hk, hrest⟩ := h
    cases q with
    | nil => exact absurd rfl hne
    | cons k' q =>
      obtain ⟨rfl, hqp⟩ := List.cons_prefix_cons.mp hq
      by_cases hq0 : q = []
      · exact ⟨A.view c, c, hc, hk, .inl ⟨hq0, rfl⟩⟩
      · rcases hrest with ⟨rfl, -⟩ | hrest
        · exact absurd (List.prefix_nil.mp hqp) hq0
        · obtain ⟨y, hy⟩ := ih hrest hqp hq0
          exact ⟨y, c, hc, hk, .inr hy⟩

/-- What a path shows is a node at a position. -/
theorem exists_get_of_viewAt (h : A.ViewAt anc F q x) :
    ∃ l t la k, get? F l = some t ∧ A.idsTo anc F l = some q ∧ A.ident la t = some k ∧
      A.view t = x := by
  induction q generalizing anc F with
  | nil => exact absurd h not_viewAt_nil
  | cons k q ih =>
    obtain ⟨c, hc, hk, hrest⟩ := h
    obtain ⟨i, hi⟩ := List.mem_iff_getElem?.mp hc
    rcases hrest with ⟨rfl, hx⟩ | hrest
    · exact ⟨[i], c, anc, k, by simp [get?, hi, getIn], idsTo_cons.mpr ⟨c, k, [], hi, hk, rfl, rfl⟩,
        hk, hx⟩
    · obtain ⟨l, t, la, k', hget, hids, hk', hx⟩ := ih hrest
      refine ⟨i :: l, t, la, k', ?_, idsTo_cons.mpr ⟨c, k, q, hi, hk, hids, rfl⟩, hk', hx⟩
      cases l with
      | nil => simp [get?] at hget
      | cons j l => simpa [get?, hi, getIn] using hget

/-- A path leads to one node only. -/
theorem viewAt_unique (h : A.Proper anc cs) {y : β} (hx : A.ViewAt anc cs p x)
    (hy : A.ViewAt anc cs p y) : x = y := by
  induction p generalizing anc cs with
  | nil => exact absurd hx not_viewAt_nil
  | cons k p ih =>
    obtain ⟨c, hc, hk, hcx⟩ := hx
    rw [viewAt_step h.here hc hk] at hy
    rcases hcx with ⟨rfl, rfl⟩ | hcx
    · rcases hy with ⟨-, hy⟩ | hy
      · exact hy
      · exact absurd hy not_viewAt_nil
    · rcases hy with ⟨rfl, -⟩ | hy
      · exact absurd hcx not_viewAt_nil
      · exact ih (h.child hc) hcx hy

/-! ### Cutting out and adding -/

theorem unlink_one (h : F[i]? = some t) : unlink [i] F = F.eraseIdx i := by
  rw [unlink, modify_one _ h, List.append_nil, List.eraseIdx_eq_take_drop_succ]

/-- Cutting out a child changes the children of its parent. -/
theorem unlink_append (hget : get? F l = some t) (hc : t.children[j]? = some c) :
    unlink (l ++ [j]) F = modifyChildren (·.eraseIdx j) l F := by
  rw [unlink, modify_append _ hget j]
  exact modifyChildren_congr hget (unlink_one hc)

variable {D : Forest α} {l : Loc} {t : Rose α} {ctx : List (Frame α)} {q : List ι}

theorem focusIn_modifyChildren (g : Forest α → Forest α) {v : Rose α} {c : List (Frame α)}
    (h : focusIn u c (j :: l) = some (v, ctx)) :
    focusIn (node u.label (modifyChildren g (j :: l) u.children)) c (j :: l) =
      some (node v.label (g v.children), ctx) := by
  induction l generalizing u c j with
  | nil =>
    simp only [focusIn] at h
    split at h
    · simp at h
    · next w hw =>
        obtain ⟨rfl, rfl⟩ : w = v ∧ _ = ctx := by simpa using h
        obtain ⟨hlt, -⟩ := List.getElem?_eq_some_iff.mp hw
        simp [focusIn, modifyChildren_one g hw, hlt, List.take_set_of_le, List.drop_set_of_lt]
  | cons k l ih =>
    rw [focusIn] at h
    cases hw : u.children[j]? with
    | none => simp [hw] at h
    | some w =>
      simp only [hw] at h
      obtain ⟨hlt, -⟩ := List.getElem?_eq_some_iff.mp hw
      have hmod : modifyChildren g (j :: k :: l) u.children =
          u.children.set j (node w.label (modifyChildren g (k :: l) w.children)) :=
        modify_down _ k l hw
      rw [focusIn, hmod, children_node, List.getElem?_set_self hlt]
      simp only [label_node, List.take_set_of_le (Nat.le_refl j),
        List.drop_set_of_lt (Nat.lt_succ_self j)]
      exact ih h

/-- The node whose children were rewritten stands where it stood. -/
theorem focus?_modifyChildren (g : Forest α → Forest α) (hf : focus? D l = some (t, ctx)) :
    focus? (modifyChildren g l D) l = some (node t.label (g t.children), ctx) := by
  cases l with
  | nil => simp [focus?] at hf
  | cons i l =>
    simp only [focus?] at hf
    cases hu : D[i]? with
    | none => simp [hu] at hf
    | some u =>
      simp only [hu] at hf
      obtain ⟨hlt, -⟩ := List.getElem?_eq_some_iff.mp hu
      cases l with
      | nil =>
        obtain ⟨rfl, rfl⟩ : u = t ∧ [] = ctx := by simpa [focusIn] using hf
        simp [focus?, modifyChildren_one g hu, hlt, focusIn]
      | cons j l =>
        have hmod : modifyChildren g (i :: j :: l) D =
            D.set i (node u.label (modifyChildren g (j :: l) u.children)) :=
          modify_down _ j l hu
        simp only [focus?, hmod, List.getElem?_set_self hlt]
        exact focusIn_modifyChildren g hf

/-- The children of the node at a position are rewritten. -/
theorem regrown_of_focus (hf : focus? D l = some (t, ctx)) (hq : A.idsTo [] D l = some q)
    (g : Forest α → Forest α) :
    Regrown A t (path t ctx) (g t.children) [] D q (modifyChildren g l D) := by
  have h := regrown_of_idsTo (get?_of_focus? hf) hq (labelsTo_of_focus? hf) g
  rwa [List.reverse_reverse, List.append_nil] at h

theorem idsTo_child (hf : focus? D l = some (t, ctx)) (hq : A.idsTo [] D l = some q)
    (hc : t.children[j]? = some c) (hk : A.ident (path t ctx) c = some k) :
    A.idsTo [] D (l ++ [j]) = some (q ++ [k]) :=
  idsTo_append (get?_of_focus? hf) hq (labelsTo_of_focus? hf) hc
    (by rwa [List.reverse_reverse, List.append_nil])

/-- A child is cut out, and its parent looks the same without it: the paths
through the child are gone. -/
theorem viewAt_unlink (hD : A.Proper [] D) (hf : focus? D l = some (t, ctx))
    (hq : A.idsTo [] D l = some q) (hc : t.children[j]? = some c)
    (hk : A.ident (path t ctx) c = some k)
    (hs : A.Sim (ctx.map Frame.label) t (node t.label (t.children.eraseIdx j)))
    (hF : A.Family (path t ctx) (t.children.eraseIdx j)) :
    A.Proper [] (unlink (l ++ [j]) D) ∧ ∀ p x, A.ViewAt [] (unlink (l ++ [j]) D) p x ↔
      A.ViewAt [] D p x ∧ ¬ (q ++ [k]) <+: p := by
  have h := regrown_of_focus hf hq (·.eraseIdx j)
  rw [← unlink_append (get?_of_focus? hf) hc] at h
  have hbelow := hD.focus hf
  refine ⟨h.families hs hD (hbelow.of_subset (fun d hd => List.mem_of_mem_eraseIdx hd) hF), ?_⟩
  intro p x
  by_cases hp : ∃ r, r ≠ [] ∧ p = q ++ r
  · obtain ⟨r, hr, rfl⟩ := hp
    rw [h.viewAt_inside hs hD hr, h.viewAt_children hD hr, viewAt_eraseIdx hbelow.here hc hk,
      List.prefix_append_right_inj]
  · push Not at hp
    rw [h.viewAt_outside hs hD hp]
    refine ⟨fun hx => ⟨hx, ?_⟩, fun hx => hx.1⟩
    rintro ⟨r, rfl⟩
    exact hp ([k] ++ r) (by simp) (by simp)

/-- A tree is added below a node, which looks the same with it: the paths into
the tree are new. -/
theorem viewAt_attach (hD : A.Proper [] D) (hf : focus? D l = some (t, ctx))
    (hq : A.idsTo [] D l = some q) (hc : A.Proper (c.label :: path t ctx) c.children)
    (hs : A.Sim (ctx.map Frame.label) t (node t.label (t.children ++ [c])))
    (hF : A.Family (path t ctx) (t.children ++ [c])) :
    A.Proper [] (modifyChildren (· ++ [c]) l D) ∧
      ∀ p x, A.ViewAt [] (modifyChildren (· ++ [c]) l D) p x ↔
        A.ViewAt [] D p x ∨ ∃ r, p = q ++ r ∧ A.ViewAt (path t ctx) [c] r x := by
  have h := regrown_of_focus hf hq (· ++ [c])
  refine ⟨h.families hs hD ((hD.focus hf).append hc hF), ?_⟩
  intro p x
  by_cases hp : ∃ r, r ≠ [] ∧ p = q ++ r
  · obtain ⟨r, hr, rfl⟩ := hp
    rw [h.viewAt_inside hs hD hr, h.viewAt_children hD hr, viewAt_append]
    simp
  · push Not at hp
    rw [h.viewAt_outside hs hD hp]
    refine ⟨.inl, ?_⟩
    rintro (hx | ⟨r, rfl, hr⟩)
    · exact hx
    · refine absurd rfl (hp r ?_)
      rintro rfl
      exact not_viewAt_nil hr

end Addressing

end OfConfig.Lib.Rose
