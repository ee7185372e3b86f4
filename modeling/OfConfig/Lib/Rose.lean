import Mathlib.Data.List.Basic

/-!
# `OfConfig.Lib.Rose`: ordered trees, positions and contexts

Ordered trees with labelled nodes (`Rose`), forests of them, and the
two ways a pointer program names a node:

* a position (`Loc`): the child indices on the way down from the
  forest. `modify` rewrites the subtree at a position, `unlink` cuts
  it out, and `Loc.afterUnlink` says where another position ends up.
* a context (`Frame`): the node itself with the siblings on both sides
  of it, one frame for every step up. `chain` lists the node and its
  ancestors, innermost first, as a program that follows parent
  pointers meets them.

`focus?` turns the first into the second.
-/

set_option autoImplicit false

namespace OfConfig.Lib

/-- An ordered tree with a label at every node. -/
inductive Rose (α : Type) where
  | node (label : α) (children : List (Rose α))

/-- A forest is the list of its trees. -/
abbrev Forest (α : Type) := List (Rose α)

/-- A position: the child indices on the way down. -/
abbrev Loc := List Nat

variable {α : Type}

namespace Rose

/-- The label of the topmost node. -/
def label : Rose α → α
  | node a _ => a

/-- The subtrees below the topmost node. -/
def children : Rose α → Forest α
  | node _ cs => cs

@[simp] theorem label_node (a : α) (cs : Forest α) : (node a cs).label = a := rfl

@[simp] theorem children_node (a : α) (cs : Forest α) : (node a cs).children = cs := rfl

/-- A tree is its label and its children. -/
theorem eta (t : Rose α) : node t.label t.children = t := by
  cases t with
  | node a cs => rfl

/-- Induction over a tree, with the hypothesis for every child. -/
@[elab_as_elim]
theorem induct {P : Rose α → Prop}
    (h : ∀ a cs, (∀ c ∈ cs, P c) → P (node a cs)) (t : Rose α) : P t :=
  @Rose.rec α P (fun cs => ∀ c ∈ cs, P c)
    (fun a cs ih => h a cs ih)
    (fun c hc => absurd hc List.not_mem_nil)
    (fun t ts iht ihts c hc => by
      rcases List.mem_cons.mp hc with rfl | hc
      · exact iht
      · exact ihts c hc)
    t

mutual
/-- The number of nodes of a tree. -/
def size : Rose α → Nat
  | node _ cs => sizes cs + 1

/-- The number of nodes of a forest. -/
def sizes : Forest α → Nat
  | [] => 0
  | t :: ts => size t + sizes ts
end

@[simp] theorem size_node (a : α) (cs : Forest α) : size (node a cs) = sizes cs + 1 := by
  rw [size]

@[simp] theorem sizes_nil : sizes ([] : Forest α) = 0 := by
  rw [sizes]

@[simp] theorem sizes_cons (t : Rose α) (ts : Forest α) : sizes (t :: ts) = size t + sizes ts := by
  rw [sizes]

theorem size_pos (t : Rose α) : 0 < size t := by
  cases t with
  | node a cs => simp

@[simp] theorem sizes_append (F G : Forest α) : sizes (F ++ G) = sizes F + sizes G := by
  induction F with
  | nil => simp
  | cons t ts ih => simp [ih, Nat.add_assoc]

mutual
/-- Equality of trees, decided label by label. -/
def decEq [DecidableEq α] : (s t : Rose α) → Decidable (s = t)
  | node a cs, node b ds =>
    if hab : a = b then
      match decEqs cs ds with
      | isTrue h => isTrue (by rw [hab, h])
      | isFalse h => isFalse (fun he => h (by injection he))
    else isFalse (fun he => hab (by injection he))

/-- Equality of forests. -/
def decEqs [DecidableEq α] : (F G : Forest α) → Decidable (F = G)
  | [], [] => isTrue rfl
  | [], _ :: _ => isFalse (by simp)
  | _ :: _, [] => isFalse (by simp)
  | s :: F, t :: G =>
    match decEq s t, decEqs F G with
    | isTrue h₁, isTrue h₂ => isTrue (by rw [h₁, h₂])
    | isFalse h, _ => isFalse (fun he => h (by injection he))
    | _, isFalse h => isFalse (fun he => h (by injection he))
end

instance [DecidableEq α] : DecidableEq (Rose α) := decEq

/-! ### Relabelling -/

section Map

variable {β : Type}

mutual
/-- Change every label of a tree. -/
def map (f : α → β) : Rose α → Rose β
  | node a cs => node (f a) (maps f cs)

/-- Change every label of a forest. -/
def maps (f : α → β) : Forest α → Forest β
  | [] => []
  | t :: ts => map f t :: maps f ts
end

theorem maps_eq (f : α → β) (F : Forest α) : maps f F = F.map (map f) := by
  induction F with
  | nil => rfl
  | cons t ts ih => rw [maps, ih, List.map_cons]

@[simp] theorem map_node (f : α → β) (a : α) (cs : Forest α) :
    map f (node a cs) = node (f a) (cs.map (map f)) := by
  rw [map, maps_eq]

@[simp] theorem label_map (f : α → β) (t : Rose α) : (map f t).label = f t.label := by
  cases t with
  | node a cs => simp

@[simp] theorem children_map (f : α → β) (t : Rose α) :
    (map f t).children = t.children.map (map f) := by
  cases t with
  | node a cs => simp

end Map

/-! ### Contexts -/

/-- One step up: the label of the parent and the siblings on the left
and on the right. -/
structure Frame (α : Type) where
  left : Forest α
  label : α
  right : Forest α

/-- The parent of `t` in a frame. -/
def Frame.plug (f : Frame α) (t : Rose α) : Rose α :=
  node f.label (f.left ++ t :: f.right)

@[simp] theorem Frame.label_plug (f : Frame α) (t : Rose α) : (f.plug t).label = f.label := rfl

@[simp] theorem Frame.children_plug (f : Frame α) (t : Rose α) :
    (f.plug t).children = f.left ++ t :: f.right := rfl

/-- The ancestors of `t` in a context, innermost first. -/
def ancestors (t : Rose α) : List (Frame α) → List (Rose α)
  | [] => []
  | f :: ctx => f.plug t :: ancestors (f.plug t) ctx

/-- The node and its ancestors, innermost first. -/
def chain (t : Rose α) (ctx : List (Frame α)) : List (Rose α) :=
  t :: ancestors t ctx

@[simp] theorem ancestors_nil (t : Rose α) : ancestors t [] = [] := rfl

@[simp] theorem ancestors_cons (t : Rose α) (f : Frame α) (ctx : List (Frame α)) :
    ancestors t (f :: ctx) = chain (f.plug t) ctx := rfl

theorem chain_eq (t : Rose α) (ctx : List (Frame α)) : chain t ctx = t :: ancestors t ctx := rfl

/-- The tree at a position below `t`, with its context. -/
def focusIn (t : Rose α) (ctx : List (Frame α)) : Loc → Option (Rose α × List (Frame α))
  | [] => some (t, ctx)
  | i :: l =>
    match t.children[i]? with
    | none => none
    | some c => focusIn c (⟨t.children.take i, t.label, t.children.drop (i + 1)⟩ :: ctx) l

/-- The tree at a position of a forest, with its context inside its
own top tree. -/
def focus? (F : Forest α) : Loc → Option (Rose α × List (Frame α))
  | [] => none
  | i :: l =>
    match F[i]? with
    | none => none
    | some t => focusIn t [] l

section Map

variable {β : Type}

/-- Change every label of a frame. -/
def Frame.map (f : α → β) (fr : Frame α) : Frame β :=
  ⟨fr.left.map (Rose.map f), f fr.label, fr.right.map (Rose.map f)⟩

theorem Frame.map_plug (f : α → β) (fr : Frame α) (t : Rose α) :
    Rose.map f (fr.plug t) = (fr.map f).plug (Rose.map f t) := by
  simp [Frame.plug, Frame.map]

theorem ancestors_map (f : α → β) (t : Rose α) (ctx : List (Frame α)) :
    (ancestors t ctx).map (map f) = ancestors (map f t) (ctx.map (Frame.map f)) := by
  induction ctx generalizing t with
  | nil => rfl
  | cons fr ctx ih => simp [ancestors, chain, ih, Frame.map_plug]

theorem chain_map (f : α → β) (t : Rose α) (ctx : List (Frame α)) :
    (chain t ctx).map (map f) = chain (map f t) (ctx.map (Frame.map f)) := by
  simp [chain, ancestors_map]

theorem focusIn_map (f : α → β) (t : Rose α) (ctx : List (Frame α)) (l : Loc) :
    focusIn (map f t) (ctx.map (Frame.map f)) l =
      (focusIn t ctx l).map (fun p => (map f p.1, p.2.map (Frame.map f))) := by
  induction l generalizing t ctx with
  | nil => rfl
  | cons i l ih =>
    simp only [focusIn, children_map, List.getElem?_map, label_map]
    cases t.children[i]? with
    | none => rfl
    | some c =>
      simp only [Option.map_some]
      rw [← ih, List.map_cons, Frame.map, List.map_take, List.map_drop]

/-- Positions do not depend on the labels. -/
theorem focus?_map (f : α → β) (F : Forest α) (l : Loc) :
    focus? (F.map (map f)) l =
      (focus? F l).map (fun p => (map f p.1, p.2.map (Frame.map f))) := by
  cases l with
  | nil => rfl
  | cons i l =>
    simp only [focus?, List.getElem?_map]
    cases F[i]? with
    | none => rfl
    | some t => exact focusIn_map f t [] l

end Map

/-! ### Rewriting at a position -/

/-- Replace the tree at a position by a list of trees. A position
outside the forest changes nothing. -/
def modify (g : Rose α → Forest α) : Loc → Forest α → Forest α
  | [], F => F
  | i :: l, F =>
    match F[i]? with
    | none => F
    | some t =>
      match l with
      | [] => F.take i ++ g t ++ F.drop (i + 1)
      | j :: l => F.set i (node t.label (modify g (j :: l) t.children))

theorem modify_one (g : Rose α → Forest α) {F : Forest α} {i : Nat} {t : Rose α}
    (h : F[i]? = some t) : modify g [i] F = F.take i ++ g t ++ F.drop (i + 1) := by
  rw [modify]
  simp only [h]

theorem modify_down (g : Rose α → Forest α) {F : Forest α} {i : Nat} {t : Rose α} (j : Nat)
    (l : Loc) (h : F[i]? = some t) :
    modify g (i :: j :: l) F = F.set i (node t.label (modify g (j :: l) t.children)) := by
  rw [modify]
  simp only [h]

/-- Cut the tree at a position out of the forest. -/
def unlink (l : Loc) (F : Forest α) : Forest α :=
  modify (fun _ => []) l F

/-- Rewrite the children of the node at a position. -/
def modifyChildren (g : Forest α → Forest α) (l : Loc) (F : Forest α) : Forest α :=
  modify (fun t => [node t.label (g t.children)]) l F

/-- Where the node at the position `l` is after the tree at `r` has
been cut out: `none` when it went with it. -/
def afterUnlink : Loc → Loc → Option Loc
  | [], l => some l
  | _, [] => some []
  | [i], j :: l => if i = j then none else if i < j then some ((j - 1) :: l) else some (j :: l)
  | i :: k :: r, j :: l =>
    if i = j then (afterUnlink (k :: r) l).map (j :: ·) else some (j :: l)

mutual
/-- The nodes of a tree in document order, every node with its
position relative to the top, parents before children. -/
def positionsIn : Rose α → List (Loc × Rose α)
  | node a cs => ([], node a cs) :: positionsFrom 0 cs

/-- The nodes of a forest in document order, where the first tree
counts as the `i`-th. -/
def positionsFrom (i : Nat) : Forest α → List (Loc × Rose α)
  | [] => []
  | t :: ts => (positionsIn t).map (fun p => (i :: p.1, p.2)) ++ positionsFrom (i + 1) ts
end

/-- The nodes of a forest in document order with their positions. -/
def positions (F : Forest α) : List (Loc × Rose α) :=
  positionsFrom 0 F

/-! ### The tree at a position -/

/-- The tree at a position below `t`. -/
def getIn (t : Rose α) : Loc → Option (Rose α)
  | [] => some t
  | i :: l =>
    match t.children[i]? with
    | none => none
    | some c => getIn c l

/-- The tree at a position of a forest. -/
def get? (F : Forest α) : Loc → Option (Rose α)
  | [] => none
  | i :: l =>
    match F[i]? with
    | none => none
    | some t => getIn t l

theorem focusIn_fst (t : Rose α) (ctx : List (Frame α)) (l : Loc) :
    (focusIn t ctx l).map Prod.fst = getIn t l := by
  induction l generalizing t ctx with
  | nil => rfl
  | cons i l ih =>
    simp only [focusIn, getIn]
    cases t.children[i]? with
    | none => rfl
    | some c => exact ih c _

theorem focus?_fst (F : Forest α) (l : Loc) : (focus? F l).map Prod.fst = get? F l := by
  cases l with
  | nil => rfl
  | cons i l =>
    simp only [focus?, get?]
    cases F[i]? with
    | none => rfl
    | some t => exact focusIn_fst t [] l

theorem get?_of_focus? {F : Forest α} {l : Loc} {t : Rose α} {ctx : List (Frame α)}
    (h : focus? F l = some (t, ctx)) : get? F l = some t := by
  rw [← focus?_fst, h]
  rfl

theorem exists_focus? {F : Forest α} {l : Loc} {t : Rose α} (h : get? F l = some t) :
    ∃ ctx, focus? F l = some (t, ctx) := by
  rw [← focus?_fst] at h
  obtain ⟨⟨u, ctx⟩, hu, rfl⟩ := Option.map_eq_some_iff.mp h
  exact ⟨ctx, hu⟩

/-- The positions of the trees of a forest, counted from `i` on. -/
theorem mem_positionsFrom_of {F : Forest α} (ih : ∀ t ∈ F, ∀ l u,
    (l, u) ∈ positionsIn t ↔ getIn t l = some u) (i : Nat) (l : Loc) (u : Rose α) :
    (l, u) ∈ positionsFrom i F ↔ ∃ j l' t, l = (i + j) :: l' ∧ F[j]? = some t ∧
      getIn t l' = some u := by
  induction F generalizing i with
  | nil => simp [positionsFrom]
  | cons t F ihF =>
    have ihF' := ihF (fun t' ht' => ih t' (List.mem_cons_of_mem _ ht')) (i + 1)
    rw [positionsFrom, List.mem_append, ihF', List.mem_map]
    constructor
    · rintro (⟨⟨l', u'⟩, hmem, heq⟩ | ⟨j, l', t', rfl, hj, hu⟩)
      · obtain ⟨rfl, rfl⟩ : i :: l' = l ∧ u' = u := by simpa using heq
        exact ⟨0, l', t, rfl, rfl, (ih t (by simp) l' u').mp hmem⟩
      · exact ⟨j + 1, l', t', by rw [Nat.add_assoc, Nat.add_comm 1], by simpa using hj, hu⟩
    · rintro ⟨j, l', t', rfl, hj, hu⟩
      cases j with
      | zero =>
        obtain rfl : t = t' := by simpa using hj
        exact Or.inl ⟨(l', u), (ih t (by simp) l' u).mpr hu, rfl⟩
      | succ j =>
        exact Or.inr ⟨j, l', t', by rw [Nat.add_assoc, Nat.add_comm 1], by simpa using hj, hu⟩

theorem mem_positionsIn (t : Rose α) :
    ∀ l u, (l, u) ∈ positionsIn t ↔ getIn t l = some u := by
  induction t using Rose.induct with
  | h a cs ih =>
    intro l u
    rw [positionsIn, List.mem_cons, mem_positionsFrom_of ih]
    cases l with
    | nil => simp [getIn, eq_comm]
    | cons i l =>
      simp only [getIn, children_node]
      constructor
      · rintro (h | ⟨j, l', t', hl, hj, hu⟩)
        · simp at h
        · obtain ⟨rfl, rfl⟩ : i = j ∧ l = l' := by simpa using hl
          simp [hj, hu]
      · intro h
        right
        cases hc : cs[i]? with
        | none => simp [hc] at h
        | some c => exact ⟨i, l, c, by simp, hc, by simpa [hc] using h⟩

/-- `positions` lists every node of the forest with its position. -/
theorem mem_positions (F : Forest α) (l : Loc) (u : Rose α) :
    (l, u) ∈ positions F ↔ get? F l = some u := by
  rw [positions, mem_positionsFrom_of (fun t _ => mem_positionsIn t)]
  cases l with
  | nil => simp [get?]
  | cons i l =>
    simp only [get?]
    constructor
    · rintro ⟨j, l', t', hl, hj, hu⟩
      obtain ⟨rfl, rfl⟩ : i = j ∧ l = l' := by simpa using hl
      simp [hj, hu]
    · intro h
      cases hc : F[i]? with
      | none => simp [hc] at h
      | some c => exact ⟨i, l, c, by simp, hc, by simpa [hc] using h⟩

/-! ### Depth -/

theorem length_of_focusIn {t u : Rose α} {ctx ctx' : List (Frame α)} {l : Loc}
    (h : focusIn t ctx l = some (u, ctx')) : ctx'.length = ctx.length + l.length := by
  induction l generalizing t ctx with
  | nil =>
    obtain ⟨-, rfl⟩ : t = u ∧ ctx = ctx' := by simpa [focusIn] using h
    simp
  | cons i l ih =>
    simp only [focusIn] at h
    split at h
    · simp at h
    · next c hc =>
        have := ih h
        simp only [List.length_cons] at this ⊢
        omega

/-- A node has one frame for every step below its top tree. -/
theorem length_of_focus? {F : Forest α} {u : Rose α} {ctx : List (Frame α)} {l : Loc}
    (h : focus? F l = some (u, ctx)) : ctx.length + 1 = l.length := by
  cases l with
  | nil => simp [focus?] at h
  | cons i l =>
    simp only [focus?] at h
    split at h
    · simp at h
    · have := length_of_focusIn h
      simp at this ⊢
      omega

@[simp] theorem length_chain (t : Rose α) (ctx : List (Frame α)) :
    (chain t ctx).length = ctx.length + 1 := by
  induction ctx generalizing t with
  | nil => rfl
  | cons f ctx ih =>
    have h := ih (f.plug t)
    simp only [chain_eq, ancestors_cons, List.length_cons] at h ⊢
    omega

/-- Unlinking another node does not change the depth of a node. -/
theorem length_afterUnlink {r l l' : Loc} (h : afterUnlink r l = some l') :
    l'.length = l.length := by
  induction r generalizing l l' with
  | nil =>
    obtain rfl : l = l' := by simpa [afterUnlink] using h
    rfl
  | cons i r ih =>
    cases l with
    | nil =>
      obtain rfl : [] = l' := by cases r <;> simpa [afterUnlink] using h
      rfl
    | cons j l =>
      cases r with
      | nil =>
        simp only [afterUnlink] at h
        split at h
        · simp at h
        · split at h <;> cases h <;> rfl
      | cons k r =>
        simp only [afterUnlink] at h
        split at h
        · obtain ⟨l₁, hl₁, rfl⟩ := Option.map_eq_some_iff.mp h
          simp [ih hl₁]
        · cases h
          rfl

/-! ### Sizes after a rewrite -/

/-- A forest around the tree at an index. -/
theorem take_append_drop_of_getElem? {F : Forest α} {i : Nat} {t : Rose α}
    (h : F[i]? = some t) : F.take i ++ t :: F.drop (i + 1) = F := by
  obtain ⟨hi, rfl⟩ := List.getElem?_eq_some_iff.mp h
  rw [← List.drop_eq_getElem_cons hi, List.take_append_drop]

theorem set_eq_of_getElem? {F : Forest α} {i : Nat} {t : Rose α} (u : Rose α)
    (h : F[i]? = some t) : F.set i u = F.take i ++ u :: F.drop (i + 1) := by
  obtain ⟨hi, -⟩ := List.getElem?_eq_some_iff.mp h
  rw [List.set_eq_take_append_cons_drop, if_pos hi]

/-- The parent of a focused child is the tree it came from. -/
theorem Frame.plug_of_getElem? {t c : Rose α} {i : Nat} (h : t.children[i]? = some c) :
    Frame.plug ⟨t.children.take i, t.label, t.children.drop (i + 1)⟩ c = t := by
  rw [Frame.plug, take_append_drop_of_getElem? h, eta]

/-- Induction on the way down to a position that holds the tree `t`. -/
theorem get_induct {t : Rose α} {motive : Forest α → Loc → Prop}
    (here : ∀ F i, F[i]? = some t → motive F [i])
    (down : ∀ F i u j l, F[i]? = some u → motive u.children (j :: l) → motive F (i :: j :: l))
    {F : Forest α} {l : Loc} (h : get? F l = some t) : motive F l := by
  cases l with
  | nil => simp [get?] at h
  | cons i l =>
    induction l generalizing F i with
    | nil =>
      simp only [get?, getIn] at h
      split at h
      · simp at h
      · next u hu => exact here F i (by rw [hu, ← h])
    | cons j l ih =>
      simp only [get?, getIn] at h
      split at h
      · simp at h
      · next u hu => exact down F i u j l hu (ih j (by simpa only [get?] using h))

/-- Rewriting replaces the size of the tree at the position by the size
of its replacement. -/
theorem sizes_modify (g : Rose α → Forest α) {l : Loc} {F : Forest α} {t : Rose α}
    {ctx : List (Frame α)} (h : focus? F l = some (t, ctx)) :
    sizes (modify g l F) + size t = sizes F + sizes (g t) := by
  refine get_induct (motive := fun F l => sizes (modify g l F) + size t = sizes F + sizes (g t))
    ?_ ?_ (get?_of_focus? h)
  · intro F i hi
    have hF := congrArg sizes (take_append_drop_of_getElem? hi)
    rw [modify_one g hi]
    simp only [sizes_append, sizes_cons] at hF ⊢
    omega
  · intro F i u j l hu hsub
    have hF := congrArg sizes (take_append_drop_of_getElem? hu)
    have hu' : size u = sizes u.children + 1 := by rw [← eta u]; simp
    rw [modify_down g j l hu, set_eq_of_getElem? _ hu]
    simp only [sizes_append, sizes_cons, size_node] at hF ⊢
    omega

/-- A change at a child of a node is a change of the children of the node. -/
theorem modify_append (f : Rose α → Forest α) {F : Forest α} {l : Loc} {t : Rose α}
    (h : get? F l = some t) (i : Nat) :
    modify f (l ++ [i]) F = modifyChildren (modify f [i]) l F := by
  refine get_induct (motive := fun F l =>
    modify f (l ++ [i]) F = modifyChildren (modify f [i]) l F) ?_ ?_ h
  · intro F j hj
    rw [List.singleton_append, modify_down f i [] hj, modifyChildren, modify_one _ hj,
      List.append_assoc, List.singleton_append]
    exact List.set_eq_take_cons_drop _ (List.getElem?_eq_some_iff.mp hj).1
  · intro F j u k l hj ih
    have hcons : (j :: k :: l) ++ [i] = j :: k :: (l ++ [i]) := rfl
    rw [hcons, modify_down f k (l ++ [i]) hj, modifyChildren, modify_down _ k l hj]
    exact congrArg (fun cs => F.set j (node u.label cs)) ih

/-- Only the children of the node at the position matter. -/
theorem modifyChildren_congr {g g' : Forest α → Forest α} {F : Forest α} {l : Loc} {t : Rose α}
    (h : get? F l = some t) (hg : g t.children = g' t.children) :
    modifyChildren g l F = modifyChildren g' l F := by
  refine get_induct (motive := fun F l => modifyChildren g l F = modifyChildren g' l F) ?_ ?_ h
  · intro F i hi
    rw [modifyChildren, modifyChildren, modify_one _ hi, modify_one _ hi, hg]
  · intro F i u j l hi ih
    rw [modifyChildren, modifyChildren, modify_down _ j l hi, modify_down _ j l hi]
    exact congrArg (fun cs => F.set i (node u.label cs)) ih

/-- Putting the tree back changes nothing. -/
theorem modify_self {l : Loc} {F : Forest α} {t : Rose α} (h : get? F l = some t) :
    modify (fun _ => [t]) l F = F := by
  refine get_induct (motive := fun F l => modify (fun _ => [t]) l F = F) ?_ ?_ h
  · intro F i hi
    rw [modify_one _ hi]
    simpa using take_append_drop_of_getElem? hi
  · intro F i u j l hu hsub
    rw [modify_down _ j l hu, hsub, eta, set_eq_of_getElem? _ hu, take_append_drop_of_getElem? hu]

/-- Cutting a tree out makes the forest smaller by that tree. -/
theorem sizes_unlink {l : Loc} {F : Forest α} {t : Rose α} {ctx : List (Frame α)}
    (h : focus? F l = some (t, ctx)) : sizes (unlink l F) + size t = sizes F := by
  have h' := sizes_modify (fun _ => []) h
  simpa [unlink] using h'

theorem sizes_unlink_lt {l : Loc} {F : Forest α} {t : Rose α} {ctx : List (Frame α)}
    (h : focus? F l = some (t, ctx)) : sizes (unlink l F) < sizes F := by
  have h' := sizes_unlink h
  have := size_pos t
  omega

/-! ### Going down one more step -/

theorem focusIn_append (t : Rose α) (ctx : List (Frame α)) (l : Loc) (j : Nat) :
    focusIn t ctx (l ++ [j]) =
      match focusIn t ctx l with
      | none => none
      | some (u, ctx') =>
        match u.children[j]? with
        | none => none
        | some c =>
          some (c, ⟨u.children.take j, u.label, u.children.drop (j + 1)⟩ :: ctx') := by
  induction l generalizing t ctx with
  | nil => simp only [List.nil_append, focusIn]
  | cons i l ih =>
    simp only [List.cons_append, focusIn]
    cases t.children[i]? with
    | none => rfl
    | some c => exact ih c _

/-- The child `j` of the node at `l`. -/
theorem focus?_append {F : Forest α} {l : Loc} {u c : Rose α} {ctx : List (Frame α)} {j : Nat}
    (h : focus? F l = some (u, ctx)) (hc : u.children[j]? = some c) :
    focus? F (l ++ [j]) =
      some (c, ⟨u.children.take j, u.label, u.children.drop (j + 1)⟩ :: ctx) := by
  cases l with
  | nil => simp [focus?] at h
  | cons i l =>
    simp only [focus?] at h
    split at h
    · simp at h
    · next t ht =>
        simp only [List.cons_append, focus?, ht]
        rw [focusIn_append, h]
        simp [hc]

/-- What holds of the top trees and is handed down from a node to its
children holds of every node in its context. -/
theorem focus_induct {P : Rose α → List (Frame α) → Prop} {F : Forest α}
    (top : ∀ t ∈ F, P t [])
    (down : ∀ t ctx left c right, t.children = left ++ c :: right → P t ctx →
      P c (⟨left, t.label, right⟩ :: ctx))
    {l : Loc} {u : Rose α} {ctx : List (Frame α)} (h : focus? F l = some (u, ctx)) : P u ctx := by
  have key : ∀ (l : Loc) (t : Rose α) (c : List (Frame α)), P t c →
      focusIn t c l = some (u, ctx) → P u ctx := by
    intro l
    induction l with
    | nil =>
      intro t c ht hfoc
      obtain ⟨rfl, rfl⟩ : t = u ∧ c = ctx := by simpa [focusIn] using hfoc
      exact ht
    | cons i l ih =>
      intro t c ht hfoc
      simp only [focusIn] at hfoc
      split at hfoc
      · simp at hfoc
      · next d hd =>
          exact ih d _ (down t c _ d _ (take_append_drop_of_getElem? hd).symm ht) hfoc
  cases l with
  | nil => simp [focus?] at h
  | cons i l =>
    simp only [focus?] at h
    split at h
    · simp at h
    · next t ht => exact key l t [] (top t (List.mem_of_getElem? ht)) h

/-- Every frame of a context belongs to an ancestor, which has the outer
frames as its context. -/
theorem exists_focus?_of_frame {F : Forest α} {l : Loc} {u : Rose α} {inner outer : List (Frame α)}
    {f : Frame α} (h : focus? F l = some (u, inner ++ f :: outer)) :
    ∃ l' t, focus? F l' = some (t, outer) ∧ t.label = f.label := by
  refine (focus_induct (P := fun u ctx => (∃ l, focus? F l = some (u, ctx)) ∧
    ∀ inner f outer, ctx = inner ++ f :: outer →
      ∃ l' t, focus? F l' = some (t, outer) ∧ t.label = f.label) ?_ ?_ h).2 inner f outer rfl
  · intro t ht
    obtain ⟨i, hi⟩ := List.mem_iff_getElem?.mp ht
    refine ⟨⟨[i], by simp only [focus?, hi, focusIn]⟩, ?_⟩
    intro inner f outer heq
    simp at heq
  · rintro t ctx left c right hch ⟨⟨l, hl⟩, hanc⟩
    have hc : t.children[left.length]? = some c := by simp [hch]
    refine ⟨⟨l ++ [left.length], ?_⟩, ?_⟩
    · rw [focus?_append hl hc, hch]
      simp
    · intro inner f outer heq
      cases inner with
      | nil =>
        obtain ⟨rfl, rfl⟩ : ⟨left, t.label, right⟩ = f ∧ ctx = outer := by simpa using heq
        exact ⟨l, t, hl, rfl⟩
      | cons g inner =>
        obtain ⟨-, rfl⟩ : ⟨left, t.label, right⟩ = g ∧ ctx = inner ++ f :: outer := by
          simpa using heq
        exact hanc inner f outer rfl

end Rose

end OfConfig.Lib
