import OfConfig.Edit.Ops
import OfConfig.Proofs.Lookup

/-!
# `OfConfig.Proofs.Ops`: checks and compaction

What the checks before an edit guarantee, and what survives the
compaction of the operation attributes:

* `mem_getOperationElements`: the node set of an XPath query is the set
  of positions with the attribute.
* `checkEditOps_delete`, `checkEditOps_create`: after a successful check
  every `delete` element has an equivalent and no `create` element has
  one.
* `compact_at`: at every position the compacted document has the
  compacted node; only attributes differ (`compact_bare`), and an
  operation that is still there was there before (`mem_compact_op`).
-/

set_option autoImplicit false

namespace OfConfig.Proofs

open OfConfig.Lib OfConfig.Xml OfConfig.Edit

variable {d d' edit : Doc} {defop : DefOp} {l : Loc} {mode : WdMode} {n n' : Node}
  {noneCast : Option EditOp} {op : EditOp} {orig : Option Doc}

/-- The position holds an element with the operation. -/
def HasOp (op : EditOp) (d : Doc) (l : Loc) : Prop :=
  ∃ n, Rose.get? d l = some n ∧ n.label.isElement = true ∧ opAttr n.label = some (opString op)

theorem mem_getOperationElements (op : EditOp) (d : Doc) (l : Loc) :
    l ∈ getOperationElements op d ↔ HasOp op d l := by
  simp only [getOperationElements, List.mem_map, List.mem_filter, Bool.and_eq_true, HasOp]
  constructor
  · rintro ⟨⟨l', n⟩, ⟨hmem, he, ho⟩, rfl⟩
    exact ⟨n, (Rose.mem_positions d l' n).mp hmem, he, by simpa using ho⟩
  · rintro ⟨n, hget, he, ho⟩
    exact ⟨(l, n), ⟨(Rose.mem_positions d l n).mpr hget, he, by simpa using ho⟩, rfl⟩

@[simp] theorem getOperationElements_nil (op : EditOp) : getOperationElements op [] = [] := rfl

/-! ### The node set of a document with one root -/

/-- Is the node an element with the operation? -/
def isOpNode (op : EditOp) (p : Loc × Node) : Bool :=
  p.2.label.isElement && opAttr p.2.label = some (opString op)

theorem getOperationElements_eq (op : EditOp) (d : Doc) :
    getOperationElements op d = ((Rose.positionsFrom 0 d).filter (isOpNode op)).map Prod.fst := rfl

/-- Nothing is found in nodes that are not elements. -/
theorem filter_positionsFrom_leaf (op : EditOp) (d : Doc) (k : Nat)
    (hd : ∀ n ∈ d, n.label.isElement = false ∧ n.children = []) :
    (Rose.positionsFrom k d).filter (isOpNode op) = [] := by
  induction d generalizing k with
  | nil => rfl
  | cons n d ih =>
    obtain ⟨he, hc⟩ := hd n (by simp)
    rw [Rose.positionsFrom, List.filter_append, ih (k + 1) (fun m hm => hd m (by simp [hm]))]
    cases n with
    | node l cs =>
      obtain rfl : cs = [] := hc
      simp [Rose.positionsIn, Rose.positionsFrom, isOpNode, show l.isElement = false from he]

/-- The positions inside a tree are at least one step down. -/
theorem length_of_mem_positionsFrom {F : Doc} {k : Nat} {p : Loc × Node}
    (h : p ∈ Rose.positionsFrom k F) : 1 ≤ p.1.length := by
  obtain ⟨l, u⟩ := p
  obtain ⟨j, l', t, hl, -, -⟩ :=
    (Rose.mem_positionsFrom_of (fun t _ => Rose.mem_positionsIn t) k l u).mp h
  simp [hl]

/-- In a document with one root the root, if it has the operation, comes
first, and every other element of the node set is below it. -/
theorem getOperationElements_shape (op : EditOp) (hd : SingleRoot d) :
    (∀ l ∈ getOperationElements op d, 2 ≤ l.length) ∨
    ∃ i root ls, getOperationElements op d = [i] :: ls ∧ d[i]? = some root ∧
      root.label.isElement = true ∧ opAttr root.label = some (opString op) ∧
      ∀ l ∈ ls, 2 ≤ l.length := by
  -- by induction along the top-level nodes, counted from `k`
  suffices key : ∀ (d : Doc) (k : Nat), SingleRoot d →
      (∀ l ∈ ((Rose.positionsFrom k d).filter (isOpNode op)).map Prod.fst, 2 ≤ l.length) ∨
      ∃ i root ls, ((Rose.positionsFrom k d).filter (isOpNode op)).map Prod.fst = [k + i] :: ls ∧
        d[i]? = some root ∧ root.label.isElement = true ∧
        opAttr root.label = some (opString op) ∧ ∀ l ∈ ls, 2 ≤ l.length by
    simpa [getOperationElements_eq] using key d 0 hd
  intro d
  induction d with
  | nil => exact fun k _ => Or.inl (by simp [Rose.positionsFrom])
  | cons n d ih =>
    intro k hd
    have hrest : SingleRoot d := by
      refine ⟨?_, fun m hm => hd.leaf m (by simp [hm])⟩
      have h1 := hd.one
      rw [List.countP_cons] at h1
      omega
    cases he : n.label.isElement with
    | false =>
      have hhead : ((Rose.positionsIn n).map (fun p => (k :: p.1, p.2))).filter (isOpNode op)
          = [] := by
        have hleaf := filter_positionsFrom_leaf op [n] k (fun m hm => by
          obtain rfl : m = n := by simpa using hm
          exact ⟨he, hd.leaf m (by simp) he⟩)
        simpa [Rose.positionsFrom] using hleaf
      rw [Rose.positionsFrom, List.filter_append, hhead, List.nil_append]
      rcases ih (k + 1) hrest with h | ⟨i, root, ls, hls, hroot, h⟩
      · exact Or.inl h
      · exact Or.inr ⟨i + 1, root, ls, by rw [hls]; congr 2; omega, by simpa using hroot, h⟩
    | true =>
      -- no other element follows at the top
      have hnone : (Rose.positionsFrom (k + 1) d).filter (isOpNode op) = [] := by
        refine filter_positionsFrom_leaf op d (k + 1) (fun m hm => ?_)
        have h1 := hd.one
        rw [List.countP_cons, he] at h1
        have hcount : d.countP (fun n => n.label.isElement) = 0 := by
          simp only [if_true] at h1
          omega
        have hm' : m.label.isElement = false := by
          simpa using List.countP_eq_zero.mp hcount m hm
        exact ⟨hm', hd.leaf m (by simp [hm]) hm'⟩
      have hbelow : ∀ l ∈ (((Rose.positionsFrom 0 n.children).map
          (fun p => (k :: p.1, p.2))).filter (isOpNode op)).map Prod.fst, 2 ≤ l.length := by
        intro l hl
        simp only [List.mem_map, List.mem_filter] at hl
        obtain ⟨p, ⟨⟨q, hq, rfl⟩, -⟩, rfl⟩ := hl
        have := length_of_mem_positionsFrom hq
        simp only [List.length_cons]
        omega
      have hin : Rose.positionsIn n = ([], n) :: Rose.positionsFrom 0 n.children := by
        cases n with
        | node l cs => rw [Rose.positionsIn, Rose.children_node]
      rw [Rose.positionsFrom, List.filter_append, hnone, List.append_nil, hin, List.map_cons]
      by_cases ho : opAttr n.label = some (opString op)
      · refine Or.inr ⟨0, n, _, ?_, rfl, he, ho, hbelow⟩
        rw [List.filter_cons_of_pos (by simp [isOpNode, he, ho])]
        simp
      · refine Or.inl ?_
        rw [List.filter_cons_of_neg (by simp [isOpNode, he, ho])]
        exact hbelow

theorem getOperation_of_opAttr {l : Label} (h : opAttr l = some (opString op)) :
    getOperation l = .op op := by
  rw [getOperation, h]
  cases op <;> decide

/-! ### The checks -/

/-- A check that succeeds has looked at every element of its node set. -/
theorem checkEditOpsLoop_success {ls : List Loc}
    (h : checkEditOpsLoop op defop mode orig edit ls = .success) (hl : l ∈ ls) :
    ∃ n ctx, Rose.focus? edit l = some (n, ctx) ∧
      checkEditOpsHierarchy n.label (Rose.ancestors n ctx) defop = .success ∧
      checkEditOp op mode orig n (Rose.ancestors n ctx) = .success := by
  induction ls with
  | nil => simp at hl
  | cons l' ls ih =>
    simp only [checkEditOpsLoop] at h
    split at h
    · simp at h
    · next n ctx hfoc =>
        split at h
        · next hhier =>
            split at h
            · next hop =>
                rcases List.mem_cons.mp hl with rfl | hl
                · exact ⟨n, ctx, hfoc, hhier, hop⟩
                · exact ih h hl
            · next o ho => exact absurd h ho
        · next o ho => exact absurd h ho

/-- After a successful check every `delete` element has an equivalent. -/
theorem checkEditOps_delete (h : checkEditOps .delete defop mode orig edit = .success)
    (hl : HasOp .delete edit l) :
    ∃ d n ctx f, orig = some d ∧ Rose.focus? edit l = some (n, ctx) ∧
      findElementEquiv d (Rose.chain n ctx) = some f := by
  obtain ⟨n, ctx, hfoc, -, hop⟩ :=
    checkEditOpsLoop_success h ((mem_getOperationElements _ _ _).mpr hl)
  simp only [checkEditOp, true_and] at hop
  split at hop
  · split at hop <;> simp at hop
  · next hsome =>
      cases orig with
      | none => simp at hsome
      | some d =>
        obtain ⟨f, hf⟩ : ∃ f, findElementEquiv d (n :: Rose.ancestors n ctx) = some f := by
          simpa [Option.isNone_iff_eq_none, Option.ne_none_iff_exists'] using hsome
        exact ⟨d, n, ctx, f, rfl, hfoc, hf⟩

/-- After a successful check no `create` element has an equivalent. -/
theorem checkEditOps_create (h : checkEditOps .create defop mode (some d) edit = .success)
    {ctx : List (Rose.Frame Label)} (hfoc : Rose.focus? edit l = some (n, ctx))
    (hl : HasOp .create edit l) : findElementEquiv d (Rose.chain n ctx) = none := by
  obtain ⟨n', ctx', hfoc', -, hop⟩ :=
    checkEditOpsLoop_success h ((mem_getOperationElements _ _ _).mpr hl)
  obtain ⟨rfl, rfl⟩ : n = n' ∧ ctx = ctx' := by simpa using hfoc.symm.trans hfoc'
  by_contra hne
  obtain ⟨f, hf⟩ := Option.ne_none_iff_exists'.mp hne
  have hf' : findElementEquiv d (n :: Rose.ancestors n ctx) = some f := hf
  simp only [checkEditOp, Option.bind_some, hf'] at hop
  rw [if_neg (by simp), if_pos (by simp)] at hop
  split at hop <;> simp at hop

/-- With the default operation `replace` no `delete` element passes. -/
theorem checkEditOps_delete_replace (h : checkEditOps .delete .replace mode orig edit = .success)
    (l : Loc) : ¬ HasOp .delete edit l := by
  intro hl
  obtain ⟨n, ctx, hfoc, hhier, -⟩ :=
    checkEditOpsLoop_success h ((mem_getOperationElements _ _ _).mpr hl)
  obtain ⟨n', hget, -, hop⟩ := hl
  obtain rfl : n = n' := by simpa [Rose.get?_of_focus? hfoc] using hget
  simp [checkEditOpsHierarchy, getOperation_of_opAttr hop] at hhier

/-! ### Compaction -/

@[simp] theorem bare_dropOpAttr (l : Label) : (dropOpAttr l).bare = l.bare := by
  cases l <;> rfl

@[simp] theorem name_dropOpAttr (l : Label) : (dropOpAttr l).name = l.name := by
  cases l <;> rfl

@[simp] theorem isElement_dropOpAttr (l : Label) : (dropOpAttr l).isElement = l.isElement := by
  cases l <;> rfl

theorem opAttr_dropOpAttr (l : Label) : opAttr (dropOpAttr l) = none := by
  cases l with
  | element n ns as =>
    simp only [opAttr, getNsProp, dropOpAttr, removeNsProp, Label.attrs, Option.map_eq_none_iff,
      List.find?_eq_none, List.mem_filter]
    rintro a ⟨-, ha⟩
    rw [Bool.not_eq_true'] at ha
    rw [ha]
    exact Bool.false_ne_true
  | _ => rfl

/-- The node a compaction makes of a node. -/
def CompactOf (n n' : Node) : Prop :=
  n' = n ∨ ∃ supreme, compactEditOperationsR supreme n = some n'

theorem compactChildren_getElem? {supreme : Option EditOp} {cs cs' : List Node}
    (h : compactChildren supreme cs = some cs') (i : Nat) {c' : Node} (hc : cs'[i]? = some c') :
    ∃ c, cs[i]? = some c ∧ compactEditOperationsR supreme c = some c' := by
  induction cs generalizing cs' i with
  | nil =>
    obtain rfl : [] = cs' := by simpa [compactChildren] using h
    simp at hc
  | cons c cs ih =>
    simp only [compactChildren] at h
    split at h
    · simp at h
    · next c₁ hc₁ =>
        obtain ⟨cs₁, hcs₁, rfl⟩ := Option.map_eq_some_iff.mp h
        cases i with
        | zero =>
          obtain rfl : c₁ = c' := by simpa using hc
          exact ⟨c, rfl, hc₁⟩
        | succ i => simpa using ih hcs₁ i (by simpa using hc)

/-- A compacted node keeps its label, up to the operation attribute, and
its children are the compacted children. -/
theorem compactEditOperationsR_cases {supreme : Option EditOp}
    (h : compactEditOperationsR supreme n = some n') :
    ∃ supreme' cs', compactChildren supreme' n.children = some cs' ∧
      n'.children = cs' ∧ (n'.label = n.label ∨ n'.label = dropOpAttr n.label) := by
  cases n with
  | node l cs =>
    simp only [compactEditOperationsR] at h
    split at h
    · simp at h
    · obtain ⟨cs', hcs', rfl⟩ := Option.map_eq_some_iff.mp h
      exact ⟨supreme, cs', hcs', rfl, Or.inl rfl⟩
    · next o ho =>
        obtain ⟨cs', hcs', rfl⟩ := Option.map_eq_some_iff.mp h
        refine ⟨some o, cs', hcs', rfl, ?_⟩
        simp only [Rose.label_node]
        split
        · exact Or.inr rfl
        · exact Or.inl rfl

/-- The compaction changes nothing but attributes. -/
theorem compactEditOperationsR_bare (n : Node) :
    ∀ supreme n', compactEditOperationsR supreme n = some n' → bareNode n' = bareNode n := by
  induction n using Rose.induct with
  | h l cs ih =>
    intro supreme n' h
    obtain ⟨supreme', cs', hcs', hch, hlab⟩ := compactEditOperationsR_cases h
    have hl : n'.label.bare = l.bare := by
      rcases hlab with hlab | hlab <;> simp [hlab]
    have hmap : cs'.map bareNode = cs.map bareNode := by
      have key : ∀ (ds ds' : List Node), (∀ c ∈ ds, c ∈ cs) →
          compactChildren supreme' ds = some ds' → ds'.map bareNode = ds.map bareNode := by
        intro ds
        induction ds with
        | nil =>
          intro ds' _ h'
          obtain rfl : [] = ds' := by simpa [compactChildren] using h'
          rfl
        | cons c ds ihds =>
          intro ds' hsub h'
          simp only [compactChildren] at h'
          split at h'
          · simp at h'
          · next c₁ hc₁ =>
              obtain ⟨ds₁, hds₁, rfl⟩ := Option.map_eq_some_iff.mp h'
              simp only [List.map_cons]
              rw [ih c (hsub c (by simp)) _ _ hc₁,
                ihds ds₁ (fun x hx => hsub x (by simp [hx])) hds₁]
      exact key cs cs' (fun _ h => h) hcs'
    rw [← Rose.eta n', hch]
    simp only [bareNode, Rose.map_node, hl]
    rw [show cs'.map (Rose.map Label.bare) = cs.map (Rose.map Label.bare) from hmap]

/-- Compaction of the top-level nodes: the `i`-th node is the compacted
`i`-th node. -/
theorem compactEditOperations_getElem? (h : compactEditOperations noneCast defop d = some d')
    (i : Nat) (hn : d'[i]? = some n') : ∃ n, d[i]? = some n ∧ CompactOf n n' := by
  induction d generalizing d' i with
  | nil =>
    obtain rfl : [] = d' := by simpa [compactEditOperations] using h
    simp at hn
  | cons m d ih =>
    simp only [compactEditOperations] at h
    split at h
    · split at h
      · simp at h
      · next m₁ hm₁ =>
          obtain ⟨d₁, hd₁, rfl⟩ := Option.map_eq_some_iff.mp h
          cases i with
          | zero =>
            obtain rfl : m₁ = n' := by simpa using hn
            exact ⟨m, rfl, Or.inr ⟨_, hm₁⟩⟩
          | succ i => simpa using ih hd₁ i (by simpa using hn)
    · obtain ⟨d₁, hd₁, rfl⟩ := Option.map_eq_some_iff.mp h
      cases i with
      | zero =>
        obtain rfl : m = n' := by simpa using hn
        exact ⟨m, rfl, Or.inl rfl⟩
      | succ i => simpa using ih hd₁ i (by simpa using hn)

/-- The compacted document is the document, up to attributes. -/
theorem compact_bare (h : compactEditOperations noneCast defop d = some d') :
    d'.map bareNode = d.map bareNode := by
  induction d generalizing d' with
  | nil =>
    obtain rfl : [] = d' := by simpa [compactEditOperations] using h
    rfl
  | cons m d ih =>
    simp only [compactEditOperations] at h
    split at h
    · split at h
      · simp at h
      · next m₁ hm₁ =>
          obtain ⟨d₁, hd₁, rfl⟩ := Option.map_eq_some_iff.mp h
          simp only [List.map_cons, ih hd₁, compactEditOperationsR_bare m _ _ hm₁]
    · obtain ⟨d₁, hd₁, rfl⟩ := Option.map_eq_some_iff.mp h
      simp only [List.map_cons, ih hd₁]

/-- Below a compacted node every node is compacted. -/
theorem compactOf_getIn (h : CompactOf n n') (l : Loc) {u' : Node}
    (hu : Rose.getIn n' l = some u') :
    ∃ u, Rose.getIn n l = some u ∧ CompactOf u u' := by
  rcases h with rfl | ⟨supreme, h⟩
  · exact ⟨u', hu, Or.inl rfl⟩
  · induction l generalizing n n' supreme with
    | nil =>
      obtain rfl : n' = u' := by simpa [Rose.getIn] using hu
      exact ⟨n, rfl, Or.inr ⟨supreme, h⟩⟩
    | cons i l ih =>
      obtain ⟨supreme', cs', hcs', hch, -⟩ := compactEditOperationsR_cases h
      simp only [Rose.getIn] at hu ⊢
      split at hu
      · simp at hu
      · next c' hc' =>
          obtain ⟨c, hc, hcc⟩ := compactChildren_getElem? hcs' i (hch ▸ hc')
          simp only [hc]
          exact ih hu supreme' hcc

/-- At every position of the compacted document stands the compacted
node. -/
theorem compact_at (h : compactEditOperations noneCast defop d = some d') {u' : Node}
    (hu : Rose.get? d' l = some u') : ∃ u, Rose.get? d l = some u ∧ CompactOf u u' := by
  cases l with
  | nil => simp [Rose.get?] at hu
  | cons i l =>
    simp only [Rose.get?] at hu ⊢
    split at hu
    · simp at hu
    · next n' hn' =>
        obtain ⟨n, hn, hcc⟩ := compactEditOperations_getElem? h i hn'
        simp only [hn]
        exact compactOf_getIn hcc l hu

/-- An operation that is left after the compaction was there before. -/
theorem hasOp_of_compact (h : compactEditOperations noneCast defop d = some d')
    (hl : HasOp op d' l) :
    HasOp op d l := by
  obtain ⟨u', hu', he, ho⟩ := hl
  obtain ⟨u, hu, hcc⟩ := compact_at h hu'
  refine ⟨u, hu, ?_⟩
  rcases hcc with rfl | ⟨supreme, hcc⟩
  · exact ⟨he, ho⟩
  · obtain ⟨-, -, -, -, hlab | hlab⟩ := compactEditOperationsR_cases hcc
    · exact ⟨hlab ▸ he, hlab ▸ ho⟩
    · rw [hlab, opAttr_dropOpAttr] at ho
      simp at ho

/-- The ancestors of a position are the same before and after the
compaction, up to attributes. -/
theorem compact_chain (h : compactEditOperations noneCast defop d = some d')
    {ctx ctx' : List (Rose.Frame Label)} (hn : Rose.focus? d l = some (n, ctx))
    (hn' : Rose.focus? d' l = some (n', ctx')) :
    (Rose.chain n' ctx').map bareNode = (Rose.chain n ctx).map bareNode := by
  have hmap := Rose.focus?_map Label.bare d l
  have hmap' := Rose.focus?_map Label.bare d' l
  rw [show d'.map (Rose.map Label.bare) = d.map (Rose.map Label.bare) from compact_bare h, hmap,
    hn, hn'] at hmap'
  obtain ⟨h₁, h₂⟩ : bareNode n = bareNode n' ∧
      ctx.map (Rose.Frame.map Label.bare) = ctx'.map (Rose.Frame.map Label.bare) := by
    simpa using hmap'
  rw [Rose.chain_map, Rose.chain_map, ← h₂]
  rw [show Rose.map Label.bare n = Rose.map Label.bare n' from h₁]

end OfConfig.Proofs
