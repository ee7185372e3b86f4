import OfConfig.Lib.Unlink
import OfConfig.Proofs.Ops

/-!
# `OfConfig.Proofs.Compaction`: what the compaction does to an edit document

`compact_edit_operations` drops an operation attribute that repeats what
the element inherits anyway. Along a path from an element to the root only
the labels matter, so the function is described on lists of labels,
innermost first: `nearestOp` is the operation a list gives, `compactLabels`
what the compaction leaves of it, and `compact_focus` connects the two with
the tree.

* `nearestOp_compactLabels`: with the inherited operation as the base, the
  compaction changes nothing.
* `compaction_keeps_operations_iff`: the base is not the inherited
  operation for the default operation `none`, which the cast turns into
  `create`. The compaction keeps all operations if and only if this is not
  met by an outermost `create`.
-/

set_option autoImplicit false

namespace OfConfig.Proofs

open OfConfig.Lib OfConfig.Xml OfConfig.Edit

variable {base cast : Option EditOp} {c ctx : List (Rose.Frame Label)} {d : Doc} {l : Label}
  {ls : List Label} {n u : Node} {o : EditOp}

/-! ### Lists of labels -/

/-- The operation of the first label that has one, or the base. -/
def nearestOp (base : Option EditOp) : List Label → Option EditOp
  | [] => base
  | l :: ls =>
    match getOperation l with
    | .op o => some o
    | _ => nearestOp base ls

/-- The label that is left of an element that inherits `supreme`. -/
def compactLabel (supreme : Option EditOp) (l : Label) : Label :=
  match getOperation l with
  | .op o => if supreme = some o then dropOpAttr l else l
  | _ => l

/-- The labels that are left on the path to the root. -/
def compactLabels (cast : Option EditOp) : List Label → List Label
  | [] => []
  | l :: ls => compactLabel (nearestOp cast ls) l :: compactLabels cast ls

theorem nearestOp_op (h : getOperation l = .op o) (base : Option EditOp) (ls : List Label) :
    nearestOp base (l :: ls) = some o := by
  simp only [nearestOp, h]

theorem nearestOp_no_op (h : ∀ o, getOperation l ≠ .op o) (base : Option EditOp) (ls : List Label) :
    nearestOp base (l :: ls) = nearestOp base ls := by
  cases hl : getOperation l with
  | op o => exact absurd hl (h o)
  | unset => simp only [nearestOp, hl]
  | bad => simp only [nearestOp, hl]

theorem getOperation_dropOpAttr (l : Label) : getOperation (dropOpAttr l) = .unset := by
  simp only [getOperation, opAttr_dropOpAttr]

/-- One step of the compaction, where what the element inherits is not
changed. -/
theorem nearestOp_compactLabel (l : Label)
    (hrest : nearestOp base (compactLabels cast ls) = nearestOp base ls)
    (hdrop : ∀ o, getOperation l = .op o → nearestOp cast ls = some o →
      nearestOp base ls = some o) :
    nearestOp base (compactLabels cast (l :: ls)) = nearestOp base (l :: ls) := by
  cases hl : getOperation l with
  | op o =>
    rw [nearestOp_op hl]
    by_cases hsup : nearestOp cast ls = some o
    · have hlab : compactLabel (nearestOp cast ls) l = dropOpAttr l := by
        simp only [compactLabel, hl, if_pos hsup]
      rw [compactLabels, hlab, nearestOp_no_op (by simp [getOperation_dropOpAttr]), hrest]
      exact hdrop o hl hsup
    · have hlab : compactLabel (nearestOp cast ls) l = l := by
        simp only [compactLabel, hl, if_neg hsup]
      rw [compactLabels, hlab, nearestOp_op hl]
  | unset | bad =>
    have hlab : compactLabel (nearestOp cast ls) l = l := by simp only [compactLabel, hl]
    rw [compactLabels, hlab, nearestOp_no_op (by simp [hl]), nearestOp_no_op (by simp [hl]), hrest]

/-- With what is inherited at the root as the base nothing changes. -/
theorem nearestOp_compactLabels (base : Option EditOp) (ls : List Label) :
    nearestOp base (compactLabels base ls) = nearestOp base ls := by
  induction ls with
  | nil => rfl
  | cons l ls ih => exact nearestOp_compactLabel l ih (fun o _ h => h)

/-- The base plays no role once there is an operation. -/
theorem nearestOp_base (hl : l ∈ ls) (ho : getOperation l = .op o) :
    nearestOp base ls = nearestOp cast ls := by
  induction ls with
  | nil => simp at hl
  | cons m ls ih =>
    by_cases hm : ∃ o', getOperation m = .op o'
    · obtain ⟨o', ho'⟩ := hm
      rw [nearestOp_op ho', nearestOp_op ho']
    · have hne : l ≠ m := by
        rintro rfl
        exact hm ⟨o, ho⟩
      have hno : ∀ o, getOperation m ≠ .op o := fun o' ho' => hm ⟨o', ho'⟩
      rw [nearestOp_no_op hno, nearestOp_no_op hno]
      exact ih ((List.mem_cons.mp hl).resolve_left hne)

theorem nearestOp_none (h : ∀ l ∈ ls, ∀ o, getOperation l ≠ .op o) : nearestOp base ls = base := by
  induction ls with
  | nil => rfl
  | cons l ls ih =>
    rw [nearestOp_no_op (h l (by simp))]
    exact ih (fun m hm => h m (by simp [hm]))

/-- A list whose outermost operation is not `c`. -/
def OutermostNot (c : EditOp) (ls : List Label) : Prop :=
  ∀ (left right : List Label) (l : Label), ls = left ++ l :: right →
    (∀ m ∈ right, ∀ o, getOperation m ≠ .op o) → getOperation l ≠ .op c

theorem OutermostNot.tail {c : EditOp} (h : OutermostNot c (l :: ls)) : OutermostNot c ls := by
  intro left right m heq hno
  exact h (l :: left) right m (by rw [heq]; rfl) hno

/-- Nothing inherited at the root, but the compaction takes `c` for it. -/
theorem nearestOp_compactLabels_cast {c : EditOp} (h : OutermostNot c ls) :
    nearestOp none (compactLabels (some c) ls) = nearestOp none ls := by
  induction ls with
  | nil => rfl
  | cons l ls ih =>
    refine nearestOp_compactLabel l (ih h.tail) ?_
    intro o ho hsup
    by_cases hex : ∃ m ∈ ls, ∃ o', getOperation m = .op o'
    · obtain ⟨m, hm, o', ho'⟩ := hex
      rw [← hsup]
      exact nearestOp_base hm ho'
    · -- the element has the outermost operation, and it is not `c`
      have hno : ∀ m ∈ ls, ∀ o, getOperation m ≠ .op o := by
        intro m hm o' ho'
        exact hex ⟨m, hm, o', ho'⟩
      rw [nearestOp_none hno, Option.some.injEq] at hsup
      exact absurd (hsup ▸ ho) (h [] ls l rfl hno)

/-- An outermost `c` is lost. -/
theorem nearestOp_compactLabels_lost {c : EditOp} (hl : getOperation l = .op c)
    (hno : ∀ m ∈ ls, ∀ o, getOperation m ≠ .op o) :
    nearestOp none (compactLabels (some c) (l :: ls)) = none := by
  have hlab : compactLabel (nearestOp (some c) ls) l = dropOpAttr l := by
    simp only [compactLabel, hl, if_pos (nearestOp_none hno)]
  have hrest : OutermostNot c ls := by
    intro left right m heq _ hm
    exact hno m (by simp [heq]) c hm
  rw [compactLabels, hlab, nearestOp_no_op (by simp [getOperation_dropOpAttr]),
    nearestOp_compactLabels_cast hrest, nearestOp_none hno]

/-! ### Paths in the document -/

theorem compactChildren_getElem?_of {supreme : Option EditOp} {cs cs' : List Node}
    (h : compactChildren supreme cs = some cs') (i : Nat) {c : Node} (hc : cs[i]? = some c) :
    ∃ c', cs'[i]? = some c' ∧ compactEditOperationsR supreme c = some c' := by
  induction cs generalizing cs' i with
  | nil => simp at hc
  | cons c₀ cs ih =>
    simp only [compactChildren] at h
    split at h
    · simp at h
    · next c₁ hc₁ =>
        obtain ⟨cs₁, hcs₁, rfl⟩ := Option.map_eq_some_iff.mp h
        cases i with
        | zero =>
          obtain rfl : c₀ = c := by simpa using hc
          exact ⟨c₁, rfl, hc₁⟩
        | succ i => simpa using ih hcs₁ i (by simpa using hc)

/-- What is left of a node, and what its children inherit. -/
theorem compactEditOperationsR_eq {supreme : Option EditOp} {n' : Node}
    (h : compactEditOperationsR supreme n = some n') :
    n'.label = compactLabel supreme n.label ∧
      compactChildren (nearestOp supreme [n.label]) n.children = some n'.children := by
  cases n with
  | node l cs =>
    simp only [compactEditOperationsR] at h
    cases ho : getOperation l with
    | bad => simp [ho] at h
    | unset =>
      rw [ho] at h
      obtain ⟨cs', hcs', rfl⟩ := Option.map_eq_some_iff.mp h
      simp [compactLabel, nearestOp, ho, hcs']
    | op o =>
      rw [ho] at h
      obtain ⟨cs', hcs', rfl⟩ := Option.map_eq_some_iff.mp h
      simp [compactLabel, nearestOp, ho, hcs']

theorem nearestOp_cons (base : Option EditOp) (l : Label) (ls : List Label) :
    nearestOp (nearestOp base ls) [l] = nearestOp base (l :: ls) := by
  cases ho : getOperation l <;> simp only [nearestOp, ho]

/-- Below a compacted node every path is compacted. -/
theorem compact_focusIn {l : Loc} {n' : Node} {ctx' : List (Rose.Frame Label)}
    (h : compactEditOperationsR (nearestOp cast (ctx.map Rose.Frame.label)) n = some n')
    (hctx : ctx'.map Rose.Frame.label = compactLabels cast (ctx.map Rose.Frame.label))
    (hf : Rose.focusIn n ctx l = some (u, c)) :
    ∃ u' c', Rose.focusIn n' ctx' l = some (u', c') ∧
      Rose.path u' c' = compactLabels cast (Rose.path u c) := by
  induction l generalizing n n' ctx ctx' with
  | nil =>
    obtain ⟨rfl, rfl⟩ : n = u ∧ ctx = c := by simpa [Rose.focusIn] using hf
    refine ⟨n', ctx', rfl, ?_⟩
    rw [Rose.path, Rose.path, compactLabels, hctx, (compactEditOperationsR_eq h).1]
  | cons i l ih =>
    obtain ⟨hlab, hch⟩ := compactEditOperationsR_eq h
    simp only [Rose.focusIn] at hf ⊢
    split at hf
    · simp at hf
    · next d hd =>
        obtain ⟨d', hd', hdd⟩ := compactChildren_getElem?_of hch i hd
        simp only [hd']
        rw [nearestOp_cons] at hdd
        have hdown : compactEditOperationsR (nearestOp cast (List.map Rose.Frame.label
            (⟨n.children.take i, n.label, n.children.drop (i + 1)⟩ :: ctx))) d = some d' := hdd
        refine ih hdown ?_ hf
        simp only [List.map_cons, compactLabels, hctx, hlab]

/-- The path to a node ends at the top node that was entered. -/
theorem getLast?_path {l : Loc} (hf : Rose.focusIn n ctx l = some (u, c)) :
    (Rose.path u c).getLast? = (Rose.path n ctx).getLast? := by
  induction l generalizing n ctx with
  | nil =>
    obtain ⟨rfl, rfl⟩ : n = u ∧ ctx = c := by simpa [Rose.focusIn] using hf
    rfl
  | cons i l ih =>
    simp only [Rose.focusIn] at hf
    split at hf
    · simp at hf
    · next d hd =>
        rw [ih hf]
        simp [Rose.path]

theorem compactEditOperations_getElem?_of {noneCast : Option EditOp} {defop : DefOp} {d' : Doc}
    (h : compactEditOperations noneCast defop d = some d') (i : Nat) (hn : d[i]? = some n) :
    ∃ n', d'[i]? = some n' ∧
      (n.label.isElement = true ∧ compactEditOperationsR (defopCast noneCast defop) n = some n' ∨
        n.label.isElement = false ∧ n' = n) := by
  induction d generalizing d' i with
  | nil => simp at hn
  | cons m d ih =>
    simp only [compactEditOperations] at h
    split at h
    · next he =>
        split at h
        · simp at h
        · next m₁ hm₁ =>
            obtain ⟨d₁, hd₁, rfl⟩ := Option.map_eq_some_iff.mp h
            cases i with
            | zero =>
              obtain rfl : m = n := by simpa using hn
              exact ⟨m₁, rfl, .inl ⟨he, hm₁⟩⟩
            | succ i => simpa using ih hd₁ i (by simpa using hn)
    · next he =>
        obtain ⟨d₁, hd₁, rfl⟩ := Option.map_eq_some_iff.mp h
        cases i with
        | zero =>
          obtain rfl : m = n := by simpa using hn
          exact ⟨m, rfl, .inr ⟨by simpa using he, rfl⟩⟩
        | succ i => simpa using ih hd₁ i (by simpa using hn)

/-- The node is in a top element of the document, as every element is. -/
def InElement (n : Node) (ctx : List (Rose.Frame Label)) : Prop :=
  ∀ top, (Rose.path n ctx).getLast? = some top → top.isElement = true

/-- A path that starts at a top element is compacted, from what the cast
of the default operation gives. Other top nodes are left alone. -/
theorem compact_focus {noneCast : Option EditOp} {defop : DefOp} {d' : Doc}
    (h : compactEditOperations noneCast defop d = some d') {l : Loc}
    (hf : Rose.focus? d l = some (u, c)) :
    (∃ u' c', Rose.focus? d' l = some (u', c') ∧ InElement u c ∧
      Rose.path u' c' = compactLabels (defopCast noneCast defop) (Rose.path u c)) ∨
    (¬ InElement u c ∧ Rose.focus? d' l = some (u, c)) := by
  cases l with
  | nil => simp [Rose.focus?] at hf
  | cons i l =>
    simp only [Rose.focus?] at hf ⊢
    split at hf
    · simp at hf
    · next n hn =>
        have hlast : (Rose.path u c).getLast? = some n.label := getLast?_path hf
        obtain ⟨n', hn', ⟨he, hcomp⟩ | ⟨he, rfl⟩⟩ := compactEditOperations_getElem?_of h i hn
        · simp only [hn']
          have htop : compactEditOperationsR (nearestOp (defopCast noneCast defop)
              (([] : List (Rose.Frame Label)).map Rose.Frame.label)) n = some n' := hcomp
          have hnil : ([] : List (Rose.Frame Label)).map Rose.Frame.label =
              compactLabels (defopCast noneCast defop)
                (([] : List (Rose.Frame Label)).map Rose.Frame.label) := rfl
          obtain ⟨u', c', hf', hpath⟩ := compact_focusIn htop hnil hf
          refine .inl ⟨u', c', hf', ?_, hpath⟩
          intro top htop
          obtain rfl : n.label = top := by simpa [hlast] using htop
          exact he
        · simp only [hn']
          refine .inr ⟨fun hin => ?_, hf⟩
          simp [hin n'.label hlast] at he

/-! ### Meaning -/

/-- The operation that the default operation stands for; `none` is none of
the five. -/
def defaultMeaning : DefOp → Option EditOp
  | .merge => some .merge
  | .replace => some .replace
  | .none | .notset => none

/-- The effective operation of a node: its own, or that of the nearest
ancestor that has one, or the default. -/
def effectiveOp (defop : DefOp) (n : Node) (ctx : List (Rose.Frame Label)) : Option EditOp :=
  nearestOp (defaultMeaning defop) (Rose.path n ctx)

/-- The elements of a document are still there, with the same effective
operations. -/
def OperationsKept (defop : DefOp) (d d' : Doc) : Prop :=
  ∀ l n ctx, Rose.focus? d l = some (n, ctx) → n.label.isElement = true →
    ∃ n' ctx', Rose.focus? d' l = some (n', ctx') ∧ n'.label.isElement = true ∧
      effectiveOp defop n' ctx' = effectiveOp defop n ctx

/-- The values of `NC_EDIT_DEFOP_TYPE`. -/
def defopValue : DefOp → Nat
  | .notset => 0
  | .merge => 1
  | .replace => 2
  | .none => 3

/-- The operation with a value of `NC_EDIT_OP_TYPE`. -/
def opOfValue : Nat → Option EditOp
  | 1 => some .merge
  | 2 => some .replace
  | 3 => some .create
  | 4 => some .delete
  | 5 => some .remove
  | _ => none

/-- The operation with the value of `NC_EDIT_DEFOP_NONE`. -/
def libnetconfNoneCast : Option EditOp := opOfValue (defopValue .none)

/-- The cast goes through the values. -/
theorem defopCast_value (defop : DefOp) :
    defopCast libnetconfNoneCast defop = opOfValue (defopValue defop) := by
  cases defop <;> rfl

/-- No element with the operation `create` is without an operation above
it. -/
def NoOutermostCreate (d : Doc) : Prop :=
  ∀ l n ctx, Rose.focus? d l = some (n, ctx) → InElement n ctx →
    getOperation n.label = .op .create → ∃ f ∈ ctx, ∃ o, getOperation f.label = .op o

theorem outermostNot_of_noOutermostCreate (hd : NoOutermostCreate d) {l : Loc}
    (hf : Rose.focus? d l = some (n, ctx)) (hin : InElement n ctx) :
    OutermostNot .create (Rose.path n ctx) := by
  intro left right m heq hno hm
  cases left with
  | nil =>
    obtain ⟨rfl, rfl⟩ : n.label = m ∧ ctx.map Rose.Frame.label = right := by
      simpa [Rose.path] using heq
    obtain ⟨f, hmem, o, ho⟩ := hd l n ctx hf hin hm
    exact hno f.label (List.mem_map_of_mem hmem) o ho
  | cons l₀ left =>
    -- the label belongs to an ancestor
    obtain ⟨-, hctx⟩ : n.label = l₀ ∧ ctx.map Rose.Frame.label = left ++ m :: right := by
      simpa [Rose.path] using heq
    obtain ⟨inner, rest, rfl, -, hrest⟩ := List.map_eq_append_iff.mp hctx
    obtain ⟨f, outer, rfl, rfl, rfl⟩ := List.map_eq_cons_iff.mp hrest
    obtain ⟨l', t, ht, hlab⟩ := Rose.exists_focus?_of_frame hf
    have hin' : InElement t outer := by
      intro top htop
      refine hin top ?_
      rw [Rose.path, hlab] at htop
      rw [Rose.path, List.map_append, List.map_cons, ← List.cons_append, List.getLast?_append,
        htop, Option.some_or]
    obtain ⟨g, hmem, o, ho⟩ := hd l' t outer ht hin' (hlab ▸ hm)
    exact hno g.label (List.mem_map_of_mem hmem) o ho

theorem isElement_of_op (h : getOperation l = .op o) : l.isElement = true := by
  cases l with
  | element => rfl
  | _ => simp [getOperation, opAttr, getNsProp, Label.attrs] at h

theorem isElement_compactLabel (supreme : Option EditOp) (l : Label) :
    (compactLabel supreme l).isElement = l.isElement := by
  rw [compactLabel]
  split
  · split
    · exact isElement_dropOpAttr l
    · rfl
  · rfl

/-- The compaction keeps the effective operations, unless the default
operation is `none` and the document has an outermost `create`, which is
then taken for a repetition of the default. -/
theorem compaction_keeps_operations_iff {defop : DefOp} {d d' : Doc}
    (h : compactEditOperations libnetconfNoneCast defop d = some d') :
    OperationsKept defop d d' ↔ (defop = .none → NoOutermostCreate d) := by
  constructor
  · rintro hkept rfl l n ctx hf hin hop
    by_contra hex
    have hno : ∀ m ∈ ctx.map Rose.Frame.label, ∀ o, getOperation m ≠ .op o := by
      intro m hm o ho
      obtain ⟨f, hmem, rfl⟩ := List.mem_map.mp hm
      exact hex ⟨f, hmem, o, ho⟩
    obtain ⟨n', ctx', hf', -, heff⟩ := hkept l n ctx hf (isElement_of_op hop)
    rcases compact_focus h hf with ⟨u', c', hu', -, hpath⟩ | ⟨hout, -⟩
    · obtain ⟨rfl, rfl⟩ : u' = n' ∧ c' = ctx' := by simpa using hu'.symm.trans hf'
      have hlost : effectiveOp .none u' c' = none := by
        rw [effectiveOp, hpath]
        exact nearestOp_compactLabels_lost hop hno
      rw [hlost, effectiveOp, Rose.path, nearestOp_op hop] at heff
      simp at heff
    · exact hout hin
  · intro hcond l n ctx hf he
    rcases compact_focus h hf with ⟨u', c', hu', hin, hpath⟩ | ⟨-, hsame⟩
    · refine ⟨u', c', hu', ?_, ?_⟩
      · have hlab : u'.label = compactLabel _ n.label := (List.cons_eq_cons.mp hpath).1
        rw [hlab, isElement_compactLabel]
        exact he
      · rw [effectiveOp, effectiveOp, hpath]
        cases defop with
        | none =>
          exact nearestOp_compactLabels_cast (outermostNot_of_noOutermostCreate (hcond rfl) hf hin)
        | merge | replace | notset => exact nearestOp_compactLabels _ _
    · exact ⟨n, ctx, hsame, he, rfl⟩

/-- An edit that creates the resources of a switch. -/
def createResources : Doc :=
  [elem "capable-switch" none
    [.node (.element "resources" none [⟨some ncNsBase10, "operation", "create"⟩]) []]]

/-- With the default operation `merge` the `create` stays. -/
theorem compaction_keeps_operations_merge :
    OperationsKept .merge createResources createResources := by
  have hcompact : compactEditOperations libnetconfNoneCast .merge createResources =
      some createResources := by decide
  exact (compaction_keeps_operations_iff hcompact).mpr nofun

/-- With the default operation `none` the compaction drops it: the element
that was to be created has no operation any more. -/
theorem compaction_loses_create :
    compactEditOperations libnetconfNoneCast .none createResources =
      some [elem "capable-switch" none [elem "resources" none []]] ∧
    ¬ OperationsKept .none createResources
      [elem "capable-switch" none [elem "resources" none []]] := by
  refine ⟨by decide, fun hkept => ?_⟩
  obtain ⟨n', ctx', hf', -, heff⟩ := hkept [0, 0]
    (.node (.element "resources" none [⟨some ncNsBase10, "operation", "create"⟩]) [])
    [⟨[], .element "capable-switch" none [], []⟩] rfl rfl
  obtain ⟨rfl, rfl⟩ : elem "resources" none [] = n' ∧
      [(⟨[], .element "capable-switch" none [], []⟩ : Rose.Frame Label)] = ctx' := by
    have hfoc : Rose.focus? [elem "capable-switch" none [elem "resources" none []]] [0, 0] =
        some (elem "resources" none [], [⟨[], .element "capable-switch" none [], []⟩]) := rfl
    simpa using hfoc.symm.trans hf'
  exact absurd heff (by decide)

end OfConfig.Proofs
