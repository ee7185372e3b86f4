import OfConfig.Edit.Running
import OfConfig.Lib.Loop

/-!
# `OfConfig.Edit.Engine`: `edit_operations`

The editing engine of `edit-config.c`: the operations on one node
(`edit_create`, `edit_replace`, `edit_remove`, `edit_merge`), each for
the local XML datastores and for the running configuration, and
`edit_operations`, which applies them phase after phase: default
replace, delete, remove, replace, create, merge, default merge.

A function on an edit node takes the node with its context and returns
what is left of the node (`none` when it was unlinked), the datastore
document and the state of the backend, also when it fails. A pointer of
an XPath node set is a position in the edit document; it moves when an
earlier node is unlinked, and dangles when the node itself went with an
earlier one.
-/

set_option autoImplicit false

namespace OfConfig.Edit

open OfConfig.Lib OfConfig.Xml

/-! ### Creating nodes in an XML datastore -/

/-- The number of children of the node at a position. -/
def childCount (d : Doc) (l : Loc) : Nat :=
  match Rose.focus? d l with
  | some (n, _) => n.children.length
  | none => 0

/-- The position a new root element takes. -/
def rootIndex (d : Doc) : Nat :=
  (d.findIdx? (fun n => n.label.isElement)).getD d.length

/-- `edit_create_r`: the equivalent of the edit node, made as a bare
copy, below copies of its ancestors, where it does not exist. The
document and the position of the node are returned. -/
def editCreateR (orig : Doc) : List Node → Doc × Loc
  | [] => (orig, [])
  | edit :: anc =>
    match findElementEquiv orig (edit :: anc) with
    | some f => (orig, f.loc)
    | none =>
      if anc.isEmpty then
        (setRootElement orig (copyShallow edit), [rootIndex orig])
      else
        let p := editCreateR orig anc
        (Rose.modifyChildren (addChild · (copyShallow edit)) p.2 p.1,
          p.2 ++ [childCount p.1 p.2])

/-- `edit_create` on an XML datastore: a deep copy of the edit node
below the equivalent of its parent, or as the root. -/
def editCreateXml (orig : Doc) (edit : Node) (anc : List Node) : Doc :=
  if anc.isEmpty then setRootElement orig edit
  else
    let p := editCreateR orig anc
    Rose.modifyChildren (addChild · edit) p.2 p.1

/-! ### The operations on one edit node -/

variable {σ : Type}

/-- What an operation on an edit node leaves: the outcome, the edit node
if it is still linked, the datastore document and the backend. -/
structure Edited (σ : Type) where
  out : Outcome
  left : Option Node
  orig : Doc
  world : σ

/-- `edit_create` -/
def editCreate (running : Bool) (B : Backend σ) (node : Node)
    (ctx : List (Rose.Frame Label)) (orig : Doc) (s : σ) : Edited σ :=
  if running then
    let r := editCreateRunning B node ctx s
    ⟨r.out.outcome, r.left, orig, r.world⟩
  else
    let edit : Node := .node (dropOpAttr node.label) node.children
    ⟨.success, none, editCreateXml orig edit (Rose.ancestors edit ctx), s⟩

/-- `edit_delete` on the node of the datastore document at a position. -/
def editDeleteAt (running : Bool) (B : Backend σ) (l : Loc) (orig : Doc) (s : σ) :
    Outcome × Doc × σ :=
  if running then
    match Rose.focus? orig l with
    | none => (.success, orig, s)
    | some (n, ctx) =>
      let r := editDelete B n ctx s
      (r.out.outcome, Rose.modify (fun _ => r.left.toList) l orig, r.world)
  else (.success, Rose.unlink l orig, s)

/-- `edit_replace` with an edit node. -/
def editReplace (running : Bool) (B : Backend σ) (node : Node)
    (ctx : List (Rose.Frame Label)) (orig : Doc) (s : σ) : Edited σ :=
  match findElementEquiv orig (Rose.chain node ctx) with
  | none => editCreate running B node ctx orig s
  | some f =>
    match editDeleteAt running B f.loc orig s with
    | (.success, d, s') => editCreate running B node ctx d s'
    | (o, d, s') => ⟨o, some node, d, s'⟩

/-- `edit_replace` with a null edit node: the first node of the document
is deleted, or everything in the OVSDB when there is none. -/
def editReplaceEmpty (B : Backend σ) (orig : Doc) (s : σ) : Outcome × σ :=
  if orig.isEmpty then
    let r := B.delAll s
    (r.1.outcome, r.2)
  else
    let r := editDeleteAt true B [0] orig s
    (r.1, r.2.2)

/-- One round of `while ((old = find_element_equiv(…)) != NULL)`: delete
the equivalent. -/
def deleteRound (running : Bool) (B : Backend σ) (chain : List Node) (st : Doc × σ) :
    Loop.Step (Doc × σ) (Outcome × Doc × σ) :=
  match findElementEquiv st.1 chain with
  | none => .exit (.success, st.1, st.2)
  | some f =>
    match editDeleteAt running B f.loc st.1 st.2 with
    | (.success, d, s') => .again (d, s')
    | r => .exit r

/-- The loop that deletes all equivalents of an edit node. -/
def deleteAll (fuel : Nat) (running : Bool) (B : Backend σ) (chain : List Node) (orig : Doc)
    (s : σ) : Outcome × Doc × σ :=
  (Loop.run (deleteRound running B chain) fuel (orig, s)).getD (.timeout, orig, s)

/-- `edit_remove`: delete all equivalents, then the edit node. -/
def editRemove (fuel : Nat) (running : Bool) (B : Backend σ) (node : Node)
    (ctx : List (Rose.Frame Label)) (orig : Doc) (s : σ) : Edited σ :=
  let r := deleteAll fuel running B (Rose.chain node ctx) orig s
  ⟨r.1, if r.1 = .success then none else some node, r.2.1, r.2.2⟩

/-- One element of the delete phase: as `edit_remove`, but there has to
be an equivalent. -/
def editDeleteOp (fuel : Nat) (running : Bool) (B : Backend σ) (node : Node)
    (ctx : List (Rose.Frame Label)) (orig : Doc) (s : σ) : Edited σ :=
  match findElementEquiv orig (Rose.chain node ctx) with
  | none => ⟨.failure (some { tag := .dataMissing }), some node, orig, s⟩
  | some _ => editRemove fuel running B node ctx orig s

/-- What the loop of `edit_merge` over the children leaves. -/
structure MergedChildren (σ : Type) where
  out : Outcome
  left : List Node
  orig : Doc
  world : σ

mutual
/-- `edit_merge` -/
def editMerge (running : Bool) (B : Backend σ) :
    Node → List (Rose.Frame Label) → Doc → σ → Edited σ
  | .node l cs, ctx, orig, s =>
    match findElementEquiv orig (Rose.chain (.node l cs) ctx) with
    | none => editCreate running B (.node l cs) ctx orig s
    | some _ =>
      -- a key is left where it is
      if isKey l (nameAt (Rose.ancestors (.node l cs) ctx) 0) then
        ⟨.success, some (.node l cs), orig, s⟩
      else if firstIsText cs then editReplace running B (.node l cs) ctx orig s
      else
        let r := editMergeChildren running B l [] cs ctx orig s
        ⟨r.out, if r.out = .success then none else some (.node l r.left), r.orig, r.world⟩

/-- The loop of `edit_merge` over the children; `done` are the ones
before, of which only keys are left. -/
def editMergeChildren (running : Bool) (B : Backend σ) (l : Label) (done : List Node) :
    List Node → List (Rose.Frame Label) → Doc → σ → MergedChildren σ
  | [], _, orig, s => ⟨.success, done, orig, s⟩
  | c :: rest, ctx, orig, s =>
    if isKey c.label (some l.name) then
      editMergeChildren running B l (done ++ [c]) rest ctx orig s
    else
      let r := editMerge running B c (⟨done, l, rest⟩ :: ctx) orig s
      match r.out with
      | .success =>
        editMergeChildren running B l (done ++ r.left.toList) rest ctx r.orig r.world
      | o => ⟨o, done ++ r.left.toList ++ rest, r.orig, r.world⟩
end

section

variable {running : Bool} {B : Backend σ} {n : Node} {ctx : List (Rose.Frame Label)}
  {orig : Doc} {s : σ}

/-- A node without an equivalent is created. -/
theorem editMerge_of_none (hf : findElementEquiv orig (Rose.chain n ctx) = none) :
    editMerge running B n ctx orig s = editCreate running B n ctx orig s := by
  cases n with
  | node l cs => simp only [editMerge, hf]

/-- A key that has an equivalent is left alone. -/
theorem editMerge_of_key {f : Found} (hf : findElementEquiv orig (Rose.chain n ctx) = some f)
    (hk : isKey n.label (nameAt (Rose.ancestors n ctx) 0) = true) :
    editMerge running B n ctx orig s = ⟨.success, some n, orig, s⟩ := by
  cases n with
  | node l cs =>
    rw [Rose.label_node] at hk
    simp only [editMerge, hf, hk, if_true]

/-- A leaf that has an equivalent is replaced. -/
theorem editMerge_of_text {f : Found} (hf : findElementEquiv orig (Rose.chain n ctx) = some f)
    (hk : isKey n.label (nameAt (Rose.ancestors n ctx) 0) = false)
    (ht : firstIsText n.children = true) :
    editMerge running B n ctx orig s = editReplace running B n ctx orig s := by
  cases n with
  | node l cs =>
    rw [Rose.label_node] at hk
    rw [Rose.children_node] at ht
    simp only [editMerge, hf, hk, ht, if_true, Bool.false_eq_true, if_false]

/-- Any other node that has an equivalent is merged child by child. -/
theorem editMerge_of_children {f : Found}
    (hf : findElementEquiv orig (Rose.chain n ctx) = some f)
    (hk : isKey n.label (nameAt (Rose.ancestors n ctx) 0) = false)
    (ht : firstIsText n.children = false) :
    editMerge running B n ctx orig s =
      let r := editMergeChildren running B n.label [] n.children ctx orig s
      ⟨r.out, if r.out = .success then none else some (.node n.label r.left), r.orig, r.world⟩ := by
  cases n with
  | node l cs =>
    rw [Rose.label_node] at hk
    rw [Rose.children_node] at ht
    simp only [editMerge, hf, hk, ht, Bool.false_eq_true, if_false]
    rfl

end

/-! ### The phases -/

/-- The two documents and the backend while `edit_operations` runs. -/
structure EditState (σ : Type) where
  orig : Doc
  edit : Doc
  world : σ

/-- An operation on one edit node. -/
abbrev EditStep (σ : Type) :=
  Node → List (Rose.Frame Label) → Doc → σ → Edited σ

/-- Where a node of the node set is after the nodes at `removed` have
been unlinked, one after the other; `none` when the pointer dangles. -/
def trackLoc (removed : List Loc) (l : Loc) : Option Loc :=
  removed.foldl (fun l r => l.bind (Rose.afterUnlink r)) (some l)

/-- The loop of a phase over its node set. -/
def phaseLoop (step : EditStep σ) (removed : List Loc) :
    List Loc → EditState σ → Outcome × EditState σ
  | [], st => (.success, st)
  | l :: ls, st =>
    match trackLoc removed l with
    | none => (.crash, st)
    | some l' =>
      match Rose.focus? st.edit l' with
      | none => (.crash, st)
      | some (n, ctx) =>
        let r := step n ctx st.orig st.world
        let st' : EditState σ :=
          ⟨r.orig, Rose.modify (fun _ => r.left.toList) l' st.edit, r.world⟩
        match r.out with
        | .success =>
          phaseLoop step (if r.left.isNone then removed ++ [l'] else removed) ls st'
        | o => (o, st')

/-- One phase of `edit_operations`: all elements with an operation, in
document order. -/
def opPhase (op : EditOp) (step : EditStep σ) (st : EditState σ) : Outcome × EditState σ :=
  phaseLoop step [] (getOperationElements op st.edit) st

/-- One round of the default replace. The result of `edit_replace` is
not looked at. -/
def defaultReplaceRound (running : Bool) (B : Backend σ) (st : EditState σ) :
    Loop.Step (EditState σ) (Outcome × EditState σ) :=
  match st.edit with
  | [] => .exit (.success, st)
  | n :: rest =>
    let r := editReplace running B n [] st.orig st.world
    let st' : EditState σ := ⟨r.orig, r.left.toList ++ rest, r.world⟩
    match r.out with
    | .success | .failure _ => .again st'
    | o => .exit (o, st')

/-- One round of the default merge. -/
def defaultMergeRound (running : Bool) (B : Backend σ) (st : EditState σ) :
    Loop.Step (EditState σ) (Outcome × EditState σ) :=
  match st.edit with
  | [] => .exit (.success, st)
  | n :: rest =>
    let r := editMerge running B n [] st.orig st.world
    let st' : EditState σ := ⟨r.orig, r.left.toList ++ rest, r.world⟩
    match r.out with
    | .success => .again st'
    | o => .exit (o, st')

/-- A loop over the children of the edit document. -/
def docLoop (fuel : Nat) (round : EditState σ → Loop.Step (EditState σ) (Outcome × EditState σ))
    (st : EditState σ) : Outcome × EditState σ :=
  (Loop.run round fuel st).getD (.timeout, st)

/-- The next phase, if the one before succeeded. -/
def andThen (r : Outcome × EditState σ) (f : EditState σ → Outcome × EditState σ) :
    Outcome × EditState σ :=
  match r.1 with
  | .success => f r.2
  | _ => r

/-- The label `error:` of `edit_operations`: a failure without an error
gets one. -/
def setOpFailed : Outcome → Outcome
  | .failure none => .failure (some { tag := .opFailed })
  | o => o

/-- `edit_operations` on an existing document. -/
def editOperations (fuel : Nat) (running : Bool) (B : Backend σ) (defop : DefOp)
    (st : EditState σ) : Outcome × EditState σ :=
  let r₀ := if defop = .replace then docLoop fuel (defaultReplaceRound running B) st
    else (.success, st)
  let r₁ := andThen r₀ (opPhase .delete (editDeleteOp fuel running B))
  let r₂ := andThen r₁ (opPhase .remove (editRemove fuel running B))
  let r₃ := andThen r₂ (opPhase .replace (editReplace running B))
  let r₄ := andThen r₃ (opPhase .create (editCreate running B))
  let r₅ := andThen r₄ (opPhase .merge (editMerge running B))
  let r₆ := andThen r₅ (fun st =>
    if defop = .merge ∨ defop = .notset then docLoop fuel (defaultMergeRound running B) st
    else (.success, st))
  (setOpFailed r₆.1, r₆.2)

end OfConfig.Edit
