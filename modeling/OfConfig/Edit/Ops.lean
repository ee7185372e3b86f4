import OfConfig.Edit.Match

/-!
# `OfConfig.Edit.Ops`: operation attributes

The `operation` attributes of an edit document: reading them
(`get_operation`, `get_operation_elements`), the checks made before
anything is edited (`check_edit_ops_hierarchy`, `check_edit_ops`) and
the removal of redundant ones (`compact_edit_operations`).
-/

set_option autoImplicit false

namespace OfConfig.Edit

open OfConfig.Lib OfConfig.Xml

/-- The attribute value that names an operation. -/
def opString : EditOp → String
  | .merge => "merge"
  | .replace => "replace"
  | .create => "create"
  | .delete => "delete"
  | .remove => "remove"

/-- What `get_operation` finds on a node: no attribute, an operation,
or a value that is none. -/
inductive OpAttr where
  | unset
  | op (o : EditOp)
  | bad
deriving DecidableEq, Repr

/-- The operation attribute of a node, null if it has none. -/
def opAttr (node : Label) : Option String :=
  getNsProp node "operation" ncNsBase10

/-- `get_operation(node, NC_EDIT_DEFOP_NOTSET, …)` -/
def getOperation (node : Label) : OpAttr :=
  match opAttr node with
  | none => .unset
  | some v =>
    if v = "merge" then .op .merge
    else if v = "replace" then .op .replace
    else if v = "create" then .op .create
    else if v = "delete" then .op .delete
    else if v = "remove" then .op .remove
    else .bad

/-- The error of `get_operation` for an unknown value. -/
def badOperation : NcErr := { tag := .badAttr, badAttr := some "operation" }

/-- The node without its operation attribute. -/
def dropOpAttr (node : Label) : Label :=
  removeNsProp node "operation" ncNsBase10

/-- `get_operation_elements`: the positions of the elements with a given
operation, `//*[@nc:operation='…']` in document order. -/
def getOperationElements (op : EditOp) (edit : Doc) : List Loc :=
  ((Rose.positions edit).filter
    (fun p => p.2.label.isElement && opAttr p.2.label = some (opString op))).map Prod.fst

/-! ### Checks -/

/-- The loop of `check_edit_ops_hierarchy` over the ancestors: none of
them may have one of the operations of `conflict`. -/
def checkAncestorOps (conflict : List EditOp) : List Node → Outcome
  | [] => .success
  | p :: anc =>
    match getOperation p.label with
    | .bad => .failure (some badOperation)
    | .op o =>
      if o ∈ conflict then .failure (some { tag := .opFailed })
      else checkAncestorOps conflict anc
    | .unset => checkAncestorOps conflict anc

/-- `check_edit_ops_hierarchy` -/
def checkEditOpsHierarchy (edit : Label) (anc : List Node) (defop : DefOp) : Outcome :=
  match getOperation edit with
  | .unset => .success
  | .bad => .failure (some badOperation)
  | .op .delete | .op .remove =>
    if defop = .replace then .failure (some { tag := .opFailed })
    else checkAncestorOps [.create, .replace] anc
  | .op .create | .op .replace => checkAncestorOps [.delete, .remove] anc
  | .op .merge => .success

/-- The rule of `check_edit_ops` for one node. A node with a default
value gets a second chance in one of the with-defaults modes; but
`get_defval` returns a string literal and every way out of that branch
hands it to `xmlFree`. -/
def checkEditOp (op : EditOp) (mode : WdMode) (orig : Option Doc) (edit : Node)
    (anc : List Node) : Outcome :=
  let n := orig.bind (fun d => findElementEquiv d (edit :: anc))
  if op = .delete ∧ n.isNone then
    if mode = .all ∧ (getDefval edit.label (nameAt anc 0)).isSome then .crash
    else .failure (some { tag := .dataMissing })
  else if op = .create ∧ n.isSome then
    if mode = .trim ∧ (getDefval edit.label (nameAt anc 0)).isSome then .crash
    else .failure (some { tag := .dataExists })
  else .success

/-- The loop of `check_edit_ops` over the elements with the operation. -/
def checkEditOpsLoop (op : EditOp) (defop : DefOp) (mode : WdMode) (orig : Option Doc)
    (edit : Doc) : List Loc → Outcome
  | [] => .success
  | l :: ls =>
    match Rose.focus? edit l with
    | none => .crash
    | some (n, ctx) =>
      match checkEditOpsHierarchy n.label (Rose.ancestors n ctx) defop with
      | .success =>
        match checkEditOp op mode orig n (Rose.ancestors n ctx) with
        | .success => checkEditOpsLoop op defop mode orig edit ls
        | o => o
      | o => o

/-- `check_edit_ops` -/
def checkEditOps (op : EditOp) (defop : DefOp) (mode : WdMode) (orig : Option Doc)
    (edit : Doc) : Outcome :=
  checkEditOpsLoop op defop mode orig edit (getOperationElements op edit)

/-! ### Compaction -/

mutual
/-- `compact_edit_operations_r`: drop an operation that repeats the one
the node inherits. `none` stands for the crash on an unknown operation,
because `get_operation` is called without a place for its error. -/
def compactEditOperationsR (supreme : Option EditOp) : Node → Option Node
  | .node l cs =>
    match getOperation l with
    | .bad => none
    | .unset => (compactChildren supreme cs).map (.node l)
    | .op o =>
      (compactChildren (some o) cs).map
        (.node (if supreme = some o then dropOpAttr l else l))

/-- The recursion over the children. -/
def compactChildren (supreme : Option EditOp) : List Node → Option (List Node)
  | [] => some []
  | c :: cs =>
    match compactEditOperationsR supreme c with
    | none => none
    | some c' => (compactChildren supreme cs).map (c' :: ·)
end

/-- `(NC_EDIT_OP_TYPE) defop`. What the cast makes of
`NC_EDIT_DEFOP_NONE` depends on the numbers libnetconf gives to the two
enumerations; `noneCast` is the operation with the same number, if there
is one. -/
def defopCast (noneCast : Option EditOp) : DefOp → Option EditOp
  | .notset => none
  | .merge => some .merge
  | .replace => some .replace
  | .none => noneCast

/-- `compact_edit_operations`: the elements among the children of the
document, one after the other. -/
def compactEditOperations (noneCast : Option EditOp) (defop : DefOp) : Doc → Option Doc
  | [] => some []
  | n :: ns =>
    if n.label.isElement then
      match compactEditOperationsR (defopCast noneCast defop) n with
      | none => none
      | some n' => (compactEditOperations noneCast defop ns).map (n' :: ·)
    else (compactEditOperations noneCast defop ns).map (n :: ·)

end OfConfig.Edit
