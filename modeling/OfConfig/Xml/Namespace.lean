import OfConfig.Lib.Linked
import OfConfig.Lib.Loop
import OfConfig.Xml.Node

/-!
# `OfConfig.Xml.Namespace`: namespace definitions

In a libxml2 tree a namespace is defined once, in a record on an element, and
elements and attributes point to the record. `NsNode` is a tree with these
pointers, and `NsHeap` has the records and the list `nsDef` of the topmost
element. `clrns` of `edit-config.c` takes records out of this list.

`NsNode.resolve` follows the pointers and gives the tree of `OfConfig.Xml.Node`,
in which an element carries the `href` itself.
-/

set_option autoImplicit false

namespace OfConfig.Xml

open OfConfig.Lib

/-- `xmlNs` -/
structure XmlNs where
  next : Option Nat
  href : Option String
deriving DecidableEq, Repr

/-- `xmlAttr` -/
structure NsAttr where
  ns : Option Nat
  name : String
  value : String
deriving DecidableEq, Repr

/-- A node with everything below it. Nodes of the other types have no namespace,
no attributes and no children. -/
inductive NsNode where
  | element (name : String) (ns : Option Nat) (properties : List NsAttr)
      (children : List NsNode)
  | other (label : { l : Label // l.isElement = false })

namespace NsNode

/-- `node->type == XML_ELEMENT_NODE` -/
def isElement : NsNode → Bool
  | element _ _ _ _ => true
  | other _ => false

/-- `node->ns` -/
def ns : NsNode → Option Nat
  | element _ ns _ _ => ns
  | other _ => none

/-- `node->properties` -/
def properties : NsNode → List NsAttr
  | element _ _ properties _ => properties
  | other _ => []

/-- `node->children` -/
def children : NsNode → List NsNode
  | element _ _ _ children => children
  | other _ => []

/-- Induction over a tree, with the hypothesis for every child. -/
@[elab_as_elim]
theorem induct {P : NsNode → Prop}
    (element : ∀ name ns properties children, (∀ c ∈ children, P c) →
      P (.element name ns properties children))
    (other : ∀ label, P (.other label)) (t : NsNode) : P t :=
  @NsNode.rec P (fun cs => ∀ c ∈ cs, P c) element other
    (fun _ hc => absurd hc List.not_mem_nil)
    (fun _ _ hc hcs _ hd => (List.mem_cons.mp hd).elim (fun h => h ▸ hc) (hcs _))
    t

end NsNode

/-! ### Usage -/

mutual
/-- `find_namespace_usage` -/
def findNamespaceUsage (ns : Nat) : NsNode → Bool
  | .element _ nodeNs properties children =>
    if nodeNs = some ns then true
    else if properties.any (fun prop => prop.ns = some ns) then true
    else findNamespaceUsageIn ns children
  | .other _ => false

/-- The loop over the children. -/
def findNamespaceUsageIn (ns : Nat) : List NsNode → Bool
  | [] => false
  | child :: children =>
    if child.isElement && findNamespaceUsage ns child then true
    else findNamespaceUsageIn ns children
end

/-! ### Removal -/

/-- The records, and `nsDef` of the topmost element. -/
structure NsHeap where
  nsDef : Option Nat
  mem : Nat → Option XmlNs

namespace NsHeap

/-- `ns->next = next` -/
def setNext (h : NsHeap) (ns : Nat) (next : Option Nat) : Option NsHeap :=
  (h.mem ns).map (fun d =>
    { h with mem := Function.update h.mem ns (some { d with next := next }) })

/-- `xmlFreeNs` -/
def xmlFreeNs (h : NsHeap) (ns : Nat) : NsHeap :=
  { h with mem := Function.update h.mem ns none }

/-- Take a record out of the list, and the pointer to go on with. -/
def unlink (h : NsHeap) (prev : Option Nat) (ns : Nat) : Option (Option Nat × NsHeap) :=
  (h.mem ns).bind (fun d =>
    match prev with
    | none =>
      let h := ({ h with nsDef := d.next } : NsHeap).xmlFreeNs ns
      some (h.nsDef, h)
    | some p =>
      (h.setNext p d.next).bind (fun h =>
        let h := h.xmlFreeNs ns
        (h.mem p).map (fun e => (e.next, h))))

end NsHeap

/-- The variables of the loop in `clrns`. -/
structure ClrnsState where
  prev : Option Nat
  ns : Option Nat
  heap : NsHeap

/-- One round of the loop in `clrns`. It leaves with `none` when the code uses
a pointer to memory that is not allocated. -/
def clrnsRound (node : NsNode) (s : ClrnsState) : Loop.Step ClrnsState (Option NsHeap) :=
  match s.ns with
  | none => .exit (some s.heap)
  | some ns =>
    if findNamespaceUsage ns node = false then
      -- no one use the namespace - remove it
      match s.heap.unlink s.prev ns with
      | none => .exit none
      | some (next, heap) => .again { s with ns := next, heap := heap }
    else
      -- check another namespace definition
      match s.heap.mem ns with
      | none => .exit none
      | some d => .again { s with prev := some ns, ns := d.next }

/-- `clrns`, with a bound for the rounds of its loop. -/
def clrns (rounds : Nat) (node : Option NsNode) (h : NsHeap) : Option (Option NsHeap) :=
  match node with
  | none => some (some h)
  | some node =>
    if node.isElement = false then some (some h)
    else Loop.run (clrnsRound node) rounds ⟨none, h.nsDef, h⟩

/-! ### The tree without pointers -/

/-- `ns->href`, for a pointer that may be null; `none` where the pointer leads
to nothing. -/
def NsHeap.href (h : NsHeap) : Option Nat → Option (Option String)
  | none => some none
  | some ns => (h.mem ns).map XmlNs.href

/-- An attribute with the `href` of its namespace. -/
def NsAttr.resolve (h : NsHeap) (a : NsAttr) : Option Attr :=
  (h.href a.ns).map (fun ns => ⟨ns, a.name, a.value⟩)

mutual
/-- The tree with the `href` of the namespaces; `none` when a pointer leads to
nothing. -/
def NsNode.resolve (h : NsHeap) : NsNode → Option Node
  | .element name ns properties children =>
    (h.href ns).bind (fun ns =>
      (properties.mapM (NsAttr.resolve h)).bind (fun attrs =>
        (NsNode.resolveAll h children).map (fun cs => .node (.element name ns attrs) cs)))
  | .other label => some (.node label.1 [])

/-- The children with the `href` of the namespaces. -/
def NsNode.resolveAll (h : NsHeap) : List NsNode → Option (List Node)
  | [] => some []
  | c :: cs => (c.resolve h).bind (fun c => (NsNode.resolveAll h cs).map (c :: ·))
end

end OfConfig.Xml
