import OfConfig.Lib.Rose

/-!
# `OfConfig.Xml.Node`: the part of a libxml2 tree the server works on

A node is a `Rose` tree over `Label`. The constructors of `Label` are
the node types a parsed configuration can hold, so a text node with a
namespace or an element with a content of its own cannot be written
down. `Label.name` and `Label.content` read a label the way the C code
reads `node->name` and `node->content` without asking for the type
first.

A document is the forest below the `xmlDoc`: comments and processing
instructions may stand beside the root element. Namespace declarations
are not kept; an element carries the `href` of its namespace.

The functions are the libxml2 calls the server makes:
`xmlDocGetRootElement`, `xmlGetNsProp`, `xmlRemoveProp`,
`xmlIsBlankNode`, `xmlNodeGetContent`, `xmlCopyNode`, `xmlAddChild`
and `xmlDocSetRootElement`.
-/

set_option autoImplicit false

namespace OfConfig.Xml

open OfConfig.Lib

/-- An attribute with the `href` of its namespace. -/
structure Attr where
  ns : Option String
  name : String
  value : String
deriving DecidableEq, Repr

/-- The types of nodes, each with its own data. -/
inductive Label where
  | element (name : String) (ns : Option String) (attrs : List Attr)
  | text (content : String)
  | cdata (content : String)
  | comment (content : String)
  | pi (target : String) (content : Option String)
deriving DecidableEq, Repr

/-- A node with everything below it. -/
abbrev Node := Rose Label

/-- The children of an `xmlDoc`. -/
abbrev Doc := Forest Label

namespace Label

/-- `node->name`. libxml2 names text and comment nodes itself; a CDATA
section has a null name, which equals no name the code compares with. -/
def name : Label → String
  | element n _ _ => n
  | text _ => "text"
  | cdata _ => ""
  | comment _ => "comment"
  | pi t _ => t

/-- `node->content`, null for an element. -/
def content : Label → Option String
  | element _ _ _ => none
  | text c => some c
  | cdata c => some c
  | comment c => some c
  | pi _ c => c

/-- `node->ns->href`, null when there is no namespace. -/
def ns : Label → Option String
  | element _ n _ => n
  | _ => none

/-- The attributes of an element. -/
def attrs : Label → List Attr
  | element _ _ as => as
  | _ => []

/-- `node->type == XML_ELEMENT_NODE`. -/
def isElement : Label → Bool
  | element _ _ _ => true
  | _ => false

/-- `node->type == XML_TEXT_NODE`. -/
def isText : Label → Bool
  | text _ => true
  | _ => false

@[simp] theorem isElement_element (n : String) (ns : Option String) (as : List Attr) :
    (element n ns as).isElement = true := rfl

@[simp] theorem isElement_text (c : String) : (text c).isElement = false := rfl

@[simp] theorem isText_element (n : String) (ns : Option String) (as : List Attr) :
    (element n ns as).isText = false := rfl

@[simp] theorem isText_text (c : String) : (text c).isText = true := rfl

/-- The label without its attributes. -/
def bare : Label → Label
  | element n ns _ => element n ns []
  | l => l

@[simp] theorem name_bare (l : Label) : l.bare.name = l.name := by
  cases l <;> rfl

@[simp] theorem ns_bare (l : Label) : l.bare.ns = l.ns := by
  cases l <;> rfl

@[simp] theorem isElement_bare (l : Label) : l.bare.isElement = l.isElement := by
  cases l <;> rfl

@[simp] theorem isText_bare (l : Label) : l.bare.isText = l.isText := by
  cases l <;> rfl

@[simp] theorem content_bare (l : Label) : l.bare.content = l.content := by
  cases l <;> rfl

theorem isElement_iff (l : Label) :
    l.isElement = true ↔ ∃ n ns as, l = element n ns as := by
  cases l <;> simp [isElement]

theorem isText_iff (l : Label) : l.isText = true ↔ ∃ c, l = text c := by
  cases l <;> simp [isText]

end Label

/-- Shorthand for an element node. -/
abbrev elem (name : String) (ns : Option String) (cs : List Node) : Node :=
  .node (.element name ns []) cs

/-- Shorthand for a text node. -/
abbrev txt (c : String) : Node :=
  .node (.text c) []

/-- `xmlDocGetRootElement`: the first element among the children of the
document. -/
def rootElement (d : Doc) : Option Node :=
  d.find? (fun n => n.label.isElement)

/-- A document as a parser makes it: at most one element at the top, and
nothing inside the other top-level nodes. -/
structure SingleRoot (d : Doc) : Prop where
  one : d.countP (fun n => n.label.isElement) ≤ 1
  leaf : ∀ n ∈ d, n.label.isElement = false → n.children = []

/-- The characters `xmlIsBlankNode` takes for white space. -/
def isBlankChar (c : Char) : Bool :=
  c = ' ' || c = '\t' || c = '\n' || c = '\r'

/-- `xmlIsBlankNode`: a text or CDATA node of white space only. -/
def isBlankNode (n : Node) : Bool :=
  match n.label with
  | .text c => c.toList.all isBlankChar
  | .cdata c => c.toList.all isBlankChar
  | _ => false

mutual
/-- `xmlNodeGetContent`: the texts below a node, in order. -/
def nodeGetContent : Node → String
  | .node (.element _ _ _) cs => nodesGetContent cs
  | .node l _ => l.content.getD ""

/-- The texts below a list of siblings. Comments and processing
instructions below an element do not count. -/
def nodesGetContent : Doc → String
  | [] => ""
  | .node (.comment _) _ :: ts => nodesGetContent ts
  | .node (.pi _ _) _ :: ts => nodesGetContent ts
  | t :: ts => nodeGetContent t ++ nodesGetContent ts
end

/-- `xmlGetNsProp(node, name, ns)` -/
def getNsProp (l : Label) (name ns : String) : Option String :=
  (l.attrs.find? (fun a => a.name = name && a.ns = some ns)).map Attr.value

/-- `xmlRemoveProp(xmlHasNsProp(node, name, ns))`. An element has at most
one attribute of a name and namespace. -/
def removeNsProp (l : Label) (name ns : String) : Label :=
  match l with
  | .element n h as => .element n h (as.filter (fun a => !(a.name = name && a.ns = some ns)))
  | l => l

/-- `xmlCopyNode(node, 0)` with the namespace set again, as the server
does it: the bare element, without attributes and children. -/
def copyShallow (n : Node) : Node :=
  match n.label with
  | .element name ns _ => .node (.element name ns []) []
  | l => .node l []

/-- `xmlAddChild` on the children of the parent: a text node is joined
to a text node that is the last child, any other node is appended. -/
def addChild (cs : List Node) (c : Node) : List Node :=
  match c.label, cs.getLast? with
  | .text new, some (.node (.text old) ks) => cs.dropLast ++ [.node (.text (old ++ new)) ks]
  | _, _ => cs ++ [c]

/-- `xmlDocSetRootElement`: the new node takes the place of the root
element, or stands after the other nodes when there is none. -/
def setRootElement (d : Doc) (n : Node) : Doc :=
  match d.findIdx? (fun n => n.label.isElement) with
  | some i => d.set i n
  | none => d ++ [n]

end OfConfig.Xml
