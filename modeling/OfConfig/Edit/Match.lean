import OfConfig.Edit.Text
import OfConfig.Netconf
import OfConfig.Xml.Node

/-!
# `OfConfig.Edit.Match`: finding the equivalent of an edit node

The part of `edit-config.c` that decides which node of the datastore
an element of an edit document stands for: `nscmp`, `go2node`,
`get_key`, `is_key`, `matching_elements`, `find_element_equiv` and
`check_keys`.

The C functions follow `node->parent`. Here a node is given with the
list of its ancestors, innermost first; the document itself is not in
the list, so `[]` means that the parent is the `xmlDoc`. Where the code
reads the name of an ancestor that is not an element, the comparison is
false.
-/

set_option autoImplicit false

namespace OfConfig.Edit

open OfConfig.Lib OfConfig.Xml

/-- `node->parent->name`, `node->parent->parent->name`, … for the
ancestors of a node. -/
def nameAt (anc : List Node) (i : Nat) : Option String :=
  anc[i]?.map (fun n => n.label.name)

/-- `nscmp(reference, node) == 0`: the namespaces match. A reference
without a namespace, in the NETCONF base namespace or in an empty one
matches every node. -/
def nsMatch (reference node : Label) : Bool :=
  match reference.ns with
  | none => true
  | some href =>
    href = ncNsBase10 || (clrwspace href).toList.length = 0 || node.ns = some href

/-- `go2node`: the first child element of a given name. The namespace
is not looked at. -/
def go2node (cs : List Node) (name : String) : Option Node :=
  cs.find? (fun c => c.label.isElement && c.label.name = name)

@[simp] theorem go2node_nil (name : String) : go2node [] name = none := rfl

theorem go2node_cons (c : Node) (cs : List Node) (name : String) :
    go2node (c :: cs) name =
      if c.label.isElement = true ∧ c.label.name = name then some c else go2node cs name := by
  simp only [go2node, List.find?_cons]
  by_cases he : c.label.isElement = true
  · by_cases hn : c.label.name = name
    · simp [he, hn]
    · simp [he, hn]
  · simp [he]

/-- `get_key`: the content of the first node inside the key element,
null if there is none or if it is blank. -/
def getKey (parent : Option Node) (name : String) : Option String :=
  match parent with
  | none => none
  | some p =>
    match go2node p.children name with
    | none => none
    | some k =>
      match k.children with
      | [] => none
      | t :: _ => if isBlankNode t then none else t.label.content

/-- `get_defval`: the default value of a leaf. -/
def getDefval (node : Label) (parent : Option String) : Option String :=
  let name := node.name
  if name = "lost-connection-behavior" then some "failSecureMode"
  else if name = "port" ∧ parent = some "controller" then some "6633"
  else if name = "protocol" then some "tls"
  else if name = "checksum-present" ∨ name = "key-present" ∨ name = "auto-negotiate" then
    some "true"
  else if name = "no-receive" ∨ name = "no-forward" ∨ name = "no-packet-in" then some "false"
  else if name = "admin-state" then some "up"
  else none

/-- `is_key`: is the node the key of a list entry? -/
def isKey (node : Label) (parent : Option String) : Bool :=
  if node.name = "id" then parent = some "switch" || parent = some "controller"
  else if node.name = "table-id" then true
  else if node.name = "name" ∧ parent ≠ some "flow-table" then true
  else node.name = "resource-id" && parent ≠ some "flow-table"

/-- The three answers of `matching_elements`: 0, 1 and -1. -/
inductive Cmp where
  | differ
  | equal
  | error
deriving DecidableEq, Repr

/-- Is the node compared by the text of its first child, as an item of
a leaf-list is? -/
def comparesText (name : String) (parent : Option String) : Bool :=
  name = "queue" || name = "flow-table" || name = "rate" || name = "medium" ||
    (name = "port" && parent = some "resources")

/-- The key `matching_elements` looks for in a list entry, chosen by
the name of the node and of its grandparent. -/
def keyName (name : String) (grandparent : Option String) : Option String :=
  if name = "controller" ∨ name = "switch" then some "id"
  else if name = "port" ∧ grandparent = some "capable-switch" then some "name"
  else if name = "flow-table" ∧ grandparent = some "capable-switch" then some "table-id"
  else if (name = "queue" ∨ name = "owned-certificate" ∨ name = "external-certificate") ∧
      grandparent = some "capable-switch" then some "resource-id"
  else none

/-- `node->children != NULL && node->children->type == XML_TEXT_NODE` -/
def firstIsText (cs : List Node) : Bool :=
  match cs with
  | c :: _ => c.label.isText
  | [] => false

mutual
/-- `matching_elements(node1, node2)`, where `anc2` are the ancestors of
`node2`. -/
def matchingElements : Node → Node → List Node → Cmp
  | .node l1 cs1, node2, anc2 =>
    let l2 := node2.label
    if l1.isText && l2.isText then
      if clrwspace (l1.content.getD "") = clrwspace (l2.content.getD "") then .equal
      else .differ
    else if !l1.isElement || !l2.isElement then .differ
    else if l1.name ≠ l2.name then .differ
    else if !nsMatch l1 l2 then .differ
    else if comparesText l2.name (nameAt anc2 0) && firstIsText cs1 &&
        firstIsText node2.children then
      matchingFirst cs1 node2.children (node2 :: anc2)
    else
      match keyName l2.name (nameAt anc2 1) with
      | none => .equal
      | some key =>
        match go2node node2.children key with
        | none => .differ
        | some key2 => matchingKey key cs1 key2 (node2 :: anc2)

/-- `matching_elements(node1->children, node2->children)`: the two first
children, an error when one of them is missing. -/
def matchingFirst : List Node → List Node → List Node → Cmp
  | c1 :: _, c2 :: _, anc2 => matchingElements c1 c2 anc2
  | _, _, _ => .error

/-- The comparison of the keys: `key1` is searched among the children of
`node1`, `key2` has been found already. -/
def matchingKey (key : String) : List Node → Node → List Node → Cmp
  | [], _, _ => .differ
  | .node l1 ks1 :: rest, key2, anc2 =>
    if l1.isElement && l1.name = key then matchingFirst ks1 key2.children (key2 :: anc2)
    else matchingKey key rest key2 anc2
end

@[simp] theorem matchingFirst_cons_cons (c1 c2 : Node) (cs1 cs2 anc2 : List Node) :
    matchingFirst (c1 :: cs1) (c2 :: cs2) anc2 = matchingElements c1 c2 anc2 := by
  rw [matchingFirst]

@[simp] theorem matchingFirst_nil_left (cs2 anc2 : List Node) :
    matchingFirst [] cs2 anc2 = .error := by
  simp [matchingFirst]

@[simp] theorem matchingFirst_nil_right (cs1 anc2 : List Node) :
    matchingFirst cs1 [] anc2 = .error := by
  cases cs1 <;> simp [matchingFirst]

/-- The search of `matchingKey` is `go2node`. -/
theorem matchingKey_eq (key : String) (cs1 : List Node) (key2 : Node) (anc2 : List Node) :
    matchingKey key cs1 key2 anc2 =
      match go2node cs1 key with
      | none => .differ
      | some key1 => matchingFirst key1.children key2.children (key2 :: anc2) := by
  induction cs1 with
  | nil => simp [matchingKey, go2node]
  | cons c cs1 ih =>
    cases c with
    | node l1 ks1 =>
      rw [matchingKey, go2node_cons]
      by_cases hc : l1.isElement = true ∧ l1.name = key
      · simp [hc]
      · rw [if_neg (by simpa using hc), if_neg (by simpa using hc), ih]

/-- A node of the datastore as `find_element_equiv` returns it: where it
is, the node itself and its ancestors. -/
structure Found where
  loc : Loc
  node : Node
  anc : List Node

/-- The loop of `find_element_equiv` over the children of one node: the
first one that does not differ, with its index. An error of
`matching_elements` counts as a match. -/
def findMatch (edit : Node) (anc2 : List Node) : Nat → List Node → Option (Nat × Node)
  | _, [] => none
  | i, n :: ns =>
    if matchingElements edit n anc2 = .differ then findMatch edit anc2 (i + 1) ns
    else some (i, n)

/-- `find_element_equiv`: the edit node is given with its ancestors,
innermost first. -/
def findElementEquiv (orig : Doc) : List Node → Option Found
  | [] => none
  | [edit] => (findMatch edit [] 0 orig).map (fun p => ⟨[p.1], p.2, []⟩)
  | edit :: parent :: anc =>
    match findElementEquiv orig (parent :: anc) with
    | none => none
    | some f =>
      (findMatch edit (f.node :: f.anc) 0 f.node.children).map
        (fun p => ⟨f.loc ++ [p.1], p.2, f.node :: f.anc⟩)

/-! ### Keys of an edit document -/

/-- The key an entry of a list below `resources` must have. -/
def resourceKey (name : String) : Option String :=
  if name = "port" then some "name"
  else if name = "queue" ∨ name = "owned-certificate" ∨ name = "external-certificate" then
    some "resource-id"
  else if name = "flow-table" then some "table-id"
  else none

/-- An entry of a list below `resources` that misses its key. -/
def missesResourceKey (l2 : Node) : Bool :=
  l2.label.isElement &&
    match resourceKey l2.label.name with
    | some key => (go2node l2.children key).isNone
    | none => false

/-- Does an element of the given name miss its `id`? -/
def missesId (name : String) (n : Node) : Bool :=
  n.label.isElement && n.label.name = name && (go2node n.children "id").isNone

/-- The first entry below a `switch` that misses its key: the switch
itself or one of its controllers. -/
def switchMissingKey (l2 : Node) : Option Node :=
  if !(l2.label.isElement && l2.label.name = "switch") then none
  else if missesId "switch" l2 then some l2
  else
    match go2node l2.children "controllers" with
    | none => none
    | some l3 => l3.children.find? (missesId "controller")

/-- The first list entry below a child of the root that misses its key. -/
def missingKeyBelow (l1 : Node) : Option Node :=
  if !l1.label.isElement then none
  else if l1.label.name = "resources" then l1.children.find? missesResourceKey
  else if l1.label.name = "logical-switches" then l1.children.findSome? switchMissingKey
  else none

/-- `check_keys` -/
def checkKeys (doc : Doc) : Outcome :=
  match rootElement doc with
  | none => .success
  | some root =>
    match root.children.findSome? missingKeyBelow with
    | none => .success
    | some enode =>
      .failure (some { tag := .badElem, badElem := some enode.label.name,
                       msg := some "The list element misses key." })

end OfConfig.Edit
