import OfConfig.Lib.Address
import OfConfig.Ovs.Port
import OfConfig.Proofs.Identity

/-!
# `OfConfig.Proofs.Addresses`: which element a path of identities names

An element of a configuration is told apart from its siblings by its name, a
list entry also by its key and an item of a leaf-list by its text (`Ident`).
`Clean` says of the children of a node that they can be told apart like that:
entries have a key with a text, items a text, and no two elements among them
have one identity. This makes a document an `Addressing`, and a chain of edit
nodes that can be told apart in the same way (`Named`) a path in it
(`chainIds`).

* `matches_iff_ident`: between clean nodes `matching_elements` compares
  identities.
* `find_some`, `find_none`: `find_element_equiv` finds the node that the path
  of the edit node leads to, and nothing when the path leads to none.
-/

set_option autoImplicit false

namespace OfConfig.Proofs

open OfConfig.Lib OfConfig.Xml OfConfig.Edit OfConfig.Ovs

variable {anc : List Label} {n : Node} {v w : String}

/-! ### Texts and keys -/

/-- The text the children of a node begin with. -/
def headText (cs : List Node) : Option String :=
  match cs with
  | [] => none
  | c :: _ => if c.label.isText then c.label.content else none

/-- The text an element begins with. -/
def ownText (n : Node) : Option String := headText n.children

/-- The value an element holds: its text as it is compared, if it is not
blank. -/
def textValue (n : Node) : Option String :=
  (ownText n).bind (fun s => if s.toList.all isBlankChar then none else some (clrwspace s))

/-- The value of the key of an entry. -/
def keyValue (key : String) (n : Node) : Option String := (go2node n.children key).bind textValue

theorem headText_of_firstIsText (cs : List Node) : (headText cs).isSome = firstIsText cs := by
  cases cs with
  | nil => rfl
  | cons c cs =>
    rw [headText, firstIsText]
    split
    · next h =>
        obtain ⟨s, hs⟩ := (Label.isText_iff _).mp h
        rw [hs]
        rfl
    · next h => simpa using h

theorem firstIsText_of_ownText (h : ownText n = none) : firstIsText n.children = false := by
  rw [← headText_of_firstIsText, ← ownText, h]
  rfl

/-- A value belongs to a text that comes first. -/
theorem textValue_eq_some (h : textValue n = some v) :
    ∃ c rest s, n.children = c :: rest ∧ c.label = .text s ∧ v = clrwspace s ∧
      s.toList.all isBlankChar = false := by
  obtain ⟨s, hs, hv⟩ := Option.bind_eq_some_iff.mp h
  rw [ownText] at hs
  cases hch : n.children with
  | nil => simp [hch, headText] at hs
  | cons c rest =>
    rw [hch, headText] at hs
    split at hs
    · next htext =>
        obtain ⟨s', hs'⟩ := (Label.isText_iff _).mp htext
        obtain rfl : s' = s := by simpa [hs', Label.content] using hs
        split at hv
        · simp at hv
        · next hblank =>
            exact ⟨c, rest, s', rfl, hs', by simpa using hv.symm, by simpa using hblank⟩
    · simp at hs

theorem keyValue_eq_some {key : String} (h : keyValue key n = some v) :
    ∃ k, go2node n.children key = some k ∧ textValue k = some v :=
  Option.bind_eq_some_iff.mp h

/-! ### Identities -/

/-- `node->parent->name`, … for the labels above a node. -/
def nameUp (anc : List Label) (i : Nat) : Option String := anc[i]?.map Label.name

/-- What tells an element apart from its siblings: the name, and for a list
entry or an item of a leaf-list the key or the text. -/
structure Ident where
  name : String
  value : Option String
deriving DecidableEq, Repr

/-- The identity of an element below labels. -/
def identOf (anc : List Label) (n : Node) : Ident where
  name := n.label.name
  value :=
    match keyName n.label.name (nameUp anc 1) with
    | some key => keyValue key n
    | none => if comparesText n.label.name (nameUp anc 0) then textValue n else none

/-- Only elements have an identity. -/
def identAt (anc : List Label) (n : Node) : Option Ident :=
  if n.label.isElement then some (identOf anc n) else none

theorem identAt_eq_some {k : Ident} :
    identAt anc n = some k ↔ n.label.isElement = true ∧ identOf anc n = k := by
  rw [identAt]
  split
  · next h => simp [h]
  · next h => simp [h]

/-- An entry has its key and does not begin with a text, an item has a text. -/
structure Identified (anc : List Label) (n : Node) : Prop where
  entry : ∀ key, keyName n.label.name (nameUp anc 1) = some key →
    (keyValue key n).isSome = true ∧ ownText n = none
  item : keyName n.label.name (nameUp anc 1) = none →
    comparesText n.label.name (nameUp anc 0) = true → (textValue n).isSome = true

/-- The name is that of the key of the entry above. -/
def EntryKey : List Label → String → Prop
  | [], _ => False
  | p :: anc, name => keyName p.name (nameUp anc 1) = some name

/-- What is asked of a document besides that: its namespaces, and whether it is
plain. A plain document has elements and texts only, a text is the only child,
and what `is_key` takes for a key is the key of an entry. -/
structure Kind where
  ns : Option String → Prop
  plain : Prop

/-- Siblings that can be told apart. -/
structure Clean (K : Kind) (anc : List Label) (cs : List Node) : Prop where
  /-- Only elements have children. -/
  leaf : ∀ a ∈ anc.head?, a.isElement = false → cs = []
  /-- The root is a `capable-switch`. -/
  top : anc = [] → ∀ c ∈ cs, c.label.isText = false ∧
    (c.label.isElement = true → c.label.name = "capable-switch")
  ns : ∀ c ∈ cs, c.label.isElement = true → K.ns c.label.ns
  named : ∀ c ∈ cs, c.label.isElement = true → Identified anc c
  /-- A text comes first. -/
  text : ∀ c ∈ cs.tail, c.label.isText = false
  alone : K.plain → ∀ c ∈ cs, c.label.isText = true → cs = [c]
  markup : K.plain → ∀ c ∈ cs, c.label.isElement = true ∨ c.label.isText = true
  keys : K.plain → ∀ c ∈ cs, isKey c.label (nameUp anc 0) = true → EntryKey anc c.label.name
  tidy : cs.Pairwise (fun c d => ∀ k, identAt anc c = some k → identAt anc d ≠ some k)

instance (anc : List Label) (n : Node) : Decidable (Identified anc n) :=
  decidable_of_iff ((∀ key ∈ keyName n.label.name (nameUp anc 1),
      (keyValue key n).isSome = true ∧ ownText n = none) ∧
    (keyName n.label.name (nameUp anc 1) = none →
      comparesText n.label.name (nameUp anc 0) = true → (textValue n).isSome = true))
    ⟨fun h => ⟨h.1, h.2⟩, fun h => ⟨h.entry, h.item⟩⟩

instance (anc : List Label) (name : String) : Decidable (EntryKey anc name) :=
  match anc with
  | [] => inferInstanceAs (Decidable False)
  | p :: anc => inferInstanceAs (Decidable (keyName p.name (nameUp anc 1) = some name))

instance (K : Kind) [DecidablePred K.ns] [Decidable K.plain] (anc : List Label) (cs : List Node) :
    Decidable (Clean K anc cs) :=
  decidable_of_iff
    ((∀ a ∈ anc.head?, a.isElement = false → cs = []) ∧
      (anc = [] → ∀ c ∈ cs, c.label.isText = false ∧
        (c.label.isElement = true → c.label.name = "capable-switch")) ∧
      (∀ c ∈ cs, c.label.isElement = true → K.ns c.label.ns) ∧
      (∀ c ∈ cs, c.label.isElement = true → Identified anc c) ∧
      (∀ c ∈ cs.tail, c.label.isText = false) ∧
      (K.plain → ∀ c ∈ cs, c.label.isText = true → cs = [c]) ∧
      (K.plain → ∀ c ∈ cs, c.label.isElement = true ∨ c.label.isText = true) ∧
      (K.plain → ∀ c ∈ cs, isKey c.label (nameUp anc 0) = true → EntryKey anc c.label.name) ∧
      cs.Pairwise (fun c d => ∀ k ∈ identAt anc c, identAt anc d ≠ some k))
    ⟨fun ⟨h₁, h₂, h₃, h₄, h₅, h₆, h₇, h₈, h₉⟩ => ⟨h₁, h₂, h₃, h₄, h₅, h₆, h₇, h₈, h₉⟩,
      fun h => ⟨h.leaf, h.top, h.ns, h.named, h.text, h.alone, h.markup, h.keys, h.tidy⟩⟩

/-- Two nodes that look the same from outside. -/
structure Alike (anc : List Label) (c d : Node) : Prop where
  label : d.label = c.label
  text : ownText d = ownText c
  key : ∀ key, keyName c.label.name (nameUp anc 1) = some key → keyValue key d = keyValue key c

section

variable {anc : List Label} {c d : Node}

theorem Alike.refl (anc : List Label) (c : Node) : Alike anc c c := ⟨rfl, rfl, fun _ _ => rfl⟩

theorem textValue_congr (h : ownText d = ownText c) : textValue d = textValue c := by
  rw [textValue, textValue, h]

theorem Alike.identOf (h : Alike anc c d) : identOf anc d = identOf anc c := by
  simp only [Proofs.identOf, h.label, textValue_congr h.text, Ident.mk.injEq, true_and]
  cases hkey : keyName c.label.name (nameUp anc 1) with
  | none => rfl
  | some key => exact h.key key hkey

theorem Alike.identAt (h : Alike anc c d) : identAt anc d = identAt anc c := by
  rw [Proofs.identAt, Proofs.identAt, h.label, h.identOf]

theorem Alike.identified (h : Alike anc c d) (hc : Identified anc c) : Identified anc d where
  entry := by
    intro key hkey
    rw [h.label] at hkey
    rw [h.key key hkey, h.text]
    exact hc.entry key hkey
  item := by
    intro hnone hcmp
    rw [h.label] at hnone hcmp
    rw [textValue_congr h.text]
    exact hc.item hnone hcmp

end

/-! ### One of the siblings changes inside -/

section

variable {cs : List Node} {c d : Node} {j : Nat}

theorem headText_set (hc : cs[j]? = some c) (hlab : d.label = c.label) :
    headText (cs.set j d) = headText cs := by
  cases cs with
  | nil => simp at hc
  | cons e cs =>
    cases j with
    | zero =>
      obtain rfl : e = c := by simpa using hc
      simp [headText, hlab]
    | succ j => rfl

theorem bind_go2node_set (hc : cs[j]? = some c) (hlab : d.label = c.label)
    (htext : textValue d = textValue c) (key : String) :
    (go2node (cs.set j d) key).bind textValue = (go2node cs key).bind textValue := by
  induction cs generalizing j with
  | nil => simp at hc
  | cons e cs ih =>
    cases j with
    | zero =>
      obtain rfl : e = c := by simpa using hc
      rw [List.set_cons_zero, go2node_cons, go2node_cons, hlab]
      split
      · exact htext
      · rfl
    | succ j =>
      rw [List.set_cons_succ, go2node_cons, go2node_cons]
      split
      · rfl
      · exact ih (by simpa using hc)

theorem Alike.up {t : Node} (hc : t.children[j]? = some c) (h : Alike (t.label :: anc) c d) :
    Alike anc t (.node t.label (t.children.set j d)) where
  label := rfl
  text := headText_set hc h.label
  key := fun key _ => bind_go2node_set hc h.label (textValue_congr h.text) key

theorem Clean.set {K : Kind} (hc : cs[j]? = some c) (h : Alike anc c d) (hcs : Clean K anc cs) :
    Clean K anc (cs.set j d) := by
  have hmem : c ∈ cs := List.mem_of_getElem? hc
  constructor
  · intro a ha hel
    rw [hcs.leaf a ha hel]
    rfl
  · intro htop e he
    rcases List.mem_or_eq_of_mem_set he with he | rfl
    · exact hcs.top htop e he
    · rw [h.label]
      exact hcs.top htop c hmem
  · intro e he hel
    rcases List.mem_or_eq_of_mem_set he with he | rfl
    · exact hcs.ns e he hel
    · rw [h.label] at hel ⊢
      exact hcs.ns c hmem hel
  · intro e he hel
    rcases List.mem_or_eq_of_mem_set he with he | rfl
    · exact hcs.named e he hel
    · rw [h.label] at hel
      exact h.identified (hcs.named c hmem hel)
  · intro e he
    cases cs with
    | nil => simp at hc
    | cons f cs =>
      cases j with
      | zero => exact hcs.text e (by simpa using he)
      | succ j =>
        rw [List.set_cons_succ, List.tail_cons] at he
        rcases List.mem_or_eq_of_mem_set he with he | rfl
        · exact hcs.text e he
        · rw [h.label]
          exact hcs.text c (List.mem_of_getElem? (by simpa using hc))
  · intro hplain e he hel
    -- whichever of the two the text is, there is one child only
    have hsingle : cs = [c] := by
      rcases List.mem_or_eq_of_mem_set he with he | rfl
      · have hcs' := hcs.alone hplain e he hel
        rw [hcs'] at hmem ⊢
        rw [List.mem_singleton.mp hmem]
      · rw [h.label] at hel
        exact hcs.alone hplain c hmem hel
    obtain rfl : j = 0 := by
      rw [hsingle] at hc
      obtain ⟨hj, -⟩ := List.getElem?_eq_some_iff.mp hc
      simpa using hj
    rw [hsingle] at he ⊢
    rw [List.mem_singleton.mp he]
    rfl
  · intro hplain e he
    rcases List.mem_or_eq_of_mem_set he with he | rfl
    · exact hcs.markup hplain e he
    · rw [h.label]
      exact hcs.markup hplain c hmem
  · intro hplain e he
    rcases List.mem_or_eq_of_mem_set he with he | rfl
    · exact hcs.keys hplain e he
    · rw [h.label]
      exact hcs.keys hplain c hmem
  · have hmap : (cs.set j d).map (identAt anc) = cs.map (identAt anc) := by
      obtain ⟨hj, rfl⟩ := List.getElem?_eq_some_iff.mp hc
      have hlen : j < (cs.map (identAt anc)).length := by simpa using hj
      have hid : (cs.map (identAt anc))[j] = identAt anc cs[j] := by simp
      rw [List.map_set, h.identAt, ← hid, List.set_getElem_self]
    have htidy := List.pairwise_map (f := identAt anc)
      (R := fun a b => ∀ k, a = some k → b ≠ some k) (l := cs) |>.mpr hcs.tidy
    rw [← hmap] at htidy
    exact List.pairwise_map.mp htidy

end

/-- What a path shows of a node. It depends on the label and the text. -/
structure Aspect (β : Type) where
  view : Node → β
  seen : ∀ c d : Node, d.label = c.label → ownText d = ownText c → view d = view c

/-- The texts of the elements. -/
abbrev texts : Aspect (Option String) := ⟨ownText, fun _ _ _ h => h⟩

/-- Clean documents of a kind. -/
def docs (K : Kind) {β : Type} (A : Aspect β) : Rose.Addressing Label Ident β where
  ident := identAt
  Family := Clean K
  Sim := Alike
  view := A.view
  tidy h := h.tidy
  refl := Alike.refl
  label h := h.label
  seen h := A.seen _ _ h.label h.text
  same h := h.identAt
  up hc h := h.up hc
  keep hc h hcs := hcs.set hc h

/-! ### What is compared -/

/-- The OF-CONFIG namespace. -/
def OfcNs (ns : Option String) : Prop := ns = some ofcNs

instance : DecidablePred OfcNs := fun ns => inferInstanceAs (Decidable (ns = some ofcNs))

/-- An element in the OF-CONFIG namespace, with or without an operation. -/
def ofcElem (name : String) (op : Option EditOp) (cs : List Node) : Node :=
  .node (.element name (some ofcNs)
    (op.toList.map fun o => ⟨some ncNsBase10, "operation", opString o⟩)) cs

/-- A namespace that `nscmp` takes for any other: none, the one of NETCONF or
an empty one. -/
def Wildcard (ns : Option String) : Prop :=
  ∀ href, ns = some href → href = ncNsBase10 ∨ (clrwspace href).toList.length = 0

/-- A namespace of the edit document that matches the OF-CONFIG namespace. -/
def MatchesOfc (ns : Option String) : Prop := OfcNs ns ∨ Wildcard ns

/-- A document of a local datastore. -/
def stored : Kind := ⟨OfcNs, False⟩

instance : DecidablePred stored.ns := inferInstanceAs (DecidablePred OfcNs)

instance : Decidable stored.plain := inferInstanceAs (Decidable False)

/-- The documents of the local datastores; a path shows the text of an element. -/
abbrev storedDocs : Rose.Addressing Label Ident (Option String) :=
  docs stored texts

theorem nsMatch_of_matchesOfc {l m : Label} (hl : MatchesOfc l.ns) (hm : OfcNs m.ns) :
    nsMatch l m = true := by
  rw [nsMatch]
  split
  · rfl
  · next href hns =>
      rcases hl with hofc | hwild
      · simp [(Option.some.inj (hns.symm.trans hofc)), show m.ns = some ofcNs from hm]
      · rcases hwild href hns with h | h
        · simp [h]
        · simp [h]

/-- First texts are compared as values. -/
theorem firstsMatch_iff_value {a b : Node} (anc : List Node) (ha : textValue a = some v)
    (hb : textValue b = some w) : FirstsMatch a.children b.children anc ↔ v = w := by
  obtain ⟨c, r, s, hca, hc, rfl, -⟩ := textValue_eq_some ha
  obtain ⟨d, r', s', hdb, hd, rfl, -⟩ := textValue_eq_some hb
  have htext := matches_text (e := c) (n := d) anc (by simp [hc]) (by simp [hd])
  rw [hc, hd] at htext
  simpa [FirstsMatch, hca, hdb, Label.content] using htext

section

variable {e n : Node} {la : List Label} {anc : List Node}

theorem contentMatches_of_entry {key : String}
    (hkey : keyName n.label.name (nameAt anc 1) = some key) (he : keyValue key e = some v)
    (htext : ownText e = none) (hn : keyValue key n = some w) : ContentMatches e n anc ↔ v = w := by
  obtain ⟨k1, h1, hv⟩ := keyValue_eq_some he
  obtain ⟨k2, h2, hw⟩ := keyValue_eq_some hn
  rw [ContentMatches, if_neg (by simp [byText, firstIsText_of_ownText htext])]
  constructor
  · intro h
    obtain ⟨k1', k2', h1', h2', hfirst⟩ := h key hkey
    obtain rfl := Option.some.inj (h1.symm.trans h1')
    obtain rfl := Option.some.inj (h2.symm.trans h2')
    exact (firstsMatch_iff_value _ hv hw).mp hfirst
  · intro hvw key' hkey'
    obtain rfl := Option.some.inj (hkey.symm.trans hkey')
    exact ⟨k1, k2, h1, h2, (firstsMatch_iff_value _ hv hw).mpr hvw⟩

theorem firstIsText_of_textValue (h : textValue n = some v) : firstIsText n.children = true := by
  obtain ⟨c, r, s, hch, hc, -, -⟩ := textValue_eq_some h
  rw [hch, firstIsText, hc]
  rfl

theorem contentMatches_of_item (hcmp : comparesText n.label.name (nameAt anc 0) = true)
    (he : textValue e = some v) (hn : textValue n = some w) : ContentMatches e n anc ↔ v = w := by
  rw [ContentMatches, if_pos]
  · exact firstsMatch_iff_value _ he hn
  · rw [byText, hcmp, firstIsText_of_textValue he, firstIsText_of_textValue hn]
    rfl

theorem nameAt_eq (anc : List Node) (i : Nat) : nameAt anc i = nameUp (anc.map Rose.label) i := by
  rw [nameAt, nameUp, List.getElem?_map, Option.map_map]
  rfl

/-- `matching_elements` compares the identities of clean nodes. -/
theorem matches_iff_ident (he : e.label.isElement = true) (hn : n.label.isElement = true)
    (hens : MatchesOfc e.label.ns) (hnns : OfcNs n.label.ns) (hei : Identified la e)
    (hni : Identified (anc.map Rose.label) n)
    (hparent : nameUp la 0 = nameUp (anc.map Rose.label) 0)
    (hgrand : nameUp la 1 = nameUp (anc.map Rose.label) 1) :
    Matches e n anc ↔ identOf la e = identOf (anc.map Rose.label) n := by
  by_cases hname : e.label.name = n.label.name
  · rw [matches_content anc he hn hname (nsMatch_of_matchesOfc hens hnns)]
    simp only [identOf, hname, hparent, hgrand, Ident.mk.injEq, true_and]
    have hentry := hei.entry
    have hitem := hei.item
    rw [hname, hgrand] at hentry hitem
    rw [hparent] at hitem
    cases hkey : keyName n.label.name (nameUp (anc.map Rose.label) 1) with
    | some key =>
      obtain ⟨hv, htext⟩ := hentry key hkey
      obtain ⟨v, hv⟩ := Option.isSome_iff_exists.mp hv
      obtain ⟨w, hw⟩ := Option.isSome_iff_exists.mp (hni.entry key hkey).1
      rw [contentMatches_of_entry (by rwa [nameAt_eq]) hv htext hw]
      simp [hv, hw]
    | none =>
      cases hcmp : comparesText n.label.name (nameUp (anc.map Rose.label) 0) with
      | true =>
        obtain ⟨v, hv⟩ := Option.isSome_iff_exists.mp (hitem hkey hcmp)
        obtain ⟨w, hw⟩ := Option.isSome_iff_exists.mp (hni.item hkey hcmp)
        rw [contentMatches_of_item (by rwa [nameAt_eq]) hv hw]
        simp [hv, hw]
      | false =>
        -- neither key nor text: the name is all that is compared
        rw [ContentMatches, if_neg (by simp [byText, nameAt_eq, hcmp])]
        simp [nameAt_eq, hkey]
  · constructor
    · intro hm
      exact absurd (matchingElements_element he hm).2.1 hname
    · intro hid
      exact absurd (congrArg Ident.name hid) hname

end

/-! ### Paths of edit nodes -/

/-- A node and its ancestors, innermost first, each of which can be told apart
from its siblings. -/
inductive Named (N : Option String → Prop) : List Node → Prop where
  | nil : Named N []
  | cons {e : Node} {anc : List Node} (he : e.label.isElement = true) (hns : N e.label.ns)
      (hid : Identified (anc.map Rose.label) e) (hanc : Named N anc) : Named N (e :: anc)

theorem Named.inv {N : Option String → Prop} {e : Node} {anc : List Node} (h : Named N (e :: anc)) :
    e.label.isElement = true ∧ N e.label.ns ∧ Identified (anc.map Rose.label) e ∧ Named N anc := by
  cases h with
  | cons he hns hid hanc => exact ⟨he, hns, hid, hanc⟩

/-- The path to a node: the identities of its ancestors and its own, from the
root on. -/
def chainIds : List Node → List Ident
  | [] => []
  | e :: anc => chainIds anc ++ [identOf (anc.map Rose.label) e]

theorem chainIds_ne_nil (e : Node) (anc : List Node) : chainIds (e :: anc) ≠ [] := by
  simp [chainIds]

/-! ### The lookup follows the path -/

section

variable {e : Node} {la : List Label} {anc cs : List Node}

/-- Among clean siblings the search compares identities. -/
theorem differs_iff_ident (he : e.label.isElement = true) (hens : MatchesOfc e.label.ns)
    (hei : Identified la e) (hcs : Clean stored (anc.map Rose.label) cs)
    (hparent : nameUp la 0 = nameUp (anc.map Rose.label) 0)
    (hgrand : nameUp la 1 = nameUp (anc.map Rose.label) 1) {c : Node} (hc : c ∈ cs) :
    matchingElements e c anc = .differ ↔
      identAt (anc.map Rose.label) c ≠ some (identOf la e) := by
  by_cases hel : c.label.isElement = true
  · have h := matches_iff_ident he hel hens (hcs.ns c hc hel) hei (hcs.named c hc hel)
      hparent hgrand
    rw [ne_eq, identAt_eq_some, ← not_iff_not, not_not]
    simpa [Matches, hel, eq_comm] using h
  · have hdiff : matchingElements e c anc = .differ := by
      by_contra hm
      exact hel (matchingElements_element he hm).1
    simp [hdiff, identAt, hel]

theorem findMatch_ident (he : e.label.isElement = true) (hens : MatchesOfc e.label.ns)
    (hei : Identified la e) (hcs : Clean stored (anc.map Rose.label) cs)
    (hparent : nameUp la 0 = nameUp (anc.map Rose.label) 0)
    (hgrand : nameUp la 1 = nameUp (anc.map Rose.label) 1) {j : Nat}
    (h : findMatch e anc 0 cs = some (j, n)) :
    cs[j]? = some n ∧ identAt (anc.map Rose.label) n = some (identOf la e) := by
  obtain ⟨i, rfl, hi, hm, -⟩ := findMatch_some h
  rw [Nat.zero_add]
  refine ⟨hi, ?_⟩
  by_contra hne
  exact hm ((differs_iff_ident he hens hei hcs hparent hgrand (List.mem_of_getElem? hi)).mpr hne)

theorem findMatch_no_ident (he : e.label.isElement = true) (hens : MatchesOfc e.label.ns)
    (hei : Identified la e) (hcs : Clean stored (anc.map Rose.label) cs)
    (hparent : nameUp la 0 = nameUp (anc.map Rose.label) 0)
    (hgrand : nameUp la 1 = nameUp (anc.map Rose.label) 1) (h : findMatch e anc 0 cs = none) :
    ∀ c ∈ cs, identAt (anc.map Rose.label) c ≠ some (identOf la e) := by
  intro c hc
  have hdiff := (findMatch_eq_none_iff e anc 0 cs).mp h c hc
  exact (differs_iff_ident he hens hei hcs hparent hgrand hc).mp hdiff

end

/-- The names above an edit node are those above its equivalent. -/
theorem names_of_find {D : Doc} {p : Node} {anc : List Node} {g : Found}
    (hg : findElementEquiv D (p :: anc) = some g) :
    nameUp ((p :: anc).map Rose.label) 0 = nameUp ((g.node :: g.anc).map Rose.label) 0 ∧
      nameUp ((p :: anc).map Rose.label) 1 = nameUp ((g.node :: g.anc).map Rose.label) 1 := by
  have hparent := find_parentName hg
  rw [nameAt_eq, nameAt_eq] at hparent
  refine ⟨?_, ?_⟩
  · simp [nameUp, find_name hg]
  · simpa [nameUp] using hparent.symm

variable {D : Doc}

/-- What is found stands at the end of the path. -/
theorem find_some (hD : storedDocs.Proper [] D) {chain : List Node}
    (hchain : Named MatchesOfc chain) {f : Found} (hf : findElementEquiv D chain = some f) :
    storedDocs.idsTo [] D f.loc = some (chainIds chain) := by
  induction chain generalizing f with
  | nil => simp [findElementEquiv] at hf
  | cons e anc ih =>
    obtain ⟨he, hens, hei, hanc⟩ := hchain.inv
    cases anc with
    | nil =>
      obtain ⟨i, hloc, -, hm⟩ := find_root_some hf
      have htop : Clean stored (([] : List Node).map Rose.label) D := hD.here
      obtain ⟨hi, hid⟩ := findMatch_ident he hens hei htop rfl rfl hm
      rw [hloc]
      exact Rose.Addressing.idsTo_cons.mpr ⟨f.node, _, [], hi, hid, rfl, rfl⟩
    | cons p anc =>
      obtain ⟨g, j, hg, hloc, hfanc, hm⟩ := find_cons_some hf
      obtain ⟨ctx, hfoc, hganc⟩ := find_focus hg
      obtain ⟨hparent, hgrand⟩ := names_of_find hg
      have hpath : Rose.path g.node ctx = (g.node :: g.anc).map Rose.label := by
        rw [Rose.path, List.map_cons, ← hganc, Rose.map_label_ancestors]
      have hclean := (hD.focus hfoc).here
      rw [hpath] at hclean
      rw [hfanc] at hm
      obtain ⟨hj, hid⟩ := findMatch_ident he hens hei hclean hparent hgrand hm
      rw [hloc]
      exact Rose.Addressing.idsTo_child hfoc (ih hanc hg) hj (by rwa [hpath])

/-- Where nothing is found the path leads to nothing. -/
theorem find_none (hD : storedDocs.Proper [] D) {chain : List Node}
    (hchain : Named MatchesOfc chain) (hf : findElementEquiv D chain = none)
    (x : Option String) : ¬ storedDocs.ViewAt [] D (chainIds chain) x := by
  induction chain generalizing x with
  | nil => exact Rose.Addressing.not_viewAt_nil
  | cons e anc ih =>
    obtain ⟨he, hens, hei, hanc⟩ := hchain.inv
    intro hx
    cases anc with
    | nil =>
      have hm : findMatch e [] 0 D = none := by simpa [findElementEquiv] using hf
      have htop : Clean stored (([] : List Node).map Rose.label) D := hD.here
      obtain ⟨c, hc, hid, -⟩ := hx
      exact findMatch_no_ident he hens hei htop rfl rfl hm c hc hid
    | cons p anc =>
      cases hg : findElementEquiv D (p :: anc) with
      | none =>
        obtain ⟨y, hy⟩ := Rose.Addressing.exists_viewAt_prefix hx (List.prefix_append _ _)
          (chainIds_ne_nil p anc)
        exact ih hanc hg y hy
      | some g =>
        obtain ⟨ctx, hfoc, hganc⟩ := find_focus hg
        obtain ⟨hparent, hgrand⟩ := names_of_find hg
        have hpath : Rose.path g.node ctx = (g.node :: g.anc).map Rose.label := by
          rw [Rose.path, List.map_cons, ← hganc, Rose.map_label_ancestors]
        have hclean := (hD.focus hfoc).here
        rw [hpath] at hclean
        have hm : findMatch e (g.node :: g.anc) 0 g.node.children = none := by
          simpa [findElementEquiv, hg] using hf
        have hbelow := Rose.Addressing.regrown_of_focus hfoc (find_some hD hanc hg) id
        obtain ⟨c, hc, hid, -⟩ := (hbelow.viewAt_children hD (by simp)).mp hx
        rw [hpath] at hid
        exact findMatch_no_ident he hens hei hclean hparent hgrand hm c hc hid

end OfConfig.Proofs
