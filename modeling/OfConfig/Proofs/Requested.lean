import OfConfig.Proofs.Consumed
import OfConfig.Proofs.Identity

/-!
# `OfConfig.Proofs.Requested`: what a request applies, read off the documents

Whether an element of an edit document is created or merged, and whether the root or
the id of the capable switch has an equivalent in the running configuration, is known
from the documents before `edit_operations` starts.

* `Requested`: the labels on the path of an element say whether it is applied.
  Under the default operation `none` an element without an operation on its path is
  a place only.
* `firstKept`: the first child that no phase unlinks by itself. It tells which text
  `ofc_set_switchid` will see, and whether `edit_merge` will take a node for a leaf;
  `firstKept_unlink` says that the phases do not change it.
* `HasRoot` and `HasId`: the equivalents of a root and of an id, which are compared
  by their labels only (`hasRoot_of_find`, `hasId_of_find`). Cutting nodes out of the
  datastore brings none (`HasRoot.of_unlink`, `HasId.of_unlink`).
-/

set_option autoImplicit false

namespace OfConfig.Proofs

open OfConfig.Lib OfConfig.Xml OfConfig.Edit

variable {D : Doc} {cs : List Node} {l : Loc} {n t : Node}

/-! ### The part of a request that is applied -/

/-- The request applies an element with these labels on its path, from the element to
the root: nothing on the path is to be deleted or removed, and elements are merged by
default or one on the path has an operation. -/
def Requested (defop : DefOp) (p : List Label) : Prop :=
  (∀ z ∈ p, getOperation z ≠ .op .delete ∧ getOperation z ≠ .op .remove) ∧
    (defop ≠ .none ∨ ∃ z ∈ p, getOperation z ≠ .unset)

instance (defop : DefOp) (p : List Label) : Decidable (Requested defop p) := by
  unfold Requested
  infer_instance

/-! ### The first child that stays -/

/-- The label of the first child without an operation. A child with an operation may
be unlinked by its phase before the parent is looked at, the others stay. -/
def firstKept (cs : List Node) : Option Label :=
  (cs.map Rose.label).find? (fun l => getOperation l = .unset)

/-- The children will start with a text, once the elements with an operation are gone. -/
def startsWithText (cs : List Node) : Bool := (firstKept cs).any Label.isText

/-- The text that `ofc_set_switchid` reads: the first child, if it is a text. -/
def firstText (cs : List Node) : Option String :=
  match cs with
  | .node (.text s) _ :: _ => some s
  | _ => none

theorem getOperation_text (s : String) : getOperation (.text s) = .unset := rfl

theorem head_of_firstText {s : String} (h : firstText cs = some s) :
    ∃ c, cs.head? = some c ∧ c.label = .text s := by
  unfold firstText at h
  split at h
  · cases h
    exact ⟨_, rfl, rfl⟩
  · cases h

theorem firstKept_of_firstText {s : String} (h : firstText cs = some s) :
    firstKept cs = some (.text s) := by
  obtain ⟨c, hc, hl⟩ := head_of_firstText h
  cases cs with
  | nil => cases hc
  | cons d cs =>
    obtain rfl : d = c := by simpa using hc
    simp [firstKept, hl, getOperation_text]

theorem firstText_of_firstIsText (h : firstIsText cs = true) : ∃ s, firstText cs = some s := by
  cases cs with
  | nil => simp [firstIsText] at h
  | cons c cs =>
    cases c with
    | node l ds =>
      obtain ⟨s, rfl⟩ := (Label.isText_iff l).mp h
      exact ⟨s, rfl⟩

theorem startsWithText_of_firstIsText (h : firstIsText cs = true) : startsWithText cs = true := by
  obtain ⟨s, hs⟩ := firstText_of_firstIsText h
  simp [startsWithText, firstKept_of_firstText hs]

theorem firstIsText_of_startsWithText (h : startsWithText cs = false) : firstIsText cs = false := by
  cases hf : firstIsText cs with
  | false => rfl
  | true => simp [startsWithText_of_firstIsText hf] at h

/-- A phase unlinks elements with an operation, at the top of the children or further
down. Either way the first child that stays is the same. -/
theorem firstKept_unlink (hl : Rose.get? cs l = some t) (ht : getOperation t.label ≠ .unset) :
    firstKept (Rose.unlink l cs) = firstKept cs := by
  rcases Rose.unlink_cases hl with ⟨pre, post, hcs, -, hun⟩ | ⟨pre, u, post, l', hcs, -, -, hun⟩
  · rw [hun, hcs]
    simp [firstKept, List.find?_append, ht]
  · rw [hun, hcs]
    simp [firstKept]

theorem startsWithText_unlink (hl : Rose.get? cs l = some t) (ht : getOperation t.label ≠ .unset) :
    startsWithText (Rose.unlink l cs) = startsWithText cs := by
  rw [startsWithText, startsWithText, firstKept_unlink hl ht]

/-- A text at the front stays there when an element is cut out. -/
theorem firstIsText_unlink (hl : Rose.get? cs l = some t) (ht : t.label.isText = false)
    (h : firstIsText cs = true) : firstIsText (Rose.unlink l cs) = true := by
  rcases Rose.unlink_cases hl with ⟨pre, post, hcs, -, hun⟩ | ⟨pre, u, post, l', hcs, -, -, hun⟩
  · rw [hcs] at h
    rw [hun]
    cases pre with
    | nil => simp [firstIsText, ht] at h
    | cons c pre => exact h
  · rw [hcs] at h
    rw [hun]
    cases pre with
    | nil => exact h
    | cons c pre => exact h

/-! ### Equivalents of the root and of its id -/

/-- `matching_elements` as far as it looks at two labels: two texts, or elements of one
name with namespaces that match. -/
def labelMatches (l m : Label) : Bool :=
  (l.isText && m.isText) || (l.isElement && m.isElement && l.name = m.name && nsMatch l m)

theorem labelMatches_name {l m : Label} (h : labelMatches l m = true) : l.name = m.name := by
  rcases Bool.or_eq_true_iff.mp h with ht | he
  · obtain ⟨hl, hm⟩ := Bool.and_eq_true_iff.mp ht
    obtain ⟨s, rfl⟩ := (Label.isText_iff l).mp hl
    obtain ⟨t, rfl⟩ := (Label.isText_iff m).mp hm
    rfl
  · simp only [Bool.and_eq_true, decide_eq_true_eq] at he
    exact he.1.2

theorem labelMatches_element {l m : Label} (hname : l.name ≠ "text") :
    labelMatches l m = true ↔
      l.isElement = true ∧ m.isElement = true ∧ l.name = m.name ∧ nsMatch l m = true := by
  have htext : l.isText = false := by
    rw [← Bool.not_eq_true]
    intro ht
    obtain ⟨s, rfl⟩ := (Label.isText_iff l).mp ht
    exact hname rfl
  simp [labelMatches, htext, and_assoc]

/-- Attributes are not looked at. -/
theorem labelMatches_dropOpAttr (l m : Label) :
    labelMatches (dropOpAttr l) m = labelMatches l m := by
  have hbare : ∀ l, labelMatches l.bare m = labelMatches l m := by
    intro l
    simp [labelMatches, nsMatch_bare]
  rw [← hbare, bare_dropOpAttr, hbare]

/-- Nodes that match have labels that do. -/
theorem labelMatches_of_matches {e : Node} {anc : List Node} (h : Matches e n anc) :
    labelMatches e.label n.label = true := by
  rcases (matches_iff e n anc).mp h with ⟨he, hn, -⟩ | ⟨he, hn, hname, hns, -⟩
  · simp [labelMatches, he, hn]
  · simp [labelMatches, he, hn, hname, hns]

/-- An element that has no key and is not compared by its text matches whenever the
labels do. -/
theorem matches_of_labelMatches {e : Node} {anc : List Node}
    (h : labelMatches e.label n.label = true) (hname : e.label.name ≠ "text")
    (htext : comparesText e.label.name (nameAt anc 0) = false)
    (hkey : keyName e.label.name (nameAt anc 1) = none) : Matches e n anc := by
  obtain ⟨he, hn, heq, hns⟩ := (labelMatches_element hname).mp h
  rw [heq] at htext hkey
  rw [matches_content anc he hn heq hns, ContentMatches, byText, htext]
  simp [hkey]

/-- The datastore has an equivalent for a root with this label. -/
def HasRoot (D : Doc) (s : Label) : Prop := ∃ t ∈ D, labelMatches s t.label = true

/-- The datastore has an equivalent for an id with the label `a` in a capable switch
with the label `s`. -/
def HasId (D : Doc) (a s : Label) : Prop :=
  ∃ t ∈ D, labelMatches s t.label = true ∧ ∃ c ∈ t.children, labelMatches a c.label = true

instance (D : Doc) (s : Label) : Decidable (HasRoot D s) := by
  unfold HasRoot
  infer_instance

instance (D : Doc) (a s : Label) : Decidable (HasId D a s) := by
  unfold HasId
  infer_instance

theorem HasRoot.of_unlink (hl : Rose.get? D l = some t) {s : Label}
    (h : HasRoot (Rose.unlink l D) s) : HasRoot D s := by
  obtain ⟨c, hc, hm⟩ := h
  obtain ⟨v, hv, hlab⟩ := Rose.label_mem_unlink hl hc
  exact ⟨v, hv, by rwa [hlab]⟩

theorem HasId.of_unlink (hl : Rose.get? D l = some t) {a s : Label}
    (h : HasId (Rose.unlink l D) a s) : HasId D a s := by
  obtain ⟨c, hc, hm, d, hd, hmd⟩ := h
  rcases Rose.mem_unlink hl hc with hmem | ⟨v, hv, l', hl', rfl⟩
  · exact ⟨c, hmem, hm, d, hd, hmd⟩
  · obtain ⟨u, hu, hlab⟩ := Rose.label_mem_unlink hl' hd
    exact ⟨v, hv, hm, u, hu, by rwa [hlab]⟩

theorem hasRoot_of_find {f : Found} (hf : findElementEquiv D [n] = some f) : HasRoot D n.label := by
  obtain ⟨i, -, -, hm⟩ := find_root_some hf
  obtain ⟨j, -, hj, hmatch, -⟩ := findMatch_some hm
  exact ⟨f.node, List.mem_of_getElem? hj, labelMatches_of_matches hmatch⟩

theorem hasId_of_find {s : Node} {f : Found} (hf : findElementEquiv D [n, s] = some f) :
    HasId D n.label s.label := by
  obtain ⟨g, j, hg, -, -, hm⟩ := find_cons_some hf
  obtain ⟨i, -, -, hroot⟩ := find_root_some hg
  obtain ⟨k, -, hk, hmatch, -⟩ := findMatch_some hroot
  obtain ⟨k', -, hk', hmatch', -⟩ := findMatch_some hm
  exact ⟨g.node, List.mem_of_getElem? hk, labelMatches_of_matches hmatch, f.node,
    List.mem_of_getElem? hk', labelMatches_of_matches hmatch'⟩

end OfConfig.Proofs
