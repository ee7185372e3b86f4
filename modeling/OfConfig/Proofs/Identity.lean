import Mathlib.Data.List.DropRight
import OfConfig.Proofs.Lookup

/-!
# `OfConfig.Proofs.Identity`: which entry an edit element stands for

`SameInstance` says when a node of the datastore is the instance an edit
element names: same element, for a list entry the same non-empty key, for
an item of a leaf-list the same text. `matching_elements` decides
something else. `matches_iff` spells out what it accepts, and
`confusable_iff` the pairs it accepts although they are not the same
instance:

* a key element without content on one side compares as an error, which
  counts as a match;
* `clrwspace` maps different texts to one;
* an entry that starts with a text is compared by that text and not by
  its key, and an item that does not start with a text is not compared
  at all.

What follows for the lookup and for the loops that delete what it finds is in
`OfConfig.Proofs.Instances`.
-/

set_option autoImplicit false

namespace OfConfig.Proofs

open OfConfig.Lib OfConfig.Xml OfConfig.Edit

variable {anc : List Node} {e n : Node}

/-! ### Instances -/

/-- A text without the white space around it. -/
def trim (s : String) : String :=
  String.ofList ((s.toList.dropWhile isSpace).rdropWhile isSpace)

/-- The text of an element. -/
def textOf (n : Node) : String := trim (nodeGetContent n)

/-- An item of a leaf-list: compared by its text, and not an entry of a
list. -/
def isItem (name : String) (anc : List Node) : Bool :=
  comparesText name (nameAt anc 0) && (keyName name (nameAt anc 1)).isNone

/-- Both entries have the key, and its text is the same and not empty. -/
def SameKey (key : String) (e n : Node) : Prop :=
  ∃ k1 k2, go2node e.children key = some k1 ∧ go2node n.children key = some k2 ∧
    textOf k1 ≠ "" ∧ textOf k1 = textOf k2

/-- The node `n` of the datastore, below the ancestors `anc`, is the
instance that the edit node `e` names. -/
structure SameInstance (e n : Node) (anc : List Node) : Prop where
  name : e.label.name = n.label.name
  ns : nsMatch e.label n.label = true
  key : ∀ key, keyName n.label.name (nameAt anc 1) = some key → SameKey key e n
  item : isItem n.label.name anc = true → textOf e = textOf n

/-- The instances along two chains of nodes, innermost first. -/
def SameInstances : List Node → List Node → Prop
  | [], [] => True
  | e :: es, n :: ns => SameInstance e n ns ∧ SameInstances es ns
  | _, _ => False

/-! ### What `matching_elements` accepts -/

/-- `matching_elements` does not return 0. -/
def Matches (e n : Node) (anc : List Node) : Prop := matchingElements e n anc ≠ .differ

/-- The first children are not told apart: one side has none, or they
match. -/
def FirstsMatch (cs1 cs2 : List Node) (anc : List Node) : Prop :=
  cs1 = [] ∨ cs2 = [] ∨ ∃ c1 c2, cs1.head? = some c1 ∧ cs2.head? = some c2 ∧ Matches c1 c2 anc

theorem matchingFirst_ne_differ (cs1 cs2 anc : List Node) :
    matchingFirst cs1 cs2 anc ≠ .differ ↔ FirstsMatch cs1 cs2 anc := by
  cases cs1 with
  | nil => simp [FirstsMatch]
  | cons c1 cs1 =>
    cases cs2 with
    | nil => simp [FirstsMatch]
    | cons c2 cs2 => simp [FirstsMatch, Matches]

/-- Both sides start with a text, and the text is what is compared. -/
def byText (e n : Node) (anc : List Node) : Bool :=
  comparesText n.label.name (nameAt anc 0) && firstIsText e.children && firstIsText n.children

/-- How two elements of one name are compared. -/
def ContentMatches (e n : Node) (anc : List Node) : Prop :=
  if byText e n anc then FirstsMatch e.children n.children (n :: anc)
  else
    ∀ key, keyName n.label.name (nameAt anc 1) = some key →
      ∃ k1 k2, go2node e.children key = some k1 ∧ go2node n.children key = some k2 ∧
        FirstsMatch k1.children k2.children (k2 :: n :: anc)

theorem matches_text (anc : List Node) (he : e.label.isText = true) (hn : n.label.isText = true) :
    Matches e n anc ↔
      clrwspace (e.label.content.getD "") = clrwspace (n.label.content.getD "") := by
  cases e with
  | node l cs =>
    rw [Rose.label_node] at he ⊢
    rw [Matches, matchingElements]
    simp only [he, hn, Bool.and_self, if_true]
    split
    · next h => simp [h]
    · next h => simp [h]

theorem isText_of_isElement {l : Label} (h : l.isElement = true) : l.isText = false := by
  obtain ⟨n, ns, as, rfl⟩ := (Label.isElement_iff l).mp h
  rfl

/-- Two elements of one name and namespace. -/
theorem matches_content (anc : List Node) (he : e.label.isElement = true)
    (hn : n.label.isElement = true) (hname : e.label.name = n.label.name)
    (hns : nsMatch e.label n.label = true) : Matches e n anc ↔ ContentMatches e n anc := by
  cases e with
  | node l cs =>
    rw [Rose.label_node] at he hname hns
    rw [Matches, matchingElements, ContentMatches]
    simp only [isText_of_isElement he, he, hn, hname, hns, Bool.false_and, Bool.not_true,
      Bool.or_self, ne_eq, not_true_eq_false, if_false, Bool.false_eq_true]
    cases hbt : byText (.node l cs) n anc with
    | true =>
      rw [byText, Rose.children_node] at hbt
      rw [if_pos hbt, if_pos rfl]
      exact matchingFirst_ne_differ cs n.children (n :: anc)
    | false =>
      rw [byText, Rose.children_node] at hbt
      rw [if_neg (by simp [hbt]), if_neg (by simp)]
      cases hkey : keyName n.label.name (nameAt anc 1) with
      | none => simp
      | some key =>
        cases h2 : go2node n.children key with
        | none => simp [h2]
        | some k2 =>
          simp only [matchingKey_eq]
          cases h1 : go2node cs key with
          | none => simp [h1, h2]
          | some k1 => simp [h1, h2, ← matchingFirst_ne_differ]

/-- What `matching_elements` accepts. -/
theorem matches_iff (e n : Node) (anc : List Node) :
    Matches e n anc ↔
      (e.label.isText = true ∧ n.label.isText = true ∧
        clrwspace (e.label.content.getD "") = clrwspace (n.label.content.getD "")) ∨
      (e.label.isElement = true ∧ n.label.isElement = true ∧ e.label.name = n.label.name ∧
        nsMatch e.label n.label = true ∧ ContentMatches e n anc) := by
  by_cases htext : e.label.isText = true ∧ n.label.isText = true
  · rw [matches_text anc htext.1 htext.2]
    have hne : ¬ e.label.isElement = true := fun h => by simp [isText_of_isElement h] at htext
    simp [htext, hne]
  · have hleft : ¬ (e.label.isText = true ∧ n.label.isText = true ∧
        clrwspace (e.label.content.getD "") = clrwspace (n.label.content.getD "")) :=
      fun h => htext ⟨h.1, h.2.1⟩
    rw [or_iff_right hleft]
    constructor
    · intro hm
      have he : e.label.isElement = true := by
        cases e with
        | node l cs =>
          rw [Rose.label_node] at htext ⊢
          by_contra he
          refine hm ?_
          rw [matchingElements, if_neg (by simpa using htext), if_pos (by simp [he])]
      obtain ⟨hn, hname, hns⟩ := matchingElements_element he hm
      exact ⟨he, hn, hname, hns, (matches_content anc he hn hname hns).mp hm⟩
    · rintro ⟨he, hn, hname, hns, hc⟩
      exact (matches_content anc he hn hname hns).mpr hc

/-! ### Pairs that are taken for one instance -/

/-- Four ways in which two elements of one name are compared as equal
although they are different instances. -/
inductive Confused (e n : Node) (anc : List Node) : Prop
  /-- The keys are not told apart: one of them has no content, or their
  first children match, and yet the texts are empty or different. -/
  | key {key : String} {k1 k2 : Node} (hby : byText e n anc = false)
      (hkey : keyName n.label.name (nameAt anc 1) = some key)
      (h1 : go2node e.children key = some k1) (h2 : go2node n.children key = some k2)
      (hfirst : FirstsMatch k1.children k2.children (k2 :: n :: anc))
      (hdiff : textOf k1 = "" ∨ textOf k1 ≠ textOf k2)
  /-- Both entries start with a text, so that their keys are not looked
  at. -/
  | entry {key : String} (hby : byText e n anc = true)
      (hkey : keyName n.label.name (nameAt anc 1) = some key)
      (hfirst : FirstsMatch e.children n.children (n :: anc)) (hdiff : ¬ SameKey key e n)
  /-- Two items of a leaf-list whose first texts match. -/
  | item (hby : byText e n anc = true) (hitem : isItem n.label.name anc = true)
      (hfirst : FirstsMatch e.children n.children (n :: anc)) (hdiff : textOf e ≠ textOf n)
  /-- Two items of which one does not start with a text. -/
  | noText (hby : byText e n anc = false) (hitem : isItem n.label.name anc = true)
      (hdiff : textOf e ≠ textOf n)

/-- Elements of one name and namespace that are confused. -/
structure Confusable (e n : Node) (anc : List Node) : Prop where
  edit : e.label.isElement = true
  orig : n.label.isElement = true
  name : e.label.name = n.label.name
  ns : nsMatch e.label n.label = true
  confused : Confused e n anc

theorem keyName_of_isItem {name : String} (h : isItem name anc = true) :
    keyName name (nameAt anc 1) = none := by
  simp only [isItem, Bool.and_eq_true, Option.isNone_iff_eq_none] at h
  exact h.2

theorem Confused.contentMatches (h : Confused e n anc) : ContentMatches e n anc := by
  rw [ContentMatches]
  cases h with
  | key hby hkey h1 h2 hfirst hdiff =>
    rw [if_neg (by simp [hby])]
    intro key' hkey'
    obtain rfl := Option.some.inj (hkey.symm.trans hkey')
    exact ⟨_, _, h1, h2, hfirst⟩
  | entry hby hkey hfirst hdiff => rwa [if_pos hby]
  | item hby hitem hfirst hdiff => rwa [if_pos hby]
  | noText hby hitem hdiff =>
    rw [if_neg (by simp [hby])]
    intro key hkey
    simp [keyName_of_isItem hitem] at hkey

theorem Confused.not_same (h : Confused e n anc) : ¬ SameInstance e n anc := by
  intro hs
  cases h with
  | key hby hkey h1 h2 hfirst hdiff =>
    obtain ⟨k1', k2', h1', h2', hne, heq⟩ := hs.key _ hkey
    obtain rfl := Option.some.inj (h1.symm.trans h1')
    obtain rfl := Option.some.inj (h2.symm.trans h2')
    exact hdiff.elim hne (fun h => h heq)
  | entry hby hkey hfirst hdiff => exact hdiff (hs.key _ hkey)
  | item hby hitem hfirst hdiff => exact hdiff (hs.item hitem)
  | noText hby hitem hdiff => exact hdiff (hs.item hitem)

/-- Elements that are compared as equal are the same instance, or
confused. -/
theorem confused_of_contentMatches (hname : e.label.name = n.label.name)
    (hns : nsMatch e.label n.label = true) (hc : ContentMatches e n anc)
    (hs : ¬ SameInstance e n anc) : Confused e n anc := by
  rw [ContentMatches] at hc
  cases hkey : keyName n.label.name (nameAt anc 1) with
  | some key =>
    have hitem : isItem n.label.name anc = false := by simp [isItem, hkey]
    have hdiff : ¬ SameKey key e n := by
      refine fun hsame => hs ⟨hname, hns, fun key' hkey' => ?_, fun h => by simp [hitem] at h⟩
      rwa [← Option.some.inj (hkey.symm.trans hkey')]
    cases hby : byText e n anc with
    | true =>
      rw [if_pos hby] at hc
      exact .entry hby hkey hc hdiff
    | false =>
      rw [if_neg (by simp [hby])] at hc
      obtain ⟨k1, k2, h1, h2, hfirst⟩ := hc key hkey
      refine .key hby hkey h1 h2 hfirst ?_
      by_contra hboth
      rw [not_or, not_not] at hboth
      exact hdiff ⟨k1, k2, h1, h2, hboth⟩
  | none =>
    have hitem : isItem n.label.name anc = true ∧ textOf e ≠ textOf n := by
      by_contra hno
      refine hs ⟨hname, hns, fun key hk => by simp [hkey] at hk, fun hi => ?_⟩
      by_contra hdiff
      exact hno ⟨hi, hdiff⟩
    cases hby : byText e n anc with
    | true =>
      rw [if_pos hby] at hc
      exact .item hby hitem.1 hc hitem.2
    | false => exact .noText hby hitem.1 hitem.2

/-- Texts name nothing, so two of them are always the same instance. -/
theorem sameInstance_text (anc : List Node) (he : e.label.isText = true)
    (hn : n.label.isText = true) : SameInstance e n anc := by
  obtain ⟨c1, h1⟩ := (Label.isText_iff _).mp he
  obtain ⟨c2, h2⟩ := (Label.isText_iff _).mp hn
  refine ⟨by rw [h1, h2]; rfl, by rw [h1]; rfl, ?_, ?_⟩
  · intro key hkey
    simp [h2, Label.name, keyName] at hkey
  · intro hi
    simp [h2, Label.name, isItem, comparesText] at hi

/-- The pairs that `matching_elements` confuses. -/
theorem confusable_iff (e n : Node) (anc : List Node) :
    Confusable e n anc ↔ Matches e n anc ∧ ¬ SameInstance e n anc := by
  constructor
  · intro h
    exact ⟨(matches_content anc h.edit h.orig h.name h.ns).mpr h.confused.contentMatches,
      h.confused.not_same⟩
  · rintro ⟨hm, hs⟩
    rcases (matches_iff e n anc).mp hm with ⟨he, hn, -⟩ | ⟨he, hn, hname, hns, hc⟩
    · exact absurd (sameInstance_text anc he hn) hs
    · exact ⟨he, hn, hname, hns, confused_of_contentMatches hname hns hc hs⟩

end OfConfig.Proofs
