import OfConfig.Edit.Match

/-!
# `OfConfig.Proofs.Lookup`: facts about `find_element_equiv`

What every later proof uses of the lookup, so that none of them opens
`findElementEquiv` or `matchingElements` again:

* `findMatch_some`, `findMatch_eq_none_iff`: the loop over the siblings
  returns the first node that does not differ.
* `find_focus`: the node found is a node of the document, at the
  position returned, with the ancestors returned.
* `findElementEquiv_bare`: attributes play no role.
-/

set_option autoImplicit false

namespace OfConfig.Proofs

open OfConfig.Lib OfConfig.Xml OfConfig.Edit

variable {D : Doc} {anc chain : List Node} {e n : Node} {f : Found}

/-! ### The loop over the siblings -/

theorem findMatch_eq_none_iff (e : Node) (anc : List Node) (i : Nat) (ns : List Node) :
    findMatch e anc i ns = none ↔ ∀ n ∈ ns, matchingElements e n anc = .differ := by
  induction ns generalizing i with
  | nil => simp [findMatch]
  | cons n ns ih =>
    by_cases hn : matchingElements e n anc = .differ
    · simp [findMatch, hn, ih]
    · simp [findMatch, hn]

/-- The loop returns the first node that does not differ. -/
theorem findMatch_some {i k : Nat} {ns : List Node} (h : findMatch e anc i ns = some (k, n)) :
    ∃ j, k = i + j ∧ ns[j]? = some n ∧ matchingElements e n anc ≠ .differ ∧
      ∀ m ∈ ns.take j, matchingElements e m anc = .differ := by
  induction ns generalizing i with
  | nil => simp [findMatch] at h
  | cons n' ns ih =>
    simp only [findMatch] at h
    split at h
    · next hd =>
        obtain ⟨j, rfl, hj, hm, hfirst⟩ := ih h
        refine ⟨j + 1, by omega, by simpa using hj, hm, ?_⟩
        intro m hmem
        rcases List.mem_cons.mp hmem with rfl | hmem
        · exact hd
        · exact hfirst m hmem
    · next hd =>
        obtain ⟨rfl, rfl⟩ : i = k ∧ n' = n := by simpa using h
        exact ⟨0, by omega, by simp, hd, by simp⟩

/-- Conversely, the first node that does not differ is returned. -/
theorem findMatch_of_first {ns : List Node} {j : Nat} (i : Nat) (hj : ns[j]? = some n)
    (hm : matchingElements e n anc ≠ .differ)
    (hfirst : ∀ m ∈ ns.take j, matchingElements e m anc = .differ) :
    findMatch e anc i ns = some (i + j, n) := by
  induction ns generalizing i j with
  | nil => simp at hj
  | cons n' ns ih =>
    cases j with
    | zero =>
      obtain rfl : n' = n := by simpa using hj
      simp [findMatch, hm]
    | succ j =>
      have hd : matchingElements e n' anc = .differ := hfirst n' (by simp)
      have := ih (i + 1) (by simpa using hj) (fun m hmem => hfirst m (by simp [hmem]))
      simp only [findMatch, hd, if_true, this]
      congr 2
      omega

/-! ### The node found is in the document -/

/-- The step of `find_element_equiv` from a parent that was found. -/
theorem find_cons_some {p : Node} (h : findElementEquiv D (e :: p :: anc) = some f) :
    ∃ g j, findElementEquiv D (p :: anc) = some g ∧ f.loc = g.loc ++ [j] ∧
      f.anc = g.node :: g.anc ∧ findMatch e f.anc 0 g.node.children = some (j, f.node) := by
  simp only [findElementEquiv] at h
  split at h
  · simp at h
  · next g hg =>
      obtain ⟨⟨j, n⟩, hm, rfl⟩ := Option.map_eq_some_iff.mp h
      exact ⟨g, j, hg, rfl, rfl, hm⟩

theorem find_root_some (h : findElementEquiv D [e] = some f) :
    ∃ i, f.loc = [i] ∧ f.anc = [] ∧ findMatch e [] 0 D = some (i, f.node) := by
  obtain ⟨⟨i, n⟩, hm, rfl⟩ := Option.map_eq_some_iff.mp h
  exact ⟨i, rfl, rfl, hm⟩

/-- The node that is found stands at the position returned, below the
ancestors returned. -/
theorem find_focus (h : findElementEquiv D chain = some f) :
    ∃ ctx, Rose.focus? D f.loc = some (f.node, ctx) ∧ Rose.ancestors f.node ctx = f.anc := by
  -- along the edit node's ancestors, outermost last
  induction chain generalizing f with
  | nil => simp [findElementEquiv] at h
  | cons e anc ih =>
    cases anc with
    | nil =>
      obtain ⟨i, hloc, hanc, hm⟩ := find_root_some h
      obtain ⟨j, rfl, hj, -, -⟩ := findMatch_some hm
      rw [Nat.zero_add] at hloc
      refine ⟨[], ?_, by simp [hanc]⟩
      simp [hloc, Rose.focus?, hj, Rose.focusIn]
    | cons p anc =>
      obtain ⟨g, k, hg, hloc, hanc, hm⟩ := find_cons_some h
      obtain ⟨j, rfl, hj, -, -⟩ := findMatch_some hm
      obtain ⟨ctx, hfoc, hanc'⟩ := ih hg
      rw [Nat.zero_add] at hloc
      refine ⟨⟨g.node.children.take j, g.node.label, g.node.children.drop (j + 1)⟩ :: ctx, ?_, ?_⟩
      · rw [hloc]
        exact Rose.focus?_append hfoc hj
      · rw [Rose.ancestors_cons, Rose.Frame.plug_of_getElem? hj, Rose.chain_eq, hanc', hanc]

/-- The node found is as deep in the document as the edit node. -/
theorem length_loc_of_find (h : findElementEquiv D chain = some f) :
    f.loc.length = chain.length := by
  induction chain generalizing f with
  | nil => simp [findElementEquiv] at h
  | cons e anc ih =>
    cases anc with
    | nil =>
      obtain ⟨i, hloc, -, -⟩ := find_root_some h
      simp [hloc]
    | cons p anc =>
      obtain ⟨g, j, hg, hloc, -, -⟩ := find_cons_some h
      simp [hloc, ih hg]

/-- The equivalent of an element is an element of the same name. -/
theorem matchingElements_element (he : e.label.isElement = true)
    (h : matchingElements e n anc ≠ .differ) :
    n.label.isElement = true ∧ e.label.name = n.label.name ∧ nsMatch e.label n.label = true := by
  cases e with
  | node l cs =>
    rw [Rose.label_node] at he ⊢
    have htext : l.isText = false := by
      obtain ⟨name, ns, as, rfl⟩ := (Label.isElement_iff l).mp he
      rfl
    rw [matchingElements] at h
    simp only [htext, Bool.false_and, he, Bool.not_true, Bool.false_or, Bool.false_eq_true,
      if_false] at h
    split at h
    · exact absurd rfl h
    · next hn =>
        split at h
        · exact absurd rfl h
        · next hname =>
            split at h
            · exact absurd rfl h
            · next hns => exact ⟨by simpa using hn, by simpa using hname, by simpa using hns⟩

/-- Only elements and texts have equivalents. -/
theorem isElement_or_isText_of_matching (h : matchingElements e n anc ≠ .differ) :
    e.label.isElement = true ∨ e.label.isText = true := by
  cases e with
  | node l cs =>
    by_cases he : l.isElement = true
    · exact .inl he
    · refine .inr ?_
      rw [matchingElements] at h
      by_contra ht
      simp [show l.isText = false by simpa using ht, he] at h

/-- Nodes that do not differ have the same name. -/
theorem matchingElements_name (h : matchingElements e n anc ≠ .differ) :
    n.label.name = e.label.name := by
  by_cases he : e.label.isElement = true
  · exact (matchingElements_element he h).2.1.symm
  · -- two texts, which libxml2 gives the same name
    cases e with
    | node l cs =>
      rw [matchingElements] at h
      rw [Rose.label_node] at he ⊢
      by_cases ht : (l.isText && n.label.isText) = true
      · obtain ⟨hl, hn⟩ := Bool.and_eq_true_iff.mp ht
        obtain ⟨c, rfl⟩ := (Label.isText_iff l).mp hl
        obtain ⟨c', hc'⟩ := (Label.isText_iff _).mp hn
        rw [hc']
        rfl
      · simp [ht, he] at h

/-- The node found does not differ from the edit node. -/
theorem find_matches (h : findElementEquiv D (e :: anc) = some f) :
    matchingElements e f.node f.anc ≠ .differ := by
  cases anc with
  | nil =>
    obtain ⟨i, -, hanc, hm⟩ := find_root_some h
    obtain ⟨j, -, -, hmatch, -⟩ := findMatch_some hm
    rw [hanc]
    exact hmatch
  | cons p anc =>
    obtain ⟨g, j, -, -, -, hm⟩ := find_cons_some h
    obtain ⟨j, -, -, hmatch, -⟩ := findMatch_some hm
    exact hmatch

theorem find_name (h : findElementEquiv D (e :: anc) = some f) :
    f.node.label.name = e.label.name :=
  matchingElements_name (find_matches h)

/-- The nodes above the one that is found have the names of those above the edit
node. -/
theorem find_names (h : findElementEquiv D chain = some f) :
    (f.node :: f.anc).map (fun m => m.label.name) = chain.map (fun m => m.label.name) := by
  induction chain generalizing f with
  | nil => simp [findElementEquiv] at h
  | cons e anc ih =>
    rw [List.map_cons, List.map_cons, find_name h]
    cases anc with
    | nil =>
      obtain ⟨i, -, hnil, -⟩ := find_root_some h
      rw [hnil]
    | cons p anc =>
      obtain ⟨g, j, hg, -, hanc, -⟩ := find_cons_some h
      rw [hanc, ih hg]

/-- The parent of the node found has the name of the edit node's parent. -/
theorem find_parentName (h : findElementEquiv D (e :: anc) = some f) :
    nameAt f.anc 0 = nameAt anc 0 := by
  have hnames := (List.cons.inj (find_names h)).2
  have h0 := congrArg (fun ns => ns[0]?) hnames
  simpa [nameAt] using h0

/-- The equivalent of an element is an element. -/
theorem find_isElement (he : e.label.isElement = true)
    (h : findElementEquiv D (e :: anc) = some f) :
    f.node.label.isElement = true :=
  (matchingElements_element he (find_matches h)).1

/-! ### Attributes play no role -/

/-- A tree without its attributes. -/
abbrev bareNode (n : Node) : Node := Rose.map Label.bare n

theorem nsMatch_bare (l m : Label) : nsMatch l.bare m = nsMatch l m := by
  simp [nsMatch]

theorem firstIsText_bare (cs : List Node) : firstIsText (cs.map bareNode) = firstIsText cs := by
  cases cs with
  | nil => rfl
  | cons c cs => simp [firstIsText]

theorem go2node_bare (cs : List Node) (name : String) :
    go2node (cs.map bareNode) name = (go2node cs name).map bareNode := by
  simp only [go2node, List.find?_map, Function.comp_def, Rose.label_map, Label.isElement_bare,
    Label.name_bare]

/-- The comparison does not read the attributes of the edit node. -/
theorem matchingElements_bare (n1 : Node) :
    (∀ n2 anc2, matchingElements (bareNode n1) n2 anc2 = matchingElements n1 n2 anc2) ∧
    (∀ cs2 anc2, matchingFirst (n1.children.map bareNode) cs2 anc2 =
      matchingFirst n1.children cs2 anc2) := by
  -- the second half is what the comparison of keys needs of the children
  induction n1 using Rose.induct with
  | h l1 cs1 ih =>
    have hfirst : ∀ cs2 anc2, matchingFirst (cs1.map bareNode) cs2 anc2 =
        matchingFirst cs1 cs2 anc2 := by
      intro cs2 anc2
      cases cs1 with
      | nil => rfl
      | cons c1 cs1 =>
        cases cs2 with
        | nil => simp
        | cons c2 cs2 =>
          simp only [List.map_cons, matchingFirst_cons_cons]
          exact (ih c1 (by simp)).1 c2 anc2
    have hkey : ∀ key key2 anc2, matchingKey key (cs1.map bareNode) key2 anc2 =
        matchingKey key cs1 key2 anc2 := by
      intro key key2 anc2
      rw [matchingKey_eq, matchingKey_eq, go2node_bare]
      cases hk : go2node cs1 key with
      | none => rfl
      | some key1 =>
        have hmem : key1 ∈ cs1 := List.mem_of_find?_eq_some hk
        simp only [Option.map_some, Rose.children_map]
        exact (ih key1 hmem).2 _ _
    refine ⟨?_, hfirst⟩
    intro n2 anc2
    rw [bareNode, Rose.map_node, matchingElements, matchingElements]
    simp only [Label.isText_bare, Label.isElement_bare, Label.name_bare, nsMatch_bare,
      firstIsText_bare, hfirst, hkey, Label.content_bare]

/-- The lookup does not read the attributes of the edit nodes. -/
theorem findElementEquiv_bare (D : Doc) (chain : List Node) :
    findElementEquiv D (chain.map bareNode) = findElementEquiv D chain := by
  have hloop : ∀ e anc i ns, findMatch (bareNode e) anc i ns = findMatch e anc i ns := by
    intro e anc i ns
    induction ns generalizing i with
    | nil => rfl
    | cons n ns ih => simp only [findMatch, (matchingElements_bare e).1, ih]
  induction chain with
  | nil => rfl
  | cons e anc ih =>
    cases anc with
    | nil => simp only [List.map_cons, List.map_nil, findElementEquiv, hloop]
    | cons p anc =>
      simp only [List.map_cons] at ih ⊢
      simp only [findElementEquiv, ih, hloop]

/-- Two chains that differ in attributes only find the same node. -/
theorem findElementEquiv_congr {c1 c2 : List Node} (h : c1.map bareNode = c2.map bareNode) :
    findElementEquiv D c1 = findElementEquiv D c2 := by
  rw [← findElementEquiv_bare D c1, h, findElementEquiv_bare]

end OfConfig.Proofs
