import OfConfig.Proofs.Instances

/-!
# `OfConfig.Proofs.Siblings`: confusable siblings, before and behind

Where an edit element takes no part in telling its ancestors apart (`Apart`: it
is not a key, and no ancestor is compared by a text), taking its instances off
changes nothing above it. The condition of `deletes_sound_iff` is then one on the
document as it is: the levels above are clear, and no sibling of the instances is
confusable with the element, before or behind them.

* `Recognised.alike`: what the comparison reads of an ancestor.
* `InstanceAt.setChildren`: other children below the instance of the parent leave
  the way down to it, and the levels above, as they are.
* `find_sound_iff`: the three forms of the result.
-/

set_option autoImplicit false

namespace OfConfig.Proofs

open OfConfig.Lib OfConfig.Xml OfConfig.Edit

variable {D orig : Doc} {anc anc' chain found ganc : List Node} {e n : Node} {l : Loc}

/-! ### What the comparison reads -/

/-- Two lists of ancestors with the same names. -/
def SameNames (anc anc' : List Node) : Prop :=
  anc.map (fun n => n.label.name) = anc'.map (fun n => n.label.name)

theorem SameNames.nameAt (h : SameNames anc anc') (i : Nat) : nameAt anc i = nameAt anc' i := by
  rw [Edit.nameAt, Edit.nameAt, ← List.getElem?_map, ← List.getElem?_map, h]

theorem SameNames.cons (h : SameNames anc anc') {n' : Node} (hn : n.label.name = n'.label.name) :
    SameNames (n :: anc) (n' :: anc') := by
  rw [SameNames, List.map_cons, List.map_cons, hn, h]

/-- Of the ancestors of the datastore node the comparison reads the names. -/
theorem matchingElements_names (e : Node) :
    (∀ n anc anc', SameNames anc anc' → matchingElements e n anc = matchingElements e n anc') ∧
    (∀ cs anc anc', SameNames anc anc' →
      matchingFirst e.children cs anc = matchingFirst e.children cs anc') := by
  -- the second half is what the comparison of keys needs of the children
  induction e using Rose.induct with
  | h l cs₁ ih =>
    have hfirst : ∀ cs anc anc', SameNames anc anc' →
        matchingFirst cs₁ cs anc = matchingFirst cs₁ cs anc' := by
      intro cs anc anc' hn
      cases cs₁ with
      | nil => simp
      | cons c₁ cs₁ =>
        cases cs with
        | nil => simp
        | cons c cs =>
          rw [matchingFirst_cons_cons, matchingFirst_cons_cons]
          exact (ih c₁ (by simp)).1 c anc anc' hn
    refine ⟨?_, hfirst⟩
    intro n anc anc' hn
    have hkey : ∀ key key₂, matchingKey key cs₁ key₂ (n :: anc) =
        matchingKey key cs₁ key₂ (n :: anc') := by
      intro key key₂
      rw [matchingKey_eq, matchingKey_eq]
      cases hk : go2node cs₁ key with
      | none => rfl
      | some key₁ =>
        exact (ih key₁ (List.mem_of_find?_eq_some hk)).2 _ _ _ ((hn.cons rfl).cons rfl)
    rw [matchingElements, matchingElements]
    simp only [hn.nameAt, hfirst _ _ _ (hn.cons (n := n) rfl), hkey]

theorem matches_names (h : SameNames anc anc') : Matches e n anc ↔ Matches e n anc' := by
  rw [Matches, Matches, (matchingElements_names e).1 n anc anc' h]

theorem SameInstance.names (h : SameInstance e n anc) (hn : SameNames anc anc') :
    SameInstance e n anc' := by
  refine ⟨h.name, h.ns, fun key hkey => h.key key ?_, fun hitem => h.item ?_⟩
  · rwa [hn.nameAt]
  · rwa [isItem, hn.nameAt, hn.nameAt]

theorem recognised_names (h : SameNames anc anc') : Recognised e n anc ↔ Recognised e n anc' :=
  and_congr (matches_names h) ⟨fun hs => hs.names h, fun hs => hs.names h.symm⟩

theorem confusable_names (h : SameNames anc anc') : Confusable e n anc ↔ Confusable e n anc' := by
  rw [confusable_iff, confusable_iff, matches_names h]
  exact and_congr_right fun _ => not_congr ⟨fun hs => hs.names h, fun hs => hs.names h.symm⟩

/-- Two datastore nodes with the same label and the same keys. -/
structure KeyAlike (n n' : Node) : Prop where
  label : n'.label = n.label
  key : ∀ gp key, keyName n.label.name gp = some key →
    go2node n'.children key = go2node n.children key

/-- An ancestor that does not start with a text and is no item is compared by
its label and its key. -/
theorem Recognised.alike {n' : Node} (h : Recognised e n anc) (hn : SameNames anc anc')
    (halike : KeyAlike n n') (htext : firstIsText e.children = false)
    (hitem : isItem n.label.name anc = false) : Recognised e n' anc' := by
  obtain ⟨hm, hs⟩ := (recognised_names hn).mp h
  rw [isItem, hn.nameAt, hn.nameAt] at hitem
  have hby : ∀ m, byText e m anc' = false := fun m => by simp [byText, htext]
  refine ⟨(matches_iff e n' anc').mpr ?_, ?_, ?_, ?_, ?_⟩
  · rcases (matches_iff e n anc').mp hm with ⟨he, hn, hc⟩ | ⟨he, hn, hname, hns, hc⟩
    · exact .inl ⟨he, by rwa [halike.label], by rwa [halike.label]⟩
    · refine .inr ⟨he, by rwa [halike.label], by rwa [halike.label], by rwa [halike.label], ?_⟩
      rw [ContentMatches, if_neg (by simp [hby])] at hc ⊢
      intro key hkey
      rw [halike.label] at hkey
      obtain ⟨k₁, k₂, h₁, h₂, hfirst⟩ := hc key hkey
      refine ⟨k₁, k₂, h₁, by rw [halike.key _ key hkey, h₂], ?_⟩
      rw [← matchingFirst_ne_differ] at hfirst ⊢
      rwa [(matchingElements_names k₁).2 _ _ (k₂ :: n :: anc')
        ((SameNames.cons rfl (by rw [halike.label])).cons rfl)]
  · rw [hs.name, halike.label]
  · rw [halike.label]
    exact hs.ns
  · intro key hkey
    rw [halike.label] at hkey
    obtain ⟨k₁, k₂, h₁, h₂, hrest⟩ := hs.key key hkey
    exact ⟨k₁, k₂, h₁, by rw [halike.key _ key hkey, h₂], hrest⟩
  · intro hi
    rw [halike.label, isItem, hitem] at hi
    cases hi

/-! ### Other children below an instance -/

/-- The instances of the ancestors have the names of the ancestors. -/
theorem InstanceAt.sameNames (h : InstanceAt orig chain l found) : SameNames chain found := by
  induction h with
  | top => rfl
  | child hanc hsplit hn hbefore ih => exact ih.cons hn.2.name

/-- The true instances of a chain are determined. -/
theorem InstanceAt.unique {found' : List Node} {l' : Loc} (h : InstanceAt orig chain l found)
    (h' : InstanceAt orig chain l' found') : l = l' ∧ found = found' := by
  induction h generalizing l' found' with
  | top =>
    cases h'
    exact ⟨rfl, rfl⟩
  | @child e n anc ganc pre post l hanc hsplit hn hbefore ih =>
    cases h' with
    | @child _ n' _ ganc' pre' post' l₂ hanc' hsplit' hn' hbefore' =>
      obtain ⟨rfl, rfl⟩ := ih hanc'
      -- neither of the two instances stands before the other
      have heq := hsplit.symm.trans hsplit'
      rcases List.append_eq_append_iff.mp heq with ⟨as, rfl, has⟩ | ⟨as, rfl, has⟩
      · cases as with
        | nil =>
          obtain ⟨rfl, -⟩ := List.cons_eq_cons.mp has
          simp
        | cons a as =>
          obtain ⟨rfl, -⟩ := List.cons_eq_cons.mp has
          exact absurd hn (hbefore' _ (by simp))
      · cases as with
        | nil =>
          obtain ⟨rfl, -⟩ := List.cons_eq_cons.mp has
          simp
        | cons a as =>
          obtain ⟨rfl, -⟩ := List.cons_eq_cons.mp has
          exact absurd hn' (hbefore _ (by simp))

/-- The instance is the node at its position. -/
theorem InstanceAt.get? (h : InstanceAt orig chain l found) :
    (l = [] ∧ found = []) ∨ ∃ n ganc, found = n :: ganc ∧ Rose.get? orig l = some n := by
  induction h with
  | top => exact .inl ⟨rfl, rfl⟩
  | @child e n anc ganc pre post l hanc hsplit hn hbefore ih =>
    refine .inr ⟨n, ganc, rfl, ?_⟩
    have hget : (pre ++ n :: post)[pre.length]? = some n := by simp
    rw [← hsplit] at hget
    rcases ih with ⟨rfl, rfl⟩ | ⟨p, ganc', rfl, hp⟩
    · rw [List.nil_append, Rose.get?_one]
      exact hget
    · obtain ⟨ctx, hctx⟩ := Rose.exists_focus? hp
      exact Rose.get?_of_focus? (Rose.focus?_append hctx hget)

/-- The document with other nodes below a position, or at its top. -/
def setChildren (D : Doc) (l : Loc) (cs : List Node) : Doc :=
  if l = [] then cs else Rose.modifyChildren (fun _ => cs) l D

/-- A change at a child of an instance, written as other children of it. -/
theorem InstanceAt.modify {pre post : List Node} (h : InstanceAt D anc l ganc)
    (hsplit : childrenOf D ganc = pre ++ n :: post) (f : Node → List Node) :
    Rose.modify f (l ++ [pre.length]) D = setChildren D l (pre ++ f n ++ post) := by
  have hone : ∀ cs : List Node, cs = pre ++ n :: post →
      Rose.modify f [pre.length] cs = pre ++ f n ++ post := by
    rintro cs rfl
    rw [Rose.modify_one f (by simp : (pre ++ n :: post)[pre.length]? = some n)]
    simp
  rcases h.get? with ⟨rfl, rfl⟩ | ⟨p, ganc', rfl, hp⟩
  · exact hone D hsplit
  · have hne : l ≠ [] := by
      rintro rfl
      simp [Rose.get?] at hp
    rw [setChildren, if_neg hne, Rose.modify_append f hp]
    exact Rose.modifyChildren_congr hp (hone p.children hsplit)

/-- No edit node of the chain is the key of the next one, starts with a text or is
an item, the innermost apart. -/
def Apart (chain : List Node) : Prop :=
  ∀ a p rest, a :: p :: rest <:+ chain →
    (∀ gp, keyName p.label.name gp ≠ some a.label.name) ∧ firstIsText p.children = false ∧
      isItem p.label.name rest = false

theorem Apart.parent (h : Apart (e :: anc)) : Apart anc :=
  fun a p rest hsuf => h a p rest (hsuf.trans (List.suffix_cons e anc))

/-- Searching a key, one passes over nodes with another name. -/
theorem go2node_append_cons {pre post : List Node} {key : String} (h : n.label.name ≠ key) :
    go2node (pre ++ n :: post) key = go2node (pre ++ post) key := by
  simp [go2node, List.find?_append, h]

/-- Other children below the instance of `anc`, with the same key, leave the way
down to it and the levels above as they are. -/
theorem InstanceAt.setChildren (h : InstanceAt D anc l ganc) (e : Node) (hapart : Apart (e :: anc))
    (cs : List Node)
    (hkey : ∀ key, key ≠ e.label.name → go2node cs key = go2node (childrenOf D ganc) key) :
    ∃ ganc', InstanceAt (Proofs.setChildren D l cs) anc l ganc' ∧
      childrenOf (Proofs.setChildren D l cs) ganc' = cs ∧ SameNames ganc ganc' ∧
      (Clear D anc → Clear (Proofs.setChildren D l cs) anc) := by
  induction h generalizing e cs with
  | top =>
    refine ⟨[], .top, rfl, rfl, fun _ e anc hsuf => ?_⟩
    simp at hsuf
  | @child a p anc ganc pre post l hanc hsplit hp hbefore ih =>
    obtain ⟨hnotkey, htext, hitem⟩ := hapart e a anc (List.suffix_refl _)
    -- the instance of the parent, with its new children
    have halike : KeyAlike p (.node p.label cs) := by
      refine ⟨rfl, fun gp key hk => hkey key ?_⟩
      rintro rfl
      rw [← hp.2.name] at hk
      exact hnotkey gp hk
    have hset : Proofs.setChildren D (l ++ [pre.length]) cs =
        Proofs.setChildren D l (pre ++ .node p.label cs :: post) := by
      have hmodify := hanc.modify hsplit (fun t => [.node t.label cs])
      rw [Proofs.setChildren, if_neg (by simp)]
      rw [List.append_assoc, List.singleton_append] at hmodify
      exact hmodify
    rw [hset]
    obtain ⟨ganc', hinst, hchildren, hnames, hclear⟩ := ih a hapart.parent
      (pre ++ .node p.label cs :: post) (by
        intro key hne
        rw [hsplit, go2node_append_cons, go2node_append_cons]
        · rw [← hp.2.name]
          exact hne.symm
        · rw [Rose.label_node, ← hp.2.name]
          exact hne.symm)
    have hitem' : isItem p.label.name ganc = false := by
      rw [← hp.2.name, isItem, ← hanc.sameNames.nameAt, ← hanc.sameNames.nameAt]
      exact hitem
    have hp' : Recognised a (.node p.label cs) ganc' := hp.alike hnames halike htext hitem'
    refine ⟨.node p.label cs :: ganc', .child hinst hchildren hp' ?_, rfl, hnames.cons rfl, ?_⟩
    · exact fun m hm hrec => hbefore m hm ((recognised_names hnames).mpr hrec)
    · intro hD e' anc' hsuf
      rcases List.suffix_cons_iff.mp hsuf with heq | hsuf
      · cases heq
        intro l₂ ganc₂ hinst₂ pre₂ m post₂ hsplit₂ hconf
        obtain ⟨rfl, rfl⟩ := hinst.unique hinst₂
        -- a confusable node before the instance was there before
        rcases List.append_eq_append_iff.mp (hchildren.symm.trans hsplit₂) with
          ⟨as, rfl, has⟩ | ⟨as, rfl, has⟩
        · cases as with
          | nil =>
            obtain ⟨rfl, -⟩ := List.cons_eq_cons.mp has
            exact absurd hp'.2 ((confusable_iff _ _ _).mp hconf).2
          | cons b as =>
            obtain ⟨rfl, -⟩ := List.cons_eq_cons.mp has
            exact ⟨_, by simp, hp'⟩
        · cases as with
          | nil =>
            obtain ⟨rfl, -⟩ := List.cons_eq_cons.mp has
            exact absurd hp'.2 ((confusable_iff _ _ _).mp hconf).2
          | cons b as =>
            obtain ⟨rfl, -⟩ := List.cons_eq_cons.mp has
            obtain ⟨n, hn, hrec⟩ := hD a anc (List.suffix_refl _) l ganc hanc pre₂ m
              (as ++ p :: post) (by rw [hsplit]; simp) ((confusable_names hnames).mpr hconf)
            exact ⟨n, hn, (recognised_names hnames).mp hrec⟩
      · exact hclear hD.parent e' anc' hsuf

/-! ### Taking the instances off -/

/-- Among the nodes where `e` is searched, none is confusable with it. -/
def NoneConfusable (orig : Doc) (e : Node) (anc : List Node) : Prop :=
  ∀ l ganc, InstanceAt orig anc l ganc → ∀ m ∈ childrenOf orig ganc, ¬ Confusable e m ganc

/-- One instance is taken off: the level is searched again without it, and the
levels above are as they were. -/
theorem InstanceAt.unlink (hapart : Apart (e :: anc)) (h : InstanceAt D (e :: anc) l (n :: ganc)) :
    ∃ l₀ pre post ganc', InstanceAt D anc l₀ ganc ∧ childrenOf D ganc = pre ++ n :: post ∧
      SameInstance e n ganc ∧ InstanceAt (Rose.unlink l D) anc l₀ ganc' ∧
      childrenOf (Rose.unlink l D) ganc' = pre ++ post ∧ SameNames ganc ganc' ∧
      (Clear D anc → Clear (Rose.unlink l D) anc) := by
  cases h with
  | @child _ _ _ _ pre post l hanc hsplit hn hbefore =>
    have hunlink : Rose.unlink (l ++ [pre.length]) D = Proofs.setChildren D l (pre ++ post) := by
      have hmodify := hanc.modify hsplit (fun _ => [])
      rwa [List.append_nil] at hmodify
    obtain ⟨ganc', hinst, hchildren, hnames, hclear⟩ := hanc.setChildren e hapart (pre ++ post) (by
      intro key hne
      rw [hsplit, go2node_append_cons]
      rw [← hn.2.name]
      exact hne.symm)
    rw [hunlink]
    exact ⟨l, pre, post, ganc', hanc, hsplit, hn.2, hinst, hchildren, hnames, hclear⟩

/-- Without confusable siblings all levels stay clear. -/
theorem clear_of_stripped (hapart : Apart (e :: anc)) (hclear : Clear orig anc)
    (hnone : NoneConfusable orig e anc) (h : Stripped (e :: anc) orig D) :
    Clear D anc ∧ NoneConfusable D e anc := by
  induction h with
  | start => exact ⟨hclear, hnone⟩
  | @next D l n ganc _ hinst ih =>
    obtain ⟨l₀, pre, post, ganc', hanc, hsplit, -, hinst', hchildren, hnames, hlevels⟩ :=
      hinst.unlink hapart
    refine ⟨hlevels ih.1, fun l₂ ganc₂ hinst₂ m hm hconf => ?_⟩
    obtain ⟨rfl, rfl⟩ := hinst'.unique hinst₂
    refine ih.2 l₀ ganc hanc m ?_ ((confusable_names hnames).mpr hconf)
    rw [hsplit]
    rw [hchildren] at hm
    rcases List.mem_append.mp hm with hm | hm
    · exact List.mem_append_left _ hm
    · exact List.mem_append_right _ (List.mem_cons_of_mem _ hm)

/-- A confusable sibling is reached when the instances before it are gone. -/
theorem noneConfusable_of_stripped (hapart : Apart (e :: anc))
    (hclear : ∀ D, Stripped (e :: anc) orig D → Clear D (e :: anc)) :
    NoneConfusable orig e anc := by
  classical
  -- by the number of siblings that are left
  have key : ∀ k D l ganc m, Stripped (e :: anc) orig D → InstanceAt D anc l ganc →
      (childrenOf D ganc).length = k → m ∈ childrenOf D ganc → ¬ Confusable e m ganc := by
    intro k
    induction k with
    | zero =>
      intro D l ganc m _ _ hlen hm _
      rw [List.length_eq_zero_iff.mp hlen] at hm
      cases hm
    | succ k ih =>
      intro D l ganc m hD hanc hlen hm hconf
      obtain ⟨pre₀, post₀, hsplit₀⟩ := List.append_of_mem hm
      obtain ⟨n, hn, hrec⟩ := hclear D hD e anc (List.suffix_refl _) l ganc hanc pre₀ m post₀
        hsplit₀ hconf
      -- the first instance is the one that is taken off
      have hsome : ((childrenOf D ganc).find? (fun m => decide (Recognised e m ganc))).isSome =
          true := List.find?_isSome.mpr ⟨n, by simp [hsplit₀, hn], decide_eq_true hrec⟩
      obtain ⟨n, hfirst⟩ := Option.isSome_iff_exists.mp hsome
      obtain ⟨hrec, pre, post, hsplit, hbefore⟩ := List.find?_eq_some_iff_append.mp hfirst
      have hinst : InstanceAt D (e :: anc) (l ++ [pre.length]) (n :: ganc) :=
        .child hanc hsplit (of_decide_eq_true hrec) (fun m hm => by simpa using hbefore m hm)
      obtain ⟨l', pre', post', ganc', hanc', hsplit', hsame, hinst', hchildren, hnames, -⟩ :=
        hinst.unlink hapart
      obtain ⟨rfl, -⟩ := hanc.unique hanc'
      refine ih _ l ganc' m (.next hD hinst) hinst' ?_ ?_ ((confusable_names hnames).mp hconf)
      · rw [hchildren, List.length_append]
        rw [hsplit', List.length_append, List.length_cons] at hlen
        omega
      · rw [hchildren]
        rw [hsplit'] at hm
        have hne : m ≠ n := by
          rintro rfl
          exact ((confusable_iff _ _ _).mp hconf).2 hsame
        rcases List.mem_append.mp hm with hm | hm
        · exact List.mem_append_left _ hm
        · exact List.mem_append_right _ ((List.mem_cons.mp hm).resolve_left hne)
  exact fun l ganc hinst m hm => key _ orig l ganc m .start hinst rfl hm

/-- The loops that delete an element are sound if and only if the levels above
are clear and no sibling of its instances is confusable with it. -/
theorem deletes_sound_apart_iff (orig : Doc) (hapart : Apart (e :: anc)) :
    DeletesSound orig (e :: anc) ↔ Clear orig anc ∧ NoneConfusable orig e anc := by
  rw [deletes_sound_iff]
  constructor
  · intro h
    exact ⟨(h orig .start).parent, noneConfusable_of_stripped hapart h⟩
  · rintro ⟨hclear, hnone⟩ D hD e' anc' hsuf
    obtain ⟨hclear', hnone'⟩ := clear_of_stripped hapart hclear hnone hD
    rcases List.suffix_cons_iff.mp hsuf with heq | hsuf
    · cases heq
      intro l ganc hinst pre m post hsplit hconf
      exact absurd hconf (hnone' l ganc hinst m (by simp [hsplit]))
    · exact hclear' e' anc' hsuf

/-! ### The result -/

/-- The lookup of an edit element and of its ancestors is sound if and only if at
every level no confusable node stands before the true instance. The delete, remove
and replace of the element touch true instances only if and only if this holds
also while instances of the element are taken off; for an element that takes no
part in telling its ancestors apart that means: the levels above are clear, and no
sibling of its instances is confusable with it, before or behind them. -/
theorem find_sound_iff (orig : Doc) (e : Node) (anc : List Node) :
    (LookupsSound orig (e :: anc) ↔ Clear orig (e :: anc)) ∧
    (DeletesSound orig (e :: anc) ↔
      ∀ D, Stripped (e :: anc) orig D → Clear D (e :: anc)) ∧
    (Apart (e :: anc) →
      (DeletesSound orig (e :: anc) ↔ Clear orig anc ∧ NoneConfusable orig e anc)) :=
  ⟨lookup_sound_iff orig _, deletes_sound_iff orig _, deletes_sound_apart_iff orig⟩

/-- Resources with ports of the given names. -/
def namedPorts (names : List String) : Doc :=
  [elem "capable-switch" none [elem "resources" none
    (names.map (fun name => elem "port" none [elem "name" none [txt name]]))]]

-- `clrwspace` makes one text of the two names, so a delete of the first port also
-- takes the one behind it
example : (Rose.focus? (namedPorts ["aa"]) [0, 0, 0]).map (fun e =>
    purge (Rose.chain e.1 e.2) 4 (namedPorts ["aa", " a"])) = some (namedPorts []) := by
  decide +kernel

/-- An edit document with a port whose name is empty. -/
def emptyNameEdit : Doc :=
  [elem "capable-switch" none [elem "resources" none [elem "port" none [elem "name" none []]]]]

/-- A datastore with the port `eth0`. -/
def onePort : Doc := namedPorts ["eth0"]

/-- A port with an empty name passes `check_keys`, and the lookup takes
it for the port `eth0`. -/
theorem find_unsound_empty_key :
    checkKeys emptyNameEdit = .success ∧
    ∃ n ctx, Rose.focus? emptyNameEdit [0, 0, 0] = some (n, ctx) ∧
      (findElementEquiv onePort (Rose.chain n ctx)).map Found.loc = some [0, 0, 0] ∧
      ¬ LookupSound onePort (Rose.chain n ctx) := by
  refine ⟨by decide, _, _, rfl, by decide +kernel, fun hsound => ?_⟩
  have hfound : (findElementEquiv onePort (Rose.chain (elem "port" none [elem "name" none []])
      [⟨[], .element "resources" none [], []⟩, ⟨[], .element "capable-switch" none [], []⟩])).map
        (fun f => (f.node.label.name, nameAt f.anc 1)) = some ("port", some "capable-switch") := by
    decide +kernel
  obtain ⟨f, hf, hnames⟩ := Option.map_eq_some_iff.mp hfound
  simp only [Prod.mk.injEq] at hnames
  obtain ⟨k1, k2, h1, -, hne, -⟩ := (hsound f hf).1.key "name" (by rw [hnames.1, hnames.2]; decide)
  obtain rfl : elem "name" none [] = k1 := Option.some.inj h1
  exact hne (by decide)

end OfConfig.Proofs
