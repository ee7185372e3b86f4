import OfConfig.Lib.Overlay
import OfConfig.Proofs.Addresses
import OfConfig.Proofs.XmlMode

/-!
# `OfConfig.Proofs.Paths`: changes of a document, path by path

What the operations of `edit-config.c` do to a clean document is stated by the
paths they change (`OfConfig.Proofs.Addresses`):

* `unlink_clean`: a node that is not the key of an entry is cut out, in the
  edit document as in the datastore.
* `attach_clean`: a tree with a new identity is added below a node.
* `setRoot_clean`: a tree becomes the root.

`HasPaths` relates a clean document to the set of its paths (`OfConfig.Lib.View`).
-/

set_option autoImplicit false

namespace OfConfig.Proofs

open OfConfig.Lib OfConfig.Xml OfConfig.Edit

variable {D : Doc} {K : Kind} {cs : List Node} {la : List Label} {p : List Ident}

/-! ### Labels that count as one -/

/-- What identities and siblings depend on in the labels above. -/
def face (l : Label) : String × Bool := (l.name, l.isElement)

section

variable {la lb : List Label}

theorem nameUp_congr (h : la.map face = lb.map face) (i : Nat) : nameUp la i = nameUp lb i := by
  have hname : ∀ ls : List Label, nameUp ls i = ((ls.map face)[i]?).map Prod.fst := by
    intro ls
    simp [nameUp, face, Function.comp_def]
  rw [hname, hname, h]

theorem identOf_congr (h : la.map face = lb.map face) (n : Node) : identOf la n = identOf lb n := by
  simp only [identOf, nameUp_congr h]

theorem identAt_congr (h : la.map face = lb.map face) (n : Node) : identAt la n = identAt lb n := by
  simp only [identAt, identOf_congr h]

theorem Identified.congr {n : Node} (hn : Identified la n) (h : la.map face = lb.map face) :
    Identified lb n where
  entry := by
    rw [← nameUp_congr h]
    exact hn.entry
  item := by
    rw [← nameUp_congr h, ← nameUp_congr h]
    exact hn.item

theorem EntryKey.congr {name : String} (hkey : EntryKey la name)
    (h : la.map face = lb.map face) : EntryKey lb name := by
  cases la with
  | nil => exact hkey.elim
  | cons a la =>
    cases lb with
    | nil => simp at h
    | cons b lb =>
      obtain ⟨hface, htail⟩ := List.cons_eq_cons.mp (by simpa using h)
      have hname : a.name = b.name := congrArg Prod.fst hface
      rwa [EntryKey, nameUp_congr htail, hname] at hkey

theorem Clean.congr (hcs : Clean K la cs) (h : la.map face = lb.map face) : Clean K lb cs where
  leaf := by
    intro b hb hel
    cases lb with
    | nil => simp at hb
    | cons b' lb =>
      obtain rfl : b' = b := by simpa using hb
      cases la with
      | nil => simp at h
      | cons a la =>
        have hface := (List.cons_eq_cons.mp (by simpa using h)).1
        exact hcs.leaf a (by simp) ((congrArg Prod.snd hface).trans hel)
  top := by
    rintro rfl
    exact hcs.top (by simpa using h)
  ns := hcs.ns
  named := fun c hc hel => (hcs.named c hc hel).congr h
  text := hcs.text
  alone := hcs.alone
  markup := hcs.markup
  keys := by
    intro hplain c hc hkey
    rw [← nameUp_congr h] at hkey
    exact (hcs.keys hplain c hc hkey).congr h
  tidy := by simpa only [identAt_congr h] using hcs.tidy

theorem families_congr (hcs : Rose.Families (Clean K) la cs) (h : la.map face = lb.map face) :
    Rose.Families (Clean K) lb cs :=
  hcs.congr (fun _ _ _ hpq hp => hp.congr hpq) h

theorem viewAt_congr {K' : Kind} {β : Type} {A : Aspect β} (h : la.map face = lb.map face) {x : β} :
    (docs K A).ViewAt la cs p x ↔ (docs K' A).ViewAt lb cs p x := by
  induction p generalizing la lb cs with
  | nil => exact Iff.rfl
  | cons k p ih =>
    have hid : ∀ c, (docs K A).ident la c = (docs K' A).ident lb c :=
      identAt_congr h
    rw [Rose.Addressing.viewAt_cons, Rose.Addressing.viewAt_cons]
    refine exists_congr fun c => and_congr_right fun _ => ?_
    have hlabels : (c.label :: la).map face = (c.label :: lb).map face := by simpa using h
    rw [hid, ih hlabels]
    exact Iff.rfl

end

/-! ### Attributes play no role in paths -/

section

variable {la : List Label} {n : Node} {cs : List Node}

theorem headText_bare (cs : List Node) : headText (cs.map bareNode) = headText cs := by
  cases cs with
  | nil => rfl
  | cons c cs => simp [headText]

theorem ownText_bare (n : Node) : ownText (bareNode n) = ownText n := by
  rw [ownText, ownText, Rose.children_map, headText_bare]

theorem textValue_bare (n : Node) : textValue (bareNode n) = textValue n :=
  textValue_congr (ownText_bare n)

theorem keyValue_bare (key : String) (n : Node) : keyValue key (bareNode n) = keyValue key n := by
  rw [keyValue, keyValue, Rose.children_map, go2node_bare, Option.bind_map]
  exact congrArg _ (funext textValue_bare)

theorem identOf_bare (la : List Label) (n : Node) : identOf la (bareNode n) = identOf la n := by
  simp only [identOf, Rose.label_map, Label.name_bare, keyValue_bare, textValue_bare]

theorem identAt_bare (la : List Label) (n : Node) : identAt la (bareNode n) = identAt la n := by
  simp only [identAt, Rose.label_map, Label.isElement_bare, identOf_bare]

theorem identified_bare : Identified la (bareNode n) ↔ Identified la n := by
  have h : ∀ m : Node, Identified la m ↔
      (∀ key, keyName m.label.name (nameUp la 1) = some key →
        (keyValue key m).isSome = true ∧ ownText m = none) ∧
      (keyName m.label.name (nameUp la 1) = none →
        comparesText m.label.name (nameUp la 0) = true → (textValue m).isSome = true) :=
    fun m => ⟨fun h => ⟨h.entry, h.item⟩, fun h => ⟨h.1, h.2⟩⟩
  rw [h, h]
  simp only [Rose.label_map, Label.name_bare, keyValue_bare, textValue_bare, ownText_bare]

theorem isKey_bare (l : Label) (parent : Option String) : isKey l.bare parent = isKey l parent := by
  simp [isKey]

theorem clean_bare : Clean K la (cs.map bareNode) ↔ Clean K la cs := by
  have h : ∀ ds : List Node, Clean K la ds ↔
      (∀ a ∈ la.head?, a.isElement = false → ds = []) ∧
      (la = [] → ∀ c ∈ ds, c.label.isText = false ∧
        (c.label.isElement = true → c.label.name = "capable-switch")) ∧
      (∀ c ∈ ds, c.label.isElement = true → K.ns c.label.ns) ∧
      (∀ c ∈ ds, c.label.isElement = true → Identified la c) ∧
      (∀ c ∈ ds.tail, c.label.isText = false) ∧
      (K.plain → ∀ c ∈ ds, c.label.isText = true → ds.length = 1) ∧
      (K.plain → ∀ c ∈ ds, c.label.isElement = true ∨ c.label.isText = true) ∧
      (K.plain → ∀ c ∈ ds, isKey c.label (nameUp la 0) = true → EntryKey la c.label.name) ∧
      ds.Pairwise (fun c d => ∀ k, identAt la c = some k → identAt la d ≠ some k) := by
    intro ds
    constructor
    · intro h
      refine ⟨h.leaf, h.top, h.ns, h.named, h.text, fun hp c hc ht => ?_, h.markup, h.keys, h.tidy⟩
      rw [h.alone hp c hc ht]
      rfl
    · rintro ⟨hleaf, htop, hns, hnamed, htext, halone, hmarkup, hkeys, htidy⟩
      refine ⟨hleaf, htop, hns, hnamed, htext, fun hp c hc ht => ?_, hmarkup, hkeys, htidy⟩
      obtain ⟨d, rfl⟩ := List.length_eq_one_iff.mp (halone hp c hc ht)
      rw [List.mem_singleton.mp hc]
  rw [h, h]
  simp only [List.map_eq_nil_iff, List.forall_mem_map, Rose.label_map, Label.isText_bare,
    Label.isElement_bare, Label.name_bare, Label.ns_bare, identified_bare, ← List.map_tail,
    List.length_map, isKey_bare, List.pairwise_map, identAt_bare]

theorem families_bare :
    Rose.Families (Clean K) la (cs.map bareNode) ↔ Rose.Families (Clean K) la cs := by
  constructor
  · intro h
    generalize hds : cs.map bareNode = ds at h
    induction h generalizing cs with
    | @intro la ds here below ih =>
      subst hds
      refine .intro (clean_bare.mp here) fun c hc => ?_
      have hbelow := ih (bareNode c) (List.mem_map_of_mem hc) (Rose.children_map _ c).symm
      exact families_congr hbelow (by simp [face])
  · intro h
    induction h with
    | @intro la cs here below ih =>
      refine .intro (clean_bare.mpr here) fun c hc => ?_
      obtain ⟨d, hd, rfl⟩ := List.mem_map.mp hc
      rw [Rose.children_map]
      exact families_congr (ih d hd) (by simp [face])

theorem viewAt_bare : storedDocs.ViewAt la (cs.map bareNode) = storedDocs.ViewAt la cs := by
  refine View.ext fun p x => ?_
  induction p generalizing la cs with
  | nil => exact Iff.rfl
  | cons k p ih =>
    have hbelow : ∀ c : Node, storedDocs.ViewAt (c.label.bare :: la) (c.children.map bareNode) p x ↔
        storedDocs.ViewAt (c.label :: la) c.children p x :=
      fun c => ih.trans (viewAt_congr (by simp [face]))
    have hid : ∀ c : Node, storedDocs.ident la (bareNode c) = storedDocs.ident la c :=
      identAt_bare la
    have hview : ∀ c : Node, storedDocs.view (bareNode c) = storedDocs.view c := ownText_bare
    rw [Rose.Addressing.viewAt_cons, Rose.Addressing.viewAt_cons]
    simp only [List.mem_map, exists_exists_and_eq_and, hid, hview, Rose.label_map,
      Rose.children_map, hbelow]

theorem chainIds_bare (chain : List Node) : chainIds (chain.map bareNode) = chainIds chain := by
  induction chain with
  | nil => rfl
  | cons e anc ih =>
    have hla : ((anc.map bareNode).map Rose.label).map face = (anc.map Rose.label).map face := by
      simp [face, Function.comp_def]
    rw [List.map_cons, chainIds, chainIds, ih, identOf_bare, identOf_congr hla]

theorem named_bare {N : Option String → Prop} {chain : List Node} :
    Named N (chain.map bareNode) ↔ Named N chain := by
  induction chain with
  | nil => exact Iff.rfl
  | cons e anc ih =>
    have hla : ((anc.map bareNode).map Rose.label).map face = (anc.map Rose.label).map face := by
      simp [face, Function.comp_def]
    constructor
    · intro h
      obtain ⟨he, hns, hid, hanc⟩ := h.inv
      refine .cons ?_ ?_ (identified_bare.mp (hid.congr hla)) (ih.mp hanc)
      · simpa using he
      · simpa using hns
    · intro h
      obtain ⟨he, hns, hid, hanc⟩ := h.inv
      refine .cons ?_ ?_ (identified_bare.mpr (hid.congr hla.symm)) (ih.mpr hanc)
      · simpa using he
      · simpa using hns

end

/-! ### Without one of the siblings -/

section

variable {K : Kind} {anc : List Label} {cs : List Node} {c : Node} {j : Nat}

theorem Clean.sublist {ds : List Node} (h : Clean K anc cs) (hsub : ds.Sublist cs)
    (htail : ∀ d ∈ ds.tail, d.label.isText = false) : Clean K anc ds where
  leaf := by
    intro a ha hel
    rw [h.leaf a ha hel] at hsub
    exact List.sublist_nil.mp hsub
  top := fun hanc c hc => h.top hanc c (hsub.subset hc)
  ns := fun c hc => h.ns c (hsub.subset hc)
  named := fun c hc => h.named c (hsub.subset hc)
  text := htail
  alone := by
    intro hplain c hc htext
    have hcs := h.alone hplain c (hsub.subset hc) htext
    rw [hcs] at hsub
    rcases List.sublist_singleton.mp hsub with rfl | hds
    · simp at hc
    · exact hds
  markup := fun hplain c hc => h.markup hplain c (hsub.subset hc)
  keys := fun hplain c hc => h.keys hplain c (hsub.subset hc)
  tidy := h.tidy.sublist hsub

theorem Clean.eraseIdx (h : Clean K anc cs) (j : Nat) : Clean K anc (cs.eraseIdx j) := by
  refine h.sublist (List.eraseIdx_sublist cs j) ?_
  intro d hd
  cases cs with
  | nil => simp at hd
  | cons e cs =>
    cases j with
    | zero => exact h.text d (List.mem_of_mem_tail (by simpa using hd))
    | succ j => exact h.text d (List.mem_of_mem_eraseIdx (by simpa using hd))

theorem headText_eraseIdx (h : Clean K anc cs) (hc : cs[j]? = some c)
    (hel : c.label.isElement = true) : headText (cs.eraseIdx j) = headText cs := by
  cases cs with
  | nil => simp at hc
  | cons e cs =>
    cases j with
    | zero =>
      obtain rfl : e = c := by simpa using hc
      -- the first child is an element, and the next one is no text
      have hhead : headText (e :: cs) = none := by simp [headText, isText_of_isElement hel]
      rw [hhead]
      cases cs with
      | nil => rfl
      | cons f cs => simp [headText, h.text f (by simp)]
    | succ j => rfl

theorem go2node_eraseIdx {key : String} (hc : cs[j]? = some c) (hne : c.label.name ≠ key) :
    go2node (cs.eraseIdx j) key = go2node cs key := by
  induction cs generalizing j with
  | nil => rfl
  | cons e cs ih =>
    cases j with
    | zero =>
      obtain rfl : e = c := by simpa using hc
      rw [List.eraseIdx_cons_zero, go2node_cons, if_neg (fun h => hne h.2)]
    | succ j => rw [List.eraseIdx_cons_succ, go2node_cons, go2node_cons, ih (by simpa using hc)]

/-- Without an element that is not its key a node looks the same. -/
theorem alike_eraseIdx {t : Node} (h : Clean K (t.label :: anc) t.children)
    (hc : t.children[j]? = some c) (hel : c.label.isElement = true)
    (hkey : ¬ EntryKey (t.label :: anc) c.label.name) :
    Alike anc t (.node t.label (t.children.eraseIdx j)) where
  label := rfl
  text := headText_eraseIdx h hc hel
  key := by
    intro key hkn
    have hne : c.label.name ≠ key := by
      rintro rfl
      exact hkey hkn
    rw [keyValue, keyValue, Rose.children_node, go2node_eraseIdx hc hne]

end

/-! ### With one more child -/

section

variable {K : Kind} {anc : List Label} {cs : List Node} {c : Node}

theorem addChild_eq (hc : c.label.isText = false) (cs : List Node) : addChild cs c = cs ++ [c] := by
  rw [addChild]
  split
  · next hl _ => simp [hl] at hc
  · rfl

theorem headText_append (hc : c.label.isText = false) : headText (cs ++ [c]) = headText cs := by
  cases cs with
  | nil => simp [headText, hc]
  | cons e cs => rfl

theorem go2node_append {key : String} {k : Node} (h : go2node cs key = some k) :
    go2node (cs ++ [c]) key = some k := by
  rw [go2node, List.find?_append]
  rw [go2node] at h
  simp [h]

/-- A node that can be told apart looks the same with one more child. -/
theorem alike_append {t : Node} (ht : Identified anc t) (hc : c.label.isText = false) :
    Alike anc t (.node t.label (t.children ++ [c])) where
  label := rfl
  text := headText_append hc
  key := by
    intro key hkey
    obtain ⟨v, hv⟩ := Option.isSome_iff_exists.mp (ht.entry key hkey).1
    obtain ⟨k, hk, -⟩ := keyValue_eq_some hv
    rw [keyValue, keyValue, Rose.children_node, go2node_append hk, hk]

theorem Clean.append (h : Clean K anc cs) (hplain : ¬ K.plain) {a : Label} (hanc : anc = a :: la)
    (ha : a.isElement = true) (hc : c.label.isText = false)
    (hns : c.label.isElement = true → K.ns c.label.ns)
    (hid : c.label.isElement = true → Identified anc c)
    (hnew : ∀ k, identAt anc c = some k → ∀ d ∈ cs, identAt anc d ≠ some k) :
    Clean K anc (cs ++ [c]) where
  leaf := by
    intro b hb hel
    obtain rfl : a = b := by simpa [hanc] using hb
    simp [ha] at hel
  top := by simp [hanc]
  ns := by
    intro d hd hel
    rcases List.mem_append.mp hd with hd | hd
    · exact h.ns d hd hel
    · obtain rfl := List.mem_singleton.mp hd
      exact hns hel
  named := by
    intro d hd hel
    rcases List.mem_append.mp hd with hd | hd
    · exact h.named d hd hel
    · obtain rfl := List.mem_singleton.mp hd
      exact hid hel
  text := by
    intro d hd
    cases cs with
    | nil => simp at hd
    | cons e cs =>
      rw [List.cons_append, List.tail_cons] at hd
      rcases List.mem_append.mp hd with hd | hd
      · exact h.text d hd
      · obtain rfl := List.mem_singleton.mp hd
        exact hc
  alone := fun hp => absurd hp hplain
  markup := fun hp => absurd hp hplain
  keys := fun hp => absurd hp hplain
  tidy := by
    refine List.pairwise_append.mpr ⟨h.tidy, List.pairwise_singleton _ _, ?_⟩
    intro d hd e he k hk
    obtain rfl := List.mem_singleton.mp he
    exact fun hke => hnew k hke d hd hk

end

/-! ### The nodes of a clean document -/

section

variable {K : Kind} {β : Type} {A : Aspect β} {D : Doc} {l : Loc} {t : Node}
  {ctx : List (Rose.Frame Label)}

/-- What has children is an element. -/
theorem isElement_of_child (hD : Rose.Families (Clean K) [] D)
    (hf : Rose.focus? D l = some (t, ctx)) {j : Nat} {c : Node} (hc : t.children[j]? = some c) :
    t.label.isElement = true := by
  by_contra hel
  have hnil := (hD.focus hf).here.leaf t.label rfl (by simpa using hel)
  simp [hnil] at hc

/-- Every node of a clean document can be told apart, with all that is above
it, and its position is the one its path leads to. -/
theorem in_order (hD : Rose.Families (Clean K) [] D) (hf : Rose.focus? D l = some (t, ctx)) :
    Named K.ns (Rose.ancestors t ctx) ∧ (t.label.isElement = true →
      Named K.ns (Rose.chain t ctx) ∧
      (docs K A).idsTo [] D l = some (chainIds (Rose.chain t ctx))) := by
  refine Rose.focus_induct_loc (P := fun l t ctx => Named K.ns (Rose.ancestors t ctx) ∧
    (t.label.isElement = true → Named K.ns (Rose.chain t ctx) ∧
      (docs K A).idsTo [] D l = some (chainIds (Rose.chain t ctx)))) ?_ ?_ hf
  · intro i t hi
    refine ⟨.nil, fun hel => ?_⟩
    have hmem := List.mem_of_getElem? hi
    refine ⟨.cons hel (hD.here.ns t hmem hel) (hD.here.named t hmem hel) .nil, ?_⟩
    exact Rose.Addressing.idsTo_cons.mpr
      ⟨t, identOf [] t, [], hi, identAt_eq_some.mpr ⟨hel, rfl⟩, rfl, rfl⟩
  · intro l t ctx j c hfoc hc ih
    obtain ⟨hnamed, hids⟩ := ih.2 (isElement_of_child hD hfoc hc)
    rw [Rose.ancestors_cons, Rose.Frame.plug_of_getElem? hc]
    refine ⟨hnamed, fun hel => ?_⟩
    have hclean := (hD.focus hfoc).here
    have hmem := List.mem_of_getElem? hc
    have hlabels := Rose.map_label_chain t ctx
    rw [Rose.chain_eq, Rose.ancestors_cons, Rose.Frame.plug_of_getElem? hc]
    refine ⟨.cons hel (hclean.ns c hmem hel) (by rw [hlabels]; exact hclean.named c hmem hel)
      hnamed, ?_⟩
    rw [chainIds]
    refine Rose.Addressing.idsTo_child hfoc hids hc ?_
    exact identAt_eq_some.mpr ⟨hel, by rw [hlabels]⟩

theorem named_of_focus (hD : Rose.Families (Clean K) [] D) (hf : Rose.focus? D l = some (t, ctx))
    (hel : t.label.isElement = true) : Named K.ns (Rose.chain t ctx) :=
  ((in_order (A := texts) hD hf).2 hel).1

theorem idsTo_of_focus (hD : (docs K A).Proper [] D)
    (hf : Rose.focus? D l = some (t, ctx)) (hel : t.label.isElement = true) :
    (docs K A).idsTo [] D l = some (chainIds (Rose.chain t ctx)) :=
  ((in_order hD hf).2 hel).2

/-- The path to an element shows it. -/
theorem viewAt_of_focus (hD : (docs K A).Proper [] D)
    (hf : Rose.focus? D l = some (t, ctx)) (hel : t.label.isElement = true) :
    (docs K A).ViewAt [] D (chainIds (Rose.chain t ctx)) (A.view t) :=
  Rose.Addressing.viewAt_of_idsTo (Rose.get?_of_focus? hf) (idsTo_of_focus hD hf hel)

/-- An element that is not the key of an entry is cut out: the paths through it
are gone, and nothing else is. -/
theorem unlink_clean (hD : (docs K A).Proper [] D)
    (hf : Rose.focus? D l = some (t, ctx)) (hel : t.label.isElement = true)
    (hkey : ¬ EntryKey (ctx.map Rose.Frame.label) t.label.name) :
    (docs K A).Proper [] (Rose.unlink l D) ∧
      ∀ p x, (docs K A).ViewAt [] (Rose.unlink l D) p x ↔
        (docs K A).ViewAt [] D p x ∧ ¬ chainIds (Rose.chain t ctx) <+: p := by
  revert hel hkey
  refine Rose.focus_induct_loc (P := fun l t ctx => t.label.isElement = true →
    ¬ EntryKey (ctx.map Rose.Frame.label) t.label.name →
    (docs K A).Proper [] (Rose.unlink l D) ∧
      ∀ p x, (docs K A).ViewAt [] (Rose.unlink l D) p x ↔
        (docs K A).ViewAt [] D p x ∧ ¬ chainIds (Rose.chain t ctx) <+: p) ?_ ?_ hf
  · intro i t hi hel _
    rw [Rose.Addressing.unlink_one hi]
    have hclean : Clean K [] D := hD.here
    refine ⟨hD.of_subset (fun d hd => List.mem_of_mem_eraseIdx hd) (hclean.eraseIdx i), ?_⟩
    intro p x
    exact Rose.Addressing.viewAt_eraseIdx hD.here hi (identAt_eq_some.mpr ⟨hel, rfl⟩)
  · intro l t ctx j c hfoc hc _ hel hkey
    have hclean : Clean K (Rose.path t ctx) t.children := (hD.focus hfoc).here
    have hlabels := Rose.map_label_chain t ctx
    have hids := idsTo_of_focus hD hfoc (isElement_of_child hD hfoc hc)
    have hid : identAt (Rose.path t ctx) c = some (identOf ((Rose.chain t ctx).map Rose.label) c) :=
      identAt_eq_some.mpr ⟨hel, by rw [hlabels]⟩
    rw [Rose.chain_eq, Rose.ancestors_cons, Rose.Frame.plug_of_getElem? hc, chainIds]
    exact Rose.Addressing.viewAt_unlink hD hfoc hids hc hid (alike_eraseIdx hclean hc hel hkey)
      (hclean.eraseIdx j)

end

/-! ### Documents of a datastore -/

/-- A clean document of a local datastore. -/
abbrev Stored (D : Doc) : Prop := storedDocs.Proper [] D

theorem stored_of_check (depth : Nat) (h : Rose.checkFamilies (Clean stored) depth [] D = true) :
    Stored D :=
  show Rose.Families (Clean stored) [] D from .of_check depth h

/-- The paths of a document, and the text each of them leads to. -/
abbrev Shows (D : Doc) : View Ident String := storedDocs.ViewAt [] D

/-- The path leads to an element. -/
abbrev Present (D : Doc) (p : List Ident) : Prop := View.Has (Shows D) p

theorem Present.of_prefix {q : List Ident} (h : Present D p) (hq : q <+: p) (hne : q ≠ []) :
    Present D q := by
  obtain ⟨t, ht⟩ := h
  exact Rose.Addressing.exists_viewAt_prefix ht hq hne

/-- A clean document whose paths are given. -/
structure HasPaths (D : Doc) (V : View Ident String) : Prop where
  stored : Stored D
  paths : Shows D = V

section

variable {D : Doc} {l : Loc} {t : Node} {ctx : List (Rose.Frame Label)}

/-- A tree with a new identity is added below an element. -/
theorem attach_clean (hD : Stored D) (hf : Rose.focus? D l = some (t, ctx))
    (hel : t.label.isElement = true) {c : Node} (hc : c.label.isText = false)
    (hns : c.label.isElement = true → OfcNs c.label.ns)
    (hid : c.label.isElement = true → Identified (Rose.path t ctx) c)
    (hnew : c.label.isElement = true →
      ¬ Present D (chainIds (Rose.chain t ctx) ++ [identOf (Rose.path t ctx) c]))
    (hbelow : Rose.Families (Clean stored) (c.label :: Rose.path t ctx) c.children) :
    HasPaths (Rose.modifyChildren (addChild · c) l D) (View.union (Shows D)
      (View.below (chainIds (Rose.chain t ctx)) (storedDocs.ViewAt (Rose.path t ctx) [c]))) := by
  have hadd : (addChild · c) = (· ++ [c]) := funext (addChild_eq hc)
  have hids := idsTo_of_focus hD hf hel
  have hclean : Clean stored (Rose.path t ctx) t.children := (hD.focus hf).here
  have hself : Identified (ctx.map Rose.Frame.label) t := by
    have h := (named_of_focus hD hf hel).inv.2.2.1
    rwa [Rose.map_label_ancestors] at h
  rw [hadd]
  suffices hF : Clean stored (Rose.path t ctx) (t.children ++ [c]) by
    obtain ⟨hstored, hpaths⟩ := Rose.Addressing.viewAt_attach hD hf hids hbelow
      (alike_append hself hc) hF
    exact ⟨hstored, View.ext hpaths⟩
  refine hclean.append (by simp [stored]) rfl hel hc hns hid ?_
  intro k hk d hd hkd
  obtain ⟨hcel, rfl⟩ := identAt_eq_some.mp hk
  -- a child with the same identity would be on the path
  have hregrown := Rose.Addressing.regrown_of_focus hf hids id
  refine hnew hcel ⟨ownText d, (hregrown.viewAt_children hD (by simp)).mpr ?_⟩
  exact ⟨d, hd, hkd, .inl ⟨rfl, rfl⟩⟩

end

/-! ### Chains of edit nodes -/

/-- Equal paths go through labels that count as one. -/
theorem face_of_chainIds {N N' : Option String → Prop} {c c' : List Node} (hc : Named N c)
    (hc' : Named N' c') (h : chainIds c = chainIds c') :
    (c.map Rose.label).map face = (c'.map Rose.label).map face := by
  induction hc generalizing c' with
  | nil =>
    cases hc' with
    | nil => rfl
    | cons => simp [chainIds] at h
  | @cons e anc he _ _ _ ih =>
    cases hc' with
    | nil => simp [chainIds] at h
    | @cons e' anc' he' _ _ hanc' =>
      obtain ⟨hids, hid⟩ := List.append_inj' h rfl
      have hname : e.label.name = e'.label.name :=
        congrArg Ident.name (List.singleton_injective hid)
      simp only [List.map_cons, ih hanc' hids, face, he, he', hname]

/-- The name of the last element of a path, of the one above it, … -/
def nameIn (q : List Ident) (i : Nat) : Option String := q.reverse[i]?.map Ident.name

theorem nameIn_chainIds (chain : List Node) (i : Nat) :
    nameIn (chainIds chain) i = nameUp (chain.map Rose.label) i := by
  induction chain generalizing i with
  | nil => simp [nameIn, nameUp, chainIds]
  | cons e anc ih =>
    cases i with
    | zero => simp [nameIn, nameUp, chainIds, identOf]
    | succ i =>
      have h := ih i
      rw [nameIn, nameUp] at h ⊢
      simpa [chainIds] using h

/-- `is_key` takes the end of the path for a key. -/
def KeyPath (q : List Ident) : Prop :=
  ∃ name, nameIn q 0 = some name ∧ isKey (.element name none []) (nameIn q 1) = true

instance : DecidablePred KeyPath := fun q =>
  decidable_of_iff (∃ name ∈ nameIn q 0, isKey (.element name none []) (nameIn q 1) = true) Iff.rfl

theorem isKey_congr {l m : Label} (h : l.name = m.name) (parent : Option String) :
    isKey l parent = isKey m parent := by
  rw [isKey, isKey, h]

theorem keyPath_chainIds (e : Node) (anc : List Node) :
    KeyPath (chainIds (e :: anc)) ↔ isKey e.label (nameUp (anc.map Rose.label) 0) = true := by
  have h0 : nameIn (chainIds (e :: anc)) 0 = some e.label.name := by
    rw [nameIn_chainIds]
    rfl
  have h1 : nameIn (chainIds (e :: anc)) 1 = nameUp (anc.map Rose.label) 0 := by
    rw [nameIn_chainIds]
    rfl
  have hkey : isKey (.element e.label.name none []) (nameUp (anc.map Rose.label) 0) =
      isKey e.label (nameUp (anc.map Rose.label) 0) := isKey_congr rfl _
  rw [KeyPath, h1]
  constructor
  · rintro ⟨name, hname, hk⟩
    obtain rfl := Option.some.inj (h0.symm.trans hname)
    rwa [hkey] at hk
  · exact fun hk => ⟨e.label.name, h0, by rwa [hkey]⟩

/-- The key of an entry is a key. -/
theorem isKey_of_entryKey {l : Label} (h : EntryKey la l.name) : isKey l (nameUp la 0) = true := by
  cases la with
  | nil => exact h.elim
  | cons p la =>
    have hparent : nameUp (p :: la) 0 = some p.name := rfl
    rw [EntryKey, keyName] at h
    rw [hparent, isKey]
    split at h
    · next hp =>
        simp only [Option.some.injEq] at h
        rcases hp with hp | hp <;> simp [← h, hp]
    · split at h
      · next hp =>
          simp only [Option.some.injEq] at h
          simp [← h, hp.1]
      · split at h
        · next hp =>
            simp only [Option.some.injEq] at h
            simp [← h]
        · split at h
          · next hp =>
              simp only [Option.some.injEq] at h
              rcases hp.1 with hp | hp | hp <;> simp [← h, hp]
          · simp at h

/-- What may be missing when something below it is written: it is no entry and
no item, and at the top it is the root. -/
structure Hollow (q : List Ident) : Prop where
  entry : ∀ name ∈ nameIn q 0, keyName name (nameIn q 2) = none
  item : ∀ name ∈ nameIn q 0, comparesText name (nameIn q 1) = false
  root : q.length = 1 → nameIn q 0 = some "capable-switch"

instance : DecidablePred Hollow := fun q =>
  decidable_of_iff ((∀ name ∈ nameIn q 0, keyName name (nameIn q 2) = none) ∧
      (∀ name ∈ nameIn q 0, comparesText name (nameIn q 1) = false) ∧
      (q.length = 1 → nameIn q 0 = some "capable-switch"))
    ⟨fun h => ⟨h.1, h.2.1, h.2.2⟩, fun h => ⟨h.entry, h.item, h.root⟩⟩

/-- Every element on the path is there or may be missing. -/
def Covered (D : Doc) (q : List Ident) : Prop :=
  ∀ p, p ≠ [] → p <+: q → Present D p ∨ Hollow p

theorem Covered.of_prefix {q : List Ident} (h : Covered D q) (hp : p <+: q) : Covered D p :=
  fun r hne hr => h r hne (hr.trans hp)

section

variable {e : Node} {anc : List Node}

theorem label_copyShallow (e : Node) : (copyShallow e).label = e.label.bare := by
  rw [copyShallow]
  split
  · next h => rw [h]; rfl
  · next l h =>
      cases hl : e.label with
      | element name ns as => exact absurd hl (h name ns as)
      | _ => rfl

theorem children_copyShallow (e : Node) : (copyShallow e).children = [] := by
  rw [copyShallow]
  split <;> rfl

theorem Hollow.keyName_eq (h : Hollow (chainIds (e :: anc))) :
    keyName e.label.name (nameUp (anc.map Rose.label) 1) = none := by
  have hname := h.entry e.label.name (by rw [nameIn_chainIds]; rfl)
  rw [nameIn_chainIds] at hname
  exact hname

theorem Hollow.comparesText_eq (h : Hollow (chainIds (e :: anc))) :
    comparesText e.label.name (nameUp (anc.map Rose.label) 0) = false := by
  have hname := h.item e.label.name (by rw [nameIn_chainIds]; rfl)
  rw [nameIn_chainIds] at hname
  exact hname

theorem Hollow.root_name (h : Hollow (chainIds [e])) : e.label.name = "capable-switch" := by
  have hroot := h.root rfl
  rw [nameIn_chainIds] at hroot
  exact Option.some.inj hroot

theorem Hollow.ident_eq (h : Hollow (chainIds (e :: anc))) :
    identOf (anc.map Rose.label) e = ⟨e.label.name, none⟩ := by
  simp [identOf, h.keyName_eq, h.comparesText_eq]

theorem Hollow.ident_copy (h : Hollow (chainIds (e :: anc)))
    (hla : la.map face = (anc.map Rose.label).map face) :
    identOf la (copyShallow e) = ⟨e.label.name, none⟩ := by
  rw [identOf_congr hla]
  simp [identOf, label_copyShallow, h.keyName_eq, h.comparesText_eq]

theorem Hollow.identified_copy (h : Hollow (chainIds (e :: anc)))
    (hla : la.map face = (anc.map Rose.label).map face) : Identified la (copyShallow e) where
  entry := by simp [label_copyShallow, nameUp_congr hla, h.keyName_eq]
  item := by simp [label_copyShallow, nameUp_congr hla, h.comparesText_eq]

/-- The paths of a bare copy: it is the only one. -/
theorem viewAt_copyShallow (h : Hollow (chainIds (e :: anc))) (he : e.label.isElement = true)
    (hla : la.map face = (anc.map Rose.label).map face) :
    storedDocs.ViewAt la [copyShallow e] =
      View.single [identOf (anc.map Rose.label) e] none := by
  refine View.ext fun r x => ?_
  have hid : identAt la (copyShallow e) = some (identOf (anc.map Rose.label) e) := by
    rw [identAt_eq_some, label_copyShallow, h.ident_copy hla, h.ident_eq]
    exact ⟨by simpa using he, rfl⟩
  have htext : ownText (copyShallow e) = none := by
    rw [ownText, children_copyShallow]
    rfl
  cases r with
  | nil => simp [Rose.Addressing.ViewAt, View.single]
  | cons k r =>
    rw [Rose.Addressing.viewAt_cons]
    constructor
    · rintro ⟨c, hc, hk, hrest⟩
      obtain rfl := List.mem_singleton.mp hc
      obtain rfl := Option.some.inj (hid.symm.trans hk)
      rcases hrest with ⟨rfl, hx⟩ | hrest
      · exact ⟨rfl, hx.symm.trans htext⟩
      · rw [children_copyShallow] at hrest
        exact absurd hrest Rose.Addressing.not_viewAt_empty
    · rintro ⟨hr, rfl⟩
      obtain ⟨rfl, rfl⟩ := List.cons_eq_cons.mp hr
      exact ⟨_, List.mem_singleton_self _, hid, .inl ⟨rfl, htext⟩⟩

end

/-! ### The root -/

/-- The new root stands among nodes that are no elements. -/
theorem setRootElement_split (hD : Clean stored [] D) (n : Node) :
    ∃ pre post, setRootElement D n = pre ++ n :: post ∧ rootIndex D = pre.length ∧
      ∀ c ∈ pre ++ post, c ∈ D ∧ c.label.isElement = false := by
  rw [setRootElement, rootIndex]
  cases hi : D.findIdx? (fun n => n.label.isElement) with
  | none =>
    refine ⟨D, [], rfl, rfl, fun c hc => ?_⟩
    rw [List.append_nil] at hc
    exact ⟨hc, List.findIdx?_eq_none_iff.mp hi c hc⟩
  | some i =>
    obtain ⟨hlt, hel, hfirst⟩ := List.findIdx?_eq_some_iff_getElem.mp hi
    have hget : D[i]? = some D[i] := List.getElem?_eq_getElem hlt
    refine ⟨D.take i, D.drop (i + 1), ?_, ?_, ?_⟩
    · exact Rose.set_eq_of_getElem? n hget
    · rw [List.length_take]
      simp only [Option.getD_some]
      omega
    · intro c hc
      rcases List.mem_append.mp hc with hc | hc
      · refine ⟨List.mem_of_mem_take hc, ?_⟩
        obtain ⟨j, hj, rfl⟩ := List.mem_take_iff_getElem.mp hc
        have hnot := hfirst j (by omega)
        simpa using hnot
      · refine ⟨List.mem_of_mem_drop hc, ?_⟩
        -- a second element at the top would have the identity of the first
        obtain ⟨j, hj, rfl⟩ := List.mem_drop_iff_getElem.mp hc
        by_contra hne
        have hc' : D[i + 1 + j].label.isElement = true := by simpa using hne
        have hname := (hD.top rfl _ (List.getElem_mem hlt)).2 hel
        have hj' : i + 1 + j < D.length := by omega
        have hname' := (hD.top rfl _ (List.getElem_mem hj')).2 hc'
        refine List.pairwise_iff_getElem.mp hD.tidy i (i + 1 + j) hlt hj' (by omega)
          ⟨"capable-switch", none⟩ ?_ ?_
        · exact identAt_eq_some.mpr ⟨hel, by simp [identOf, hname, keyName, comparesText]⟩
        · exact identAt_eq_some.mpr ⟨hc', by simp [identOf, hname', keyName, comparesText]⟩

/-- With a new root the paths are those of the root. -/
theorem setRoot_clean (hD : Stored D) {n : Node} (hn : n.label.isText = false)
    (hns : n.label.isElement = true → OfcNs n.label.ns)
    (hname : n.label.isElement = true → n.label.name = "capable-switch")
    (hbelow : Rose.Families (Clean stored) [n.label] n.children) :
    HasPaths (setRootElement D n) (storedDocs.ViewAt [] [n]) := by
  have hclean : Clean stored [] D := hD.here
  obtain ⟨pre, post, heq, -, hothers⟩ := setRootElement_split hclean n
  have hmem : ∀ c ∈ pre ++ n :: post, c = n ∨ c ∈ D ∧ c.label.isElement = false := by
    intro c hc
    rcases List.mem_append.mp hc with hc | hc
    · exact .inr (hothers c (by simp [hc]))
    · rcases List.mem_cons.mp hc with rfl | hc
      · exact .inl rfl
      · exact .inr (hothers c (by simp [hc]))
  have htext : ∀ c ∈ pre ++ n :: post, c.label.isText = false := by
    intro c hc
    rcases hmem c hc with rfl | ⟨hD', -⟩
    · exact hn
    · exact (hclean.top rfl c hD').1
  have honly : ∀ c ∈ pre ++ n :: post, c.label.isElement = true → c = n := by
    intro c hc hel
    rcases hmem c hc with rfl | ⟨-, hno⟩
    · rfl
    · simp [hno] at hel
  rw [heq]
  refine ⟨.intro ?_ ?_, View.ext ?_⟩
  · refine ⟨by simp, ?_, ?_, ?_, ?_, False.elim, False.elim, False.elim, ?_⟩
    · intro _ c hc
      refine ⟨htext c hc, fun hel => ?_⟩
      obtain rfl := honly c hc hel
      exact hname hel
    · intro c hc hel
      obtain rfl := honly c hc hel
      exact hns hel
    · intro c hc hel
      obtain rfl := honly c hc hel
      exact ⟨by simp [hname hel, keyName], by simp [hname hel, comparesText]⟩
    · exact fun c hc => htext c (List.mem_of_mem_tail hc)
    · have hnone : ∀ c ∈ pre ++ post, identAt [] c = none := fun c hc => by
        simp [identAt, (hothers c hc).2]
      refine List.pairwise_append.mpr ⟨?_, List.pairwise_cons.mpr ⟨?_, ?_⟩, ?_⟩
      · exact List.pairwise_of_forall_mem_list fun c hc d _ k hk => by
          simp [hnone c (by simp [hc])] at hk
      · exact fun d hd k _ => by simp [hnone d (by simp [hd])]
      · exact List.pairwise_of_forall_mem_list fun c hc d _ k hk => by
          simp [hnone c (by simp [hc])] at hk
      · exact fun c hc d _ k hk => by simp [hnone c (by simp [hc])] at hk
  · intro c hc
    rcases hmem c hc with rfl | ⟨hD', -⟩
    · exact hbelow
    · exact hD.child hD'
  · intro p x
    cases p with
    | nil => simp [Rose.Addressing.ViewAt]
    | cons k p =>
      refine Rose.Addressing.viewAt_cons.trans
        (Iff.trans (exists_congr fun c => ?_) Rose.Addressing.viewAt_cons.symm)
      constructor
      · rintro ⟨hc, hk, hrest⟩
        exact ⟨List.mem_singleton.mpr (honly c hc (identAt_eq_some.mp hk).1), hk, hrest⟩
      · rintro ⟨hc, hk, hrest⟩
        obtain rfl := List.mem_singleton.mp hc
        exact ⟨by simp, hk, hrest⟩

/-- Where the root is missing there is nothing. -/
theorem not_present_of_no_root (hD : Stored D) {e : Node} (hname : e.label.name = "capable-switch")
    (h : ¬ Present D (chainIds [e])) (p : List Ident) : ¬ Present D p := by
  rintro ⟨t, ht⟩
  cases p with
  | nil => exact Rose.Addressing.not_viewAt_nil ht
  | cons k p =>
    obtain ⟨c, hc, hk, -⟩ := ht
    obtain ⟨hel, -⟩ := identAt_eq_some.mp hk
    have hclean : Clean stored [] D := hD.here
    have hcname := (hclean.top rfl c hc).2 hel
    refine h ⟨ownText c, c, hc, identAt_eq_some.mpr ⟨hel, ?_⟩, .inl ⟨rfl, rfl⟩⟩
    simp [identOf, hname, hcname, keyName, comparesText]

end OfConfig.Proofs
