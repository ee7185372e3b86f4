import OfConfig.Proofs.Paths

/-!
# `OfConfig.Proofs.Writes`: the operations on a datastore, path by path

What `edit_create`, `edit_replace`, `edit_delete` and `edit_remove` make of the
paths of a clean document (`HasPaths`), for an edit node that can be told
apart from its siblings, with all that is above it (`Placed`):

* `editCreateR_made`: the elements missing above are made, and nothing else.
* `editCreate_hasPaths`: below them the paths of the edit node are added.
* `deleteAll_hasPaths`: the path of the edit node is cut off.
* `editReplace_hasPaths`: it is cut off and written anew.
-/

set_option autoImplicit false

namespace OfConfig.Proofs

open OfConfig.Lib OfConfig.Xml OfConfig.Edit

variable {D' : Doc} {chain : List Node} {f : Found} {la : List Label} {q : List Ident}

/-! ### Chains that look the same -/

section

variable {t u : Node} {ctx : List (Rose.Frame Label)}

theorem alike_plug {f : Rose.Frame Label} (h : Alike (f.label :: la) t u) :
    Alike la (f.plug t) (f.plug u) := by
  have hget : (f.plug t).children[f.left.length]? = some t := by simp
  have hset : f.plug u = .node (f.plug t).label ((f.plug t).children.set f.left.length u) := by
    simp [Rose.Frame.plug]
  rw [hset]
  exact Alike.up hget h

/-- The path of a node is the one of a node that looks the same. -/
theorem chainIds_alike (h : Alike (ctx.map Rose.Frame.label) t u) :
    chainIds (Rose.chain u ctx) = chainIds (Rose.chain t ctx) := by
  induction ctx generalizing t u with
  | nil => exact congrArg (fun k => [k]) h.identOf
  | cons f ctx ih =>
    have hlabels : (Rose.ancestors u (f :: ctx)).map Rose.label =
        (Rose.ancestors t (f :: ctx)).map Rose.label := by
      rw [Rose.map_label_ancestors, Rose.map_label_ancestors]
    have hid := h.identOf
    rw [← Rose.map_label_ancestors t] at hid
    rw [Rose.chain_eq, Rose.chain_eq, chainIds, chainIds, hlabels, hid]
    exact congrArg (· ++ _) (ih (alike_plug h))

theorem Named.alike {N : Option String → Prop} (hn : Named N (Rose.chain t ctx))
    (h : Alike (ctx.map Rose.Frame.label) t u) : Named N (Rose.chain u ctx) := by
  induction ctx generalizing t u with
  | nil =>
    obtain ⟨hel, hns, hid, -⟩ := hn.inv
    refine .cons ?_ ?_ (h.identified hid) .nil
    · rwa [h.label]
    · rwa [h.label]
  | cons f ctx ih =>
    obtain ⟨hel, hns, hid, hanc⟩ := hn.inv
    refine .cons ?_ ?_ ?_ (ih hanc (alike_plug h))
    · rwa [h.label]
    · rwa [h.label]
    · rw [Rose.map_label_ancestors] at hid ⊢
      exact h.identified hid

end

/-! ### The elements above -/

theorem Named.mono {N N' : Option String → Prop} (hN : ∀ ns, N ns → N' ns) (h : Named N chain) :
    Named N' chain := by
  induction h with
  | nil => exact .nil
  | cons he hns hid _ ih => exact .cons he (hN _ hns) hid ih

theorem Named.matchesOfc (h : Named OfcNs chain) : Named MatchesOfc chain :=
  h.mono fun _ => .inl

section

variable {D : Doc} {e : Node} {anc : List Node}

/-- What is found is an element at the path of the edit node. -/
theorem find_at (hD : Stored D) (hchain : Named MatchesOfc (e :: anc))
    (hf : findElementEquiv D (e :: anc) = some f) :
    ∃ ctx, Rose.focus? D f.loc = some (f.node, ctx) ∧ f.node.label.isElement = true ∧
      chainIds (Rose.chain f.node ctx) = chainIds (e :: anc) := by
  obtain ⟨ctx, hfoc, -⟩ := find_focus hf
  have hel := find_isElement hchain.inv.1 hf
  refine ⟨ctx, hfoc, hel, ?_⟩
  exact Option.some.inj ((idsTo_of_focus hD hfoc hel).symm.trans (find_some hD hchain hf))

theorem present_of_find (hD : Stored D) (hchain : Named MatchesOfc (e :: anc))
    (hf : findElementEquiv D (e :: anc) = some f) : Present D (chainIds (e :: anc)) := by
  obtain ⟨ctx, hfoc, hel, hids⟩ := find_at hD hchain hf
  rw [← hids]
  exact ⟨_, viewAt_of_focus hD hfoc hel⟩

theorem not_present_of_find (hD : Stored D) (hchain : Named MatchesOfc (e :: anc))
    (hf : findElementEquiv D (e :: anc) = none) : ¬ Present D (chainIds (e :: anc)) :=
  fun ⟨x, hx⟩ => find_none hD hchain hf x hx

/-- Where a path ends nothing is missing above. -/
theorem union_missing_of_present (h : Present D q) :
    View.union (Shows D) (View.missing q (Shows D)) = Shows D :=
  View.union_missing_of_has (fun _ hne hp => h.of_prefix hp hne) _

theorem clean_nil {K : Kind} : Clean K la [] where
  leaf := by simp
  top := by simp
  ns := by simp
  named := by simp
  text := by simp
  alone := by simp
  markup := by simp
  keys := by simp
  tidy := .nil

/-- A document in which a path has been made: the elements that were missing
on it are there, and the position is the one of its end. -/
structure Made (D D' : Doc) (q : List Ident) (l : Loc) : Prop where
  paths : HasPaths D' (View.union (Shows D) (View.missing q (Shows D)))
  focus : ∃ t ctx, Rose.focus? D' l = some (t, ctx) ∧ t.label.isElement = true ∧
    chainIds (Rose.chain t ctx) = q

theorem not_prefix_concat (q : List Ident) (k : Ident) : ¬ q ++ [k] <+: q := fun h => by
  have hlen := h.length_le
  rw [List.length_append, List.length_singleton] at hlen
  omega

theorem not_prefix_above (e : Node) (anc : List Node) : ¬ chainIds (e :: anc) <+: chainIds anc :=
  not_prefix_concat _ _

/-- The root is made where there is none. -/
theorem made_root (hD : Stored D) (he : e.label.isElement = true) (hns : OfcNs e.label.ns)
    (h : Hollow (chainIds [e])) (hnot : ¬ Present D (chainIds [e])) :
    Made D (setRootElement D (copyShallow e)) (chainIds [e]) [rootIndex D] := by
  have hlab := label_copyShallow e
  have hel : (copyShallow e).label.isElement = true := by rw [hlab]; simpa using he
  have hnone := not_present_of_no_root hD (h.root_name) hnot
  refine ⟨?_, ?_⟩
  · have hroot : HasPaths (setRootElement D (copyShallow e))
        (storedDocs.ViewAt [] [copyShallow e]) := by
      refine setRoot_clean hD (isText_of_isElement hel) (fun _ => ?_) (fun _ => ?_) ?_
      · rw [hlab]
        simpa using hns
      · rw [hlab]
        simpa using h.root_name
      · rw [children_copyShallow]
        exact .intro clean_nil (by simp)
    refine ⟨hroot.stored, hroot.paths.trans ?_⟩
    have htop : ([] : List Label).map face = (([] : List Node).map Rose.label).map face := rfl
    rw [viewAt_copyShallow h he htop]
    refine View.ext fun p x => ⟨?_, ?_⟩
    · rintro ⟨rfl, rfl⟩
      exact .inr ⟨rfl, by simp, List.prefix_refl _, hnot⟩
    · rintro (hD' | ⟨rfl, hne, hp, -⟩)
      · exact absurd ⟨x, hD'⟩ (hnone p)
      · rcases List.prefix_concat_iff.mp hp with rfl | hp
        · exact ⟨rfl, rfl⟩
        · exact absurd (List.prefix_nil.mp hp) hne
  · have hclean : Clean stored [] D := hD.here
    obtain ⟨pre, post, heq, hidx, -⟩ := setRootElement_split hclean (copyShallow e)
    refine ⟨copyShallow e, [], ?_, hel, ?_⟩
    · rw [heq, hidx]
      simp [Rose.focus?, Rose.focusIn]
    · rw [Rose.chain_eq, Rose.ancestors_nil, chainIds, chainIds, h.ident_copy rfl]
      exact congrArg (fun k => [k]) h.ident_eq.symm

/-- An element is made below the path of the one above it. -/
theorem made_child {l : Loc} (h : Made D D' (chainIds anc) l) (hanc : Named OfcNs anc)
    (he : e.label.isElement = true) (hns : OfcNs e.label.ns) (hollow : Hollow (chainIds (e :: anc)))
    (hnot : ¬ Present D (chainIds (e :: anc))) :
    Made D (Rose.modifyChildren (addChild · (copyShallow e)) l D') (chainIds (e :: anc))
      (l ++ [childCount D' l]) := by
  obtain ⟨t, ctx, hfoc, htel, hids⟩ := h.focus
  have hD' := h.paths.stored
  have hlab := label_copyShallow e
  have hel : (copyShallow e).label.isElement = true := by rw [hlab]; simpa using he
  have htext := isText_of_isElement hel
  have htnamed := named_of_focus hD' hfoc htel
  have hface : (Rose.path t ctx).map face = (anc.map Rose.label).map face := by
    rw [← Rose.map_label_chain]
    exact face_of_chainIds htnamed hanc hids
  have hid : identOf (Rose.path t ctx) (copyShallow e) = identOf (anc.map Rose.label) e := by
    rw [hollow.ident_copy hface, hollow.ident_eq]
  have hnew : ¬ Present D' (chainIds (Rose.chain t ctx) ++
      [identOf (Rose.path t ctx) (copyShallow e)]) := by
    rw [hids, hid, Present, h.paths.paths, View.has_union]
    rintro (hpres | hmiss)
    · exact hnot hpres
    · exact View.not_has_missing (not_prefix_concat _ _) hmiss
  have hattach := attach_clean hD' hfoc htel htext (fun _ => by rw [hlab]; simpa using hns)
    (fun _ => hollow.identified_copy hface) (fun _ => hnew)
    (by rw [children_copyShallow]; exact .intro clean_nil (by simp))
  refine ⟨⟨hattach.stored, hattach.paths.trans ?_⟩, ?_⟩
  · rw [h.paths.paths, viewAt_copyShallow hollow he hface, View.below_single, hids,
      View.union_assoc,
      chainIds, View.missing_concat hnot]
  · have hcount : childCount D' l = t.children.length := by rw [childCount, hfoc]
    have hfoc' := Rose.Addressing.focus?_modifyChildren (addChild · (copyShallow e)) hfoc
    have hget : (addChild t.children (copyShallow e))[t.children.length]? =
        some (copyShallow e) := by
      rw [addChild_eq htext]
      simp
    have hchild := Rose.focus?_append (j := t.children.length) hfoc' hget
    have hself : Identified (ctx.map Rose.Frame.label) t := by
      have hself := htnamed.inv.2.2.1
      rwa [Rose.map_label_ancestors] at hself
    refine ⟨_, _, by rw [hcount]; exact hchild, hel, ?_⟩
    -- the node above looks the same with the new child
    have hplug : Rose.chain (copyShallow e)
        (⟨(addChild t.children (copyShallow e)).take t.children.length, t.label,
          (addChild t.children (copyShallow e)).drop (t.children.length + 1)⟩ :: ctx) =
        copyShallow e :: Rose.chain (.node t.label (t.children ++ [copyShallow e])) ctx := by
      rw [Rose.chain_eq, Rose.ancestors_cons, addChild_eq htext]
      simp [Rose.Frame.plug]
    refine (congrArg chainIds hplug).trans ?_
    rw [chainIds, chainIds_alike (alike_append hself htext), hids, Rose.map_label_chain, chainIds]
    exact congrArg (fun k => chainIds anc ++ [k]) hid

/-- `edit_create_r` makes the path of an edit node. -/
theorem editCreateR_made (hD : Stored D) (hne : chain ≠ []) (hchain : Named OfcNs chain)
    (hcov : Covered D (chainIds chain)) :
    Made D (editCreateR D chain).1 (chainIds chain) (editCreateR D chain).2 := by
  induction chain with
  | nil => exact absurd rfl hne
  | cons e anc ih =>
    obtain ⟨he, hns, hid, hanc⟩ := hchain.inv
    rw [editCreateR]
    cases hf : findElementEquiv D (e :: anc) with
    | some f =>
      have hpres := present_of_find hD hchain.matchesOfc hf
      obtain ⟨ctx, hfoc, hel, hids⟩ := find_at hD hchain.matchesOfc hf
      exact ⟨⟨hD, (union_missing_of_present hpres).symm⟩, f.node, ctx, hfoc, hel, hids⟩
    | none =>
      have hnot := not_present_of_find hD hchain.matchesOfc hf
      have hollow : Hollow (chainIds (e :: anc)) :=
        (hcov _ (chainIds_ne_nil e anc) (List.prefix_refl _)).resolve_left hnot
      cases anc with
      | nil => exact made_root hD he hns hollow hnot
      | cons p anc =>
        have habove := ih (by simp) hanc (hcov.of_prefix (List.prefix_append _ _))
        exact made_child habove hanc he hns hollow hnot

end

/-! ### Edit nodes at their place -/

/-- An edit node that can be told apart, with all that is above and below it. -/
structure Placed (N : Option String → Prop) (n : Node) (anc : List Node) : Prop where
  named : Named N (n :: anc)
  below : Rose.Families (Clean ⟨N, True⟩) ((n :: anc).map Rose.label) n.children
  root : anc = [] → n.label.name = "capable-switch"

/-- The paths of an edit node and of what is below it. -/
def nodePaths (n : Node) (anc : List Node) : View Ident String :=
  View.below (chainIds anc) (storedDocs.ViewAt (anc.map Rose.label) [n])

section

variable {N : Option String → Prop} {n m : Node} {anc anc' : List Node}

theorem Clean.stored {cs : List Node} (h : Clean ⟨OfcNs, True⟩ la cs) : Clean stored la cs :=
  ⟨h.leaf, h.top, h.ns, h.named, h.text, False.elim, False.elim, False.elim, h.tidy⟩

theorem map_face_map_bare (anc : List Node) :
    ((anc.map bareNode).map Rose.label).map face = (anc.map Rose.label).map face := by
  simp [face, Function.comp_def]

theorem Placed.bare (h : Placed N n anc) (hm : (m :: anc').map bareNode = (n :: anc).map bareNode) :
    Placed N m anc' := by
  have hface : ((m :: anc').map Rose.label).map face = ((n :: anc).map Rose.label).map face := by
    rw [← map_face_map_bare, hm, map_face_map_bare]
  have hhead : bareNode m = bareNode n := (List.cons_eq_cons.mp (by simpa using hm)).1
  refine ⟨named_bare.mp (by rw [hm]; exact named_bare.mpr h.named), ?_, ?_⟩
  · have hchildren : m.children.map bareNode = n.children.map bareNode := by
      rw [← Rose.children_map, ← Rose.children_map]
      exact congrArg Rose.children hhead
    rw [← families_bare, hchildren, families_bare]
    exact families_congr h.below hface.symm
  · rintro rfl
    have hnil : anc = [] := by
      have hlen := congrArg List.length hm
      simpa using hlen.symm
    have hname := congrArg (fun k : Node => k.label.name) hhead
    simp only [Rose.label_map, Label.name_bare] at hname
    rw [hname]
    exact h.root hnil

theorem chainIds_congr {chain' : List Node} (h : chain.map bareNode = chain'.map bareNode) :
    chainIds chain = chainIds chain' := by
  rw [← chainIds_bare, h, chainIds_bare]

theorem nodePaths_congr (hm : (m :: anc').map bareNode = (n :: anc).map bareNode) :
    nodePaths m anc' = nodePaths n anc := by
  obtain ⟨hhead, htail⟩ := List.cons_eq_cons.mp (by simpa using hm)
  have hface : (anc'.map Rose.label).map face = (anc.map Rose.label).map face := by
    rw [← map_face_map_bare, htail, map_face_map_bare]
  have hview : storedDocs.ViewAt (anc'.map Rose.label) [m] =
      storedDocs.ViewAt (anc.map Rose.label) [n] :=
    calc storedDocs.ViewAt (anc'.map Rose.label) [m]
      _ = storedDocs.ViewAt (anc'.map Rose.label) ([m].map bareNode) := viewAt_bare.symm
      _ = storedDocs.ViewAt (anc'.map Rose.label) ([n].map bareNode) := by simp [hhead]
      _ = storedDocs.ViewAt (anc'.map Rose.label) [n] := viewAt_bare
      _ = storedDocs.ViewAt (anc.map Rose.label) [n] := View.ext fun _ _ => viewAt_congr hface
  rw [nodePaths, nodePaths, chainIds_congr htail, hview]

/-- The paths of an edit node go through it. -/
theorem prefix_of_nodePaths (hn : n.label.isElement = true) {p : List Ident} {x : Option String}
    (h : nodePaths n anc p x) : chainIds (n :: anc) <+: p := by
  obtain ⟨r, rfl, hr⟩ := h
  cases r with
  | nil => exact absurd hr Rose.Addressing.not_viewAt_nil
  | cons k r =>
    obtain ⟨c, hc, hk, -⟩ := hr
    obtain rfl := List.mem_singleton.mp hc
    obtain ⟨-, rfl⟩ := identAt_eq_some.mp hk
    rw [chainIds, List.prefix_append_right_inj]
    exact ⟨r, rfl⟩

end

/-! ### `edit_create` -/

section

variable {σ : Type} {D : Doc} {n : Node} {anc : List Node} {ctx : List (Rose.Frame Label)}

theorem editCreateXml_root (hD : Stored D) (hn : Placed OfcNs n [])
    (hnot : ¬ Present D (chainIds [n])) : HasPaths (setRootElement D n)
      (View.union (View.union (Shows D) (View.missing [] (Shows D))) (nodePaths n [])) := by
  obtain ⟨hel, hns, -, -⟩ := hn.named.inv
  have hroot := setRoot_clean hD (isText_of_isElement hel) (fun _ => hns) (fun _ => hn.root rfl)
    (hn.below.mono fun _ _ h => h.stored)
  refine ⟨hroot.stored, hroot.paths.trans (View.ext fun p x => ⟨?_, ?_⟩)⟩
  · exact fun h => .inr ⟨p, rfl, h⟩
  · rintro ((h | ⟨-, hne, hp, -⟩) | ⟨r, rfl, h⟩)
    · exact absurd ⟨x, h⟩ (not_present_of_no_root hD (hn.root rfl) hnot p)
    · exact absurd (List.prefix_nil.mp hp) hne
    · exact h

/-- `edit_create` on a local datastore: the elements missing above are made,
and the edit node is copied below them. -/
theorem editCreateXml_hasPaths (hD : Stored D) (hn : Placed OfcNs n anc)
    (hcov : Covered D (chainIds anc)) (hnot : ¬ Present D (chainIds (n :: anc))) :
    HasPaths (editCreateXml D n anc) (View.union
      (View.union (Shows D) (View.missing (chainIds anc) (Shows D))) (nodePaths n anc)) := by
  obtain ⟨hel, hns, hid, hanc⟩ := hn.named.inv
  cases anc with
  | nil => exact editCreateXml_root hD hn hnot
  | cons p anc =>
    have hmade := editCreateR_made hD (by simp) hanc hcov
    obtain ⟨t, ctx, hfoc, htel, hids⟩ := hmade.focus
    have hD' := hmade.paths.stored
    have htnamed := named_of_focus hD' hfoc htel
    have hface : (Rose.path t ctx).map face = ((p :: anc).map Rose.label).map face := by
      rw [← Rose.map_label_chain]
      exact face_of_chainIds htnamed hanc hids
    have hnew : ¬ Present (editCreateR D (p :: anc)).1
        (chainIds (Rose.chain t ctx) ++ [identOf (Rose.path t ctx) n]) := by
      rw [hids, identOf_congr hface, Present, hmade.paths.paths, View.has_union]
      rintro (hpres | hmiss)
      · exact hnot hpres
      · exact View.not_has_missing (not_prefix_concat _ _) hmiss
    have hbelow : Rose.Families (Clean stored) (n.label :: Rose.path t ctx) n.children :=
      families_congr (hn.below.mono fun _ _ h => h.stored) (by simp [hface])
    have hattach := attach_clean hD' hfoc htel (isText_of_isElement hel) (fun _ => hns)
      (fun _ => hid.congr hface.symm) (fun _ => hnew) hbelow
    refine ⟨hattach.stored, hattach.paths.trans ?_⟩
    rw [hmade.paths.paths, hids, nodePaths]
    exact congrArg (fun V => View.union _ (View.below _ V)) (View.ext fun _ _ => viewAt_congr hface)

theorem bare_dropOp (n : Node) : bareNode (.node (dropOpAttr n.label) n.children) = bareNode n := by
  rw [bareNode, bareNode, Rose.map_node, bare_dropOpAttr]
  conv_rhs => rw [← Rose.eta n, Rose.map_node]

/-- Nodes that differ in attributes stand below ancestors that do. -/
theorem chain_bare_congr {m : Node} (h : bareNode m = bareNode n) (ctx : List (Rose.Frame Label)) :
    (Rose.chain m ctx).map bareNode = (Rose.chain n ctx).map bareNode := by
  rw [Rose.chain_map, Rose.chain_map]
  exact congrArg (Rose.chain · _) h

theorem editCreate_hasPaths (B : Backend σ) (s : σ) (hD : Stored D)
    (hn : Placed OfcNs n (Rose.ancestors n ctx))
    (hcov : Covered D (chainIds (Rose.ancestors n ctx)))
    (hnot : ¬ Present D (chainIds (Rose.chain n ctx))) :
    HasPaths (editCreate false B n ctx D s).orig (View.union
      (View.union (Shows D) (View.missing (chainIds (Rose.ancestors n ctx)) (Shows D)))
      (nodePaths n (Rose.ancestors n ctx))) := by
  -- the attribute that is dropped plays no role
  have hbare := chain_bare_congr (bare_dropOp n) ctx
  have hanc : (Rose.ancestors (.node (dropOpAttr n.label) n.children) ctx).map bareNode =
      (Rose.ancestors n ctx).map bareNode := congrArg List.tail hbare
  rw [← chainIds_congr hanc] at hcov ⊢
  rw [← chainIds_congr hbare] at hnot
  rw [← nodePaths_congr hbare]
  exact editCreateXml_hasPaths hD (hn.bare hbare) hcov hnot

end

/-! ### `edit_delete`, `edit_remove` and `edit_replace` -/

section

variable {σ : Type} {D : Doc} {n : Node} {anc : List Node} {ctx : List (Rose.Frame Label)}

/-- Nothing is cut off where there is nothing. -/
theorem without_of_not_present (hne : q ≠ []) (h : ¬ Present D q) :
    View.without q (Shows D) = Shows D := by
  refine View.ext fun p x => and_iff_left_of_imp fun hx hq => h ?_
  exact Present.of_prefix ⟨x, hx⟩ hq hne

/-- The equivalent of an edit node that is no key is unlinked. -/
theorem unlink_find (hD : Stored D) (hchain : Named MatchesOfc (n :: anc))
    (hkey : ¬ KeyPath (chainIds (n :: anc))) (hf : findElementEquiv D (n :: anc) = some f) :
    HasPaths (Rose.unlink f.loc D) (View.without (chainIds (n :: anc)) (Shows D)) := by
  obtain ⟨ctx, hfoc, hel, hids⟩ := find_at hD hchain hf
  have hnot : ¬ EntryKey (ctx.map Rose.Frame.label) f.node.label.name := by
    intro hentry
    have hk := isKey_of_entryKey hentry
    rw [← Rose.map_label_ancestors f.node, ← keyPath_chainIds, ← Rose.chain_eq, hids] at hk
    exact hkey hk
  obtain ⟨hstored, hpaths⟩ := unlink_clean hD hfoc hel hnot
  rw [hids] at hpaths
  exact ⟨hstored, View.ext hpaths⟩

theorem not_present_without (h : HasPaths D' (View.without q (Shows D))) : ¬ Present D' q := by
  rintro ⟨x, hx⟩
  rw [h.paths] at hx
  exact hx.2 (List.prefix_refl q)

/-- The loop that deletes all equivalents of an edit node cuts its path off. -/
theorem deleteAll_hasPaths (B : Backend σ) (fuel : Nat) (s : σ) (hD : Stored D)
    (hchain : Named MatchesOfc (n :: anc)) (hkey : ¬ KeyPath (chainIds (n :: anc)))
    (hout : (deleteAll fuel false B (n :: anc) D s).1 = .success) :
    HasPaths (deleteAll fuel false B (n :: anc) D s).2.1
      (View.without (chainIds (n :: anc)) (Shows D)) := by
  rw [deleteAll] at hout ⊢
  cases hrun : Loop.run (deleteRound false B (n :: anc)) fuel (D, s) with
  | none => simp [hrun] at hout
  | some r =>
    -- before the first round nothing is cut off yet
    refine Loop.run_induct
      (fun st => st.1 = D ∨ HasPaths st.1 (View.without (chainIds (n :: anc)) (Shows D)))
      (fun r => HasPaths r.2.1 (View.without (chainIds (n :: anc)) (Shows D)))
      ?_ ?_ (.inl rfl) hrun
    · rintro ⟨D', s'⟩ st hst hround
      simp only [deleteRound, editDeleteAt_xml] at hround
      split at hround
      · simp at hround
      · next f hf =>
          cases hround
          rcases hst with rfl | hcut
          · exact .inr (unlink_find hD hchain hkey hf)
          · exact absurd (present_of_find hcut.stored hchain hf) (not_present_without hcut)
    · rintro ⟨D', s'⟩ r hst hround
      simp only [deleteRound, editDeleteAt_xml] at hround
      split at hround
      · next hf =>
          cases hround
          rcases hst with rfl | hcut
          · have hnot := not_present_of_find hD hchain hf
            exact ⟨hD, (without_of_not_present (chainIds_ne_nil _ _) hnot).symm⟩
          · exact hcut
      · simp at hround

theorem Covered.without {k : Ident} (h : Covered D q)
    (hD' : HasPaths D' (View.without (q ++ [k]) (Shows D))) : Covered D' q := by
  intro p hne hp
  have hnot : ¬ q ++ [k] <+: p := fun hq => not_prefix_concat q k (hq.trans hp)
  rw [Present, hD'.paths, View.has_without hnot]
  exact h p hne hp

/-- `edit_replace` on a local datastore. -/
theorem editReplace_hasPaths (B : Backend σ) (s : σ) (hD : Stored D)
    (hn : Placed OfcNs n (Rose.ancestors n ctx))
    (hcov : Covered D (chainIds (Rose.ancestors n ctx)))
    (hkey : ¬ KeyPath (chainIds (Rose.chain n ctx))) :
    HasPaths (editReplace false B n ctx D s).orig (View.union
      (View.union (View.without (chainIds (Rose.chain n ctx)) (Shows D))
        (View.missing (chainIds (Rose.ancestors n ctx)) (Shows D)))
      (nodePaths n (Rose.ancestors n ctx))) := by
  have hchain := hn.named.matchesOfc
  simp only [editReplace, editDeleteAt_xml]
  cases hf : findElementEquiv D (Rose.chain n ctx) with
  | none =>
    have hnot := not_present_of_find hD hchain hf
    rw [Rose.chain_eq, without_of_not_present (chainIds_ne_nil _ _) hnot]
    exact editCreate_hasPaths B s hD hn hcov hnot
  | some f =>
    have hcut := unlink_find hD hchain hkey hf
    have h := editCreate_hasPaths B s hcut.stored hn (hcov.without hcut)
      (not_present_without hcut)
    rwa [hcut.paths, View.missing_without (not_prefix_above _ _)] at h

end

/-! ### Below an edit node -/

section

variable {N : Option String → Prop} {n c : Node} {anc : List Node}

/-- The paths of an edit node: its own, and the ones of its children. -/
theorem nodePaths_eq (hn : n.label.isElement = true) :
    nodePaths n anc = View.union (View.single (chainIds (n :: anc)) (ownText n))
      (View.below (chainIds (n :: anc))
        (storedDocs.ViewAt ((n :: anc).map Rose.label) n.children)) := by
  have hk : identAt (anc.map Rose.label) n = some (identOf (anc.map Rose.label) n) :=
    identAt_eq_some.mpr ⟨hn, rfl⟩
  refine View.ext fun p x => ⟨?_, ?_⟩
  · rintro ⟨r, rfl, hr⟩
    cases r with
    | nil => exact absurd hr Rose.Addressing.not_viewAt_nil
    | cons k r =>
      obtain ⟨c, hc, hck, hrest⟩ := hr
      obtain rfl := List.mem_singleton.mp hc
      obtain rfl := Option.some.inj (hk.symm.trans hck)
      rcases hrest with ⟨rfl, hx⟩ | hrest
      · exact .inl ⟨rfl, hx.symm⟩
      · exact .inr ⟨r, by simp [chainIds], hrest⟩
  · rintro (⟨rfl, rfl⟩ | ⟨r, rfl, hr⟩)
    · exact ⟨[identOf (anc.map Rose.label) n], rfl, n, by simp, hk, .inl ⟨rfl, rfl⟩⟩
    · exact ⟨identOf (anc.map Rose.label) n :: r, by simp [chainIds], n, by simp, hk, .inr hr⟩

theorem Placed.child (h : Placed N n anc) (hc : c ∈ n.children) (hel : c.label.isElement = true) :
    Placed N c (n :: anc) where
  named := .cons hel (h.below.here.ns c hc hel) (h.below.here.named c hc hel) h.named
  below := h.below.child hc
  root := by simp

/-- An edit node with a text has nothing else below it. -/
theorem children_of_ownText (h : Placed N n anc) {t : String} (ht : ownText n = some t) :
    ∃ c, n.children = [c] ∧ c.label.isText = true := by
  rw [ownText] at ht
  cases hch : n.children with
  | nil => simp [hch, headText] at ht
  | cons c cs =>
    have htext : c.label.isText = true := by
      rw [hch, headText] at ht
      split at ht
      · assumption
      · simp at ht
    have halone := h.below.here.alone trivial c (by simp [hch]) htext
    exact ⟨c, by rw [← hch, halone], htext⟩

theorem nodePaths_of_ownText (h : Placed N n anc) {t : String} (ht : ownText n = some t) :
    nodePaths n anc = View.single (chainIds (n :: anc)) (some t) := by
  obtain ⟨c, hch, htext⟩ := children_of_ownText h ht
  rw [nodePaths_eq h.named.inv.1, ht]
  refine View.ext fun p x => or_iff_left ?_
  rintro ⟨r, rfl, hr⟩
  rw [hch] at hr
  cases r with
  | nil => exact Rose.Addressing.not_viewAt_nil hr
  | cons k r =>
    obtain ⟨d, hd, hk, -⟩ := hr
    obtain rfl := List.mem_singleton.mp hd
    have hel := (identAt_eq_some.mp hk).1
    simp [isText_of_isElement hel] at htext

end

end OfConfig.Proofs
