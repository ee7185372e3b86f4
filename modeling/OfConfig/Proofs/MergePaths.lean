import OfConfig.Proofs.Termination
import OfConfig.Proofs.Writes

/-!
# `OfConfig.Proofs.MergePaths`: `edit_merge`, path by path

`edit_merge` lays the paths of the edit node over those of the datastore
(`OfConfig.Lib.View.overlay`): a text of the edit node takes the place of what
is at its path, an element without a text is made where it is missing, and the
key of an entry is left as it is.

* `editMergeChildren_hasPaths`: the loop over the children. It takes the
  children that are no keys out of the edit document, and what is left looks
  the same from outside.
* `editMerge_hasPaths`: the whole edit node, by induction over it.
-/

set_option autoImplicit false

namespace OfConfig.Proofs

open OfConfig.Lib OfConfig.Xml OfConfig.Edit

/-! ### Keys -/

section

variable {N : Option String → Prop} {n c : Node} {anc : List Node}

/-- Keys are neither entries nor items. -/
theorem ident_of_key {name key : String} {grand : Option String} (h : keyName name grand = some key)
    {la : List Label} {k : Node} (hk : k.label.name = key) : identOf la k = ⟨key, none⟩ := by
  have hkey : key = "id" ∨ key = "name" ∨ key = "table-id" ∨ key = "resource-id" := by
    rw [keyName] at h
    split at h
    · simp_all
    · split at h
      · simp_all
      · split at h
        · simp_all
        · split at h
          · simp_all
          · simp at h
  rcases hkey with rfl | rfl | rfl | rfl <;> simp [identOf, hk, keyName, comparesText]

/-- The key of an edit entry has a text. -/
theorem ownText_of_entryKey (h : Placed N n anc) (hc : c ∈ n.children)
    (hel : c.label.isElement = true)
    (hkey : EntryKey ((n :: anc).map Rose.label) c.label.name) : ∃ t, ownText c = some t := by
  obtain ⟨hv, -⟩ := h.named.inv.2.2.1.entry c.label.name hkey
  obtain ⟨v, hv⟩ := Option.isSome_iff_exists.mp hv
  obtain ⟨k, hk, hkv⟩ := keyValue_eq_some hv
  have hkmem : k ∈ n.children := List.mem_of_find?_eq_some hk
  have hkprop : k.label.isElement = true ∧ k.label.name = c.label.name := by
    simpa using List.find?_some hk
  -- no other child has the name of the key
  obtain rfl : c = k :=
    Rose.Addressing.eq_of_ident (A := docs ⟨N, True⟩ texts) h.below.here hc hkmem
      (identAt_eq_some.mpr ⟨hel, ident_of_key hkey rfl⟩)
      (identAt_eq_some.mpr ⟨hkprop.1, ident_of_key hkey hkprop.2⟩)
  obtain ⟨d, r, s, hch, hd, -, -⟩ := textValue_eq_some hkv
  exact ⟨s, by rw [ownText, hch, headText, hd]; rfl⟩

/-- An entry of the datastore has its key. -/
theorem present_key {D : Doc} (hD : Stored D) (hn : Named OfcNs (n :: anc))
    (hpres : Present D (chainIds (n :: anc))) {key : String}
    (hkey : EntryKey ((n :: anc).map Rose.label) key) :
    Present D (chainIds (n :: anc) ++ [⟨key, none⟩]) := by
  cases hf : findElementEquiv D (n :: anc) with
  | none => exact absurd hpres (not_present_of_find hD hn.matchesOfc hf)
  | some f =>
    obtain ⟨ctx, hfoc, hel, hids⟩ := find_at hD hn.matchesOfc hf
    have hnamed := named_of_focus hD hfoc hel
    have hkey' : EntryKey ((Rose.chain f.node ctx).map Rose.label) key :=
      hkey.congr (face_of_chainIds hn hnamed hids.symm)
    obtain ⟨hv, -⟩ := hnamed.inv.2.2.1.entry key hkey'
    obtain ⟨v, hv⟩ := Option.isSome_iff_exists.mp hv
    obtain ⟨k, hk, -⟩ := keyValue_eq_some hv
    obtain ⟨j, hj⟩ := List.mem_iff_getElem?.mp (List.mem_of_find?_eq_some hk)
    have hkprop : k.label.isElement = true ∧ k.label.name = key := by
      simpa using List.find?_some hk
    have hshow := viewAt_of_focus (A := texts) hD (Rose.focus?_append hfoc hj)
      hkprop.1
    rw [Rose.chain_eq, Rose.ancestors_cons, Rose.Frame.plug_of_getElem? hj, chainIds, hids,
      ident_of_key hkey' hkprop.2] at hshow
    exact ⟨_, hshow⟩

end

/-! ### Siblings -/

section

variable {K : Kind} {la : List Label} {q : List Ident} {done rest : List Node} {c : Node}

/-- No path goes through two siblings. -/
theorem siblings_apart (h : Clean K la (done ++ c :: rest)) :
    View.Apart (View.below q (storedDocs.ViewAt la [c]))
      (View.below q (storedDocs.ViewAt la rest)) := by
  have htidy := (List.pairwise_cons.mp (List.pairwise_append.mp h.tidy).2.1).1
  rintro p p' x y ⟨r, rfl, hr⟩ ⟨r', rfl, hr'⟩
  cases r with
  | nil => exact absurd hr Rose.Addressing.not_viewAt_nil
  | cons k r =>
    cases r' with
    | nil => exact absurd hr' Rose.Addressing.not_viewAt_nil
    | cons k' r' =>
      obtain ⟨d, hd, hk, -⟩ := hr
      obtain ⟨d', hd', hk', -⟩ := hr'
      obtain rfl := List.mem_singleton.mp hd
      have hne : k ≠ k' := by
        rintro rfl
        exact htidy d' hd' k hk hk'
      rw [List.prefix_append_right_inj, List.prefix_append_right_inj, List.cons_prefix_cons,
        List.cons_prefix_cons]
      exact ⟨fun h => hne h.1, fun h => hne h.1.symm⟩

theorem below_viewAt_cons : View.below q (storedDocs.ViewAt la (c :: rest)) =
    View.union (View.below q (storedDocs.ViewAt la [c]))
      (View.below q (storedDocs.ViewAt la rest)) := by
  refine View.ext fun p x => ?_
  simp only [View.below, View.union, ← exists_or, ← and_or_left]
  refine exists_congr fun r => and_congr_right fun _ => ?_
  have hcons : c :: rest = [c] ++ rest := rfl
  rw [hcons, Rose.Addressing.viewAt_append]

theorem eraseIdx_middle (done rest : List Node) (c : Node) :
    (done ++ c :: rest).eraseIdx done.length = done ++ rest := by
  rw [List.eraseIdx_append_of_length_le (Nat.le_refl _)]
  simp

/-- Without a child that is no key an edit node looks the same. -/
theorem alike_without {l : Label} {ctx : List (Rose.Frame Label)}
    (h : Placed OfcNs (.node l (done ++ c :: rest))
      (Rose.ancestors (.node l (done ++ c :: rest)) ctx))
    (hel : c.label.isElement = true)
    (hkey : ¬ EntryKey (l :: ctx.map Rose.Frame.label) c.label.name) :
    Alike (ctx.map Rose.Frame.label) (.node l (done ++ c :: rest)) (.node l (done ++ rest)) := by
  have hclean := h.below.here
  rw [List.map_cons, Rose.map_label_ancestors] at hclean
  have hget : (done ++ c :: rest)[done.length]? = some c := by simp
  have halike := alike_eraseIdx (t := .node l (done ++ c :: rest)) hclean hget hel hkey
  rwa [Rose.children_node, eraseIdx_middle] at halike

theorem Placed.without {l : Label} {ctx : List (Rose.Frame Label)}
    (h : Placed OfcNs (.node l (done ++ c :: rest))
      (Rose.ancestors (.node l (done ++ c :: rest)) ctx))
    (hel : c.label.isElement = true)
    (hkey : ¬ EntryKey (l :: ctx.map Rose.Frame.label) c.label.name) :
    Placed OfcNs (.node l (done ++ rest)) (Rose.ancestors (.node l (done ++ rest)) ctx) where
  named := h.named.alike (alike_without h hel hkey)
  below := by
    have hbelow := h.below
    rw [List.map_cons, Rose.map_label_ancestors] at hbelow ⊢
    have hclean := hbelow.here.eraseIdx done.length
    rw [Rose.children_node, eraseIdx_middle] at hclean
    refine hbelow.of_subset (fun d hd => ?_) hclean
    rcases List.mem_append.mp hd with hd | hd
    · exact List.mem_append_left _ hd
    · exact List.mem_append_right _ (List.mem_cons_of_mem c hd)
  root := by
    intro hnil
    cases ctx with
    | nil => exact h.root rfl
    | cons f ctx => simp [Rose.chain_eq] at hnil

end

/-! ### The edit node -/

section

variable {σ : Type} (B : Backend σ)

/-- `edit_merge` lays the edit node over the datastore. -/
def MergesPaths (n : Node) : Prop := ∀ (ctx : List (Rose.Frame Label)) (D : Doc) (s : σ), Stored D →
  Placed OfcNs n (Rose.ancestors n ctx) → Covered D (chainIds (Rose.ancestors n ctx)) →
  ¬ KeyPath (chainIds (Rose.chain n ctx)) →
  HasPaths (editMerge false B n ctx D s).orig (View.overlay KeyPath
    (View.union (Shows D) (View.missing (chainIds (Rose.ancestors n ctx)) (Shows D)))
    (nodePaths n (Rose.ancestors n ctx)))

theorem covered_of_present {D : Doc} {q : List Ident} (h : Present D q) : Covered D q :=
  fun _ hne hp => .inl (h.of_prefix hp hne)

/-- The loop over the children lays what is left of them over the datastore. -/
theorem editMergeChildren_hasPaths {l : Label} {ctx : List (Rose.Frame Label)} {q : List Ident}
    {todo : List Node} (ih : ∀ c ∈ todo, MergesPaths B c) (done : List Node) (D : Doc) (s : σ)
    (hD : Stored D) (hpres : Present D q)
    (hn : Placed OfcNs (.node l (done ++ todo)) (Rose.ancestors (.node l (done ++ todo)) ctx))
    (hq : chainIds (Rose.chain (.node l (done ++ todo)) ctx) = q)
    (htext : firstIsText (done ++ todo) = false) :
    HasPaths (editMergeChildren false B l done todo ctx D s).orig
      (View.overlay KeyPath (Shows D)
        (View.below q (storedDocs.ViewAt (l :: ctx.map Rose.Frame.label) todo))) := by
  induction todo generalizing done D s with
  | nil =>
    refine ⟨hD, (View.overlay_empty ?_).symm⟩
    rintro p x ⟨r, rfl, hr⟩
    exact Rose.Addressing.not_viewAt_empty hr
  | cons c rest ihrest =>
    have hmem : c ∈ (Rose.node l (done ++ c :: rest)).children := by simp
    have hclean := hn.below.here
    have hel : c.label.isElement = true := by
      refine (hclean.markup trivial c hmem).resolve_right fun ht => ?_
      have hall := hclean.alone trivial c hmem ht
      rw [Rose.children_node] at hall
      simp [hall, firstIsText, ht] at htext
    have hplaced : Placed OfcNs c (Rose.chain (.node l (done ++ c :: rest)) ctx) :=
      hn.child hmem hel
    have hlabels : (Rose.chain (.node l (done ++ c :: rest)) ctx).map Rose.label =
        l :: ctx.map Rose.Frame.label := Rose.map_label_chain _ _
    have hnode : View.below q (storedDocs.ViewAt (l :: ctx.map Rose.Frame.label) [c]) =
        nodePaths c (Rose.chain (.node l (done ++ c :: rest)) ctx) := by
      rw [nodePaths, hq, hlabels]
    rw [below_viewAt_cons, hnode, editMergeChildren]
    split
    · next hkey =>
        -- a key stays in the edit document and in the datastore
        have hentry' : EntryKey ((Rose.chain (.node l (done ++ c :: rest)) ctx).map Rose.label)
            c.label.name := hclean.keys trivial c hmem hkey
        obtain ⟨t, ht⟩ := ownText_of_entryKey hn hmem hel hentry'
        have hseen : ∀ p x, nodePaths c (Rose.chain (.node l (done ++ c :: rest)) ctx) p x →
            Present D p ∧ (x = none ∨ KeyPath p) := by
          rw [nodePaths_of_ownText hplaced ht]
          rintro p x ⟨rfl, rfl⟩
          refine ⟨?_, .inr ((keyPath_chainIds c _).mpr (by rwa [hlabels]))⟩
          rw [chainIds, ident_of_key hentry' rfl]
          exact present_key hD hn.named (by rwa [← hq] at hpres) hentry'
        rw [View.overlay_union_of_seen hseen]
        have happ : done ++ [c] ++ rest = done ++ c :: rest := by simp
        exact ihrest (fun d hd => ih d (by simp [hd])) (done ++ [c]) D s hD hpres
          (by rwa [happ]) (by rwa [happ]) (by rwa [happ])
    · next hkey =>
        have hnotkey : ¬ KeyPath
            (chainIds (c :: Rose.chain (.node l (done ++ c :: rest)) ctx)) := by
          rw [keyPath_chainIds, hlabels]
          exact hkey
        have hnotentry : ¬ EntryKey (l :: ctx.map Rose.Frame.label) c.label.name :=
          fun h => hkey (isKey_of_entryKey h)
        have habove : Present D (chainIds (Rose.chain (.node l (done ++ c :: rest)) ctx)) := by
          rwa [hq]
        have hmerged : HasPaths (editMerge false B c (⟨done, l, rest⟩ :: ctx) D s).orig
            (View.overlay KeyPath (Shows D)
              (nodePaths c (Rose.chain (.node l (done ++ c :: rest)) ctx))) := by
          have h := ih c (by simp) (⟨done, l, rest⟩ :: ctx) D s hD hplaced
            (covered_of_present habove) hnotkey
          exact ⟨h.stored, h.paths.trans
            (congrArg (View.overlay KeyPath · _) (union_missing_of_present habove))⟩
        have hout := (editMerge_xml B c (⟨done, l, rest⟩ :: ctx) D s).1
        have hfalse : isKey c.label (some l.name) = false := by simpa using hkey
        have hleft := editMerge_left (.inl hfalse) hout
        have hpres' : Present (editMerge false B c (⟨done, l, rest⟩ :: ctx) D s).orig q := by
          rw [Present, hmerged.paths, View.has_overlay]
          · exact hpres
          · intro p x hp hx
            have hle := (prefix_of_nodePaths hel hx).trans hp
            rw [← hq] at hle
            exact not_prefix_above c _ hle
        have halike := alike_without hn hel hnotentry
        have htext' : firstIsText (done ++ rest) = false := by
          rw [← headText_of_firstIsText] at htext ⊢
          rwa [show headText (done ++ rest) = headText (done ++ c :: rest) from halike.text]
        have hrest := ihrest (fun d hd => ih d (by simp [hd])) done _
          (editMerge false B c (⟨done, l, rest⟩ :: ctx) D s).world hmerged.stored hpres'
          (hn.without hel hnotentry) ((chainIds_alike halike).trans hq) htext'
        simp only [hout, hleft, Option.toList_none, List.append_nil]
        refine ⟨hrest.stored, hrest.paths.trans ?_⟩
        rw [hmerged.paths, ← hnode]
        have hsiblings : Clean ⟨OfcNs, True⟩ (l :: ctx.map Rose.Frame.label)
            (done ++ c :: rest) := by
          rw [← hlabels]
          exact hclean
        exact View.overlay_union (siblings_apart hsiblings)

/-- `edit_merge` on a local datastore. -/
theorem editMerge_hasPaths (n : Node) : MergesPaths B n := by
  induction n using Rose.induct with
  | h l cs ih =>
    intro ctx D s hD hn hcov hkey
    have hel := hn.named.inv.1
    have hfalse : isKey l (nameAt (Rose.ancestors (.node l cs) ctx) 0) = false := by
      have h := hkey
      rw [Rose.chain_eq, keyPath_chainIds, ← nameAt_eq] at h
      simpa using h
    cases hf : findElementEquiv D (Rose.chain (.node l cs) ctx) with
    | none =>
      have hnot := not_present_of_find hD hn.named.matchesOfc hf
      rw [editMerge_of_none hf, View.overlay_new]
      · exact editCreate_hasPaths B s hD hn hcov hnot
      · intro p q x hq hp hhas
        have hle := (prefix_of_nodePaths hel hq).trans hp
        rcases View.has_union.mp hhas with hD' | ⟨-, -, -, hmiss, -⟩
        · exact hnot (Present.of_prefix hD' hle (chainIds_ne_nil _ _))
        · exact not_prefix_above _ _ (hle.trans hmiss)
    | some f =>
      have hpres : Present D (chainIds (Rose.chain (.node l cs) ctx)) :=
        present_of_find hD hn.named.matchesOfc hf
      have habove : ∀ p, p ≠ [] → p <+: chainIds (Rose.ancestors (.node l cs) ctx) →
          Present D p := fun p hne hp =>
        hpres.of_prefix (hp.trans (List.prefix_append _ _)) hne
      rw [View.union_missing_of_has habove]
      cases ht : firstIsText cs with
      | true =>
        have hsome := ht
        rw [← headText_of_firstIsText] at hsome
        obtain ⟨t, hown⟩ := Option.isSome_iff_exists.mp hsome
        have h := editReplace_hasPaths B s hD hn hcov hkey
        rw [View.union_missing_of_has habove, nodePaths_of_ownText hn hown] at h
        rw [editMerge_of_text hf hfalse ht, nodePaths_of_ownText hn hown]
        exact ⟨h.stored, h.paths.trans (View.overlay_leaf hkey).symm⟩
      | false =>
        have hown : ownText (.node l cs) = none := by
          rw [← headText_of_firstIsText] at ht
          simpa [ownText] using ht
        have hloop := editMergeChildren_hasPaths B ih [] D s hD hpres hn rfl ht
        rw [editMerge_of_children hf hfalse ht, nodePaths_eq hel, hown,
          View.overlay_union_of_seen]
        · rw [← Rose.chain_eq, Rose.map_label_chain]
          exact hloop
        · rintro p x ⟨rfl, rfl⟩
          exact ⟨hpres, .inl rfl⟩

end

end OfConfig.Proofs
