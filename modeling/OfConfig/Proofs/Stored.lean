import OfConfig.Proofs.Consumed

/-!
# `OfConfig.Proofs.Stored`: the labels of a stored document

On a local datastore every operation copies nodes of the edit document or
unlinks nodes of the datastore. So a property of labels that survives the
ways a label is copied (`Stable`) holds of everything stored if it holds of
what the operations find in the edit document (`Storable`): one lemma for
each operation, `opPhase_labels` for a phase, and `editOperations_labels`
for an edit document that `Admits` the property.
-/

set_option autoImplicit false

namespace OfConfig.Proofs

open OfConfig.Lib OfConfig.Xml OfConfig.Edit

variable {σ : Type} {P : Label → Prop}
variable {D d : Doc} {c n : Node} {st : EditState σ}

/-- All labels of a tree have the property. -/
abbrev AllIn (P : Label → Prop) (n : Node) : Prop := Rose.Every (fun t => P t.label) n

/-- All labels of a document have the property. -/
def AllLabels (P : Label → Prop) (d : Doc) : Prop := ∀ n ∈ d, AllIn P n

/-- A property that survives copying: it holds of texts, and of a label
without its attributes or without the operation attribute. -/
structure Stable (P : Label → Prop) : Prop where
  text : ∀ s, P (.text s)
  bare : ∀ l, P l → P l.bare
  dropOp : ∀ l, P l → P (dropOpAttr l)

/-- A node of the edit document that may be stored: what is copied of it
and of the elements above it has the property. -/
structure Storable (P : Label → Prop) (n : Node) (ctx : List (Rose.Frame Label)) : Prop where
  own : P (dropOpAttr n.label)
  below : ∀ c ∈ n.children, AllIn P c
  above : ∀ f ∈ ctx, P f.label.bare

/-- A property of all labels is one of the first label of every path. -/
theorem AllLabels.path (h : AllLabels P d) {x : Label} {p : List Label} (hp : PathIn d (x :: p)) :
    P x := by
  obtain ⟨l, n, ctx, hf, hpath⟩ := hp
  obtain ⟨rfl, -⟩ := List.cons_eq_cons.mp hpath
  refine (Rose.focus_induct (P := fun n _ => AllIn P n) h ?_ hf).self
  intro t ctx left c right hch ht
  exact ht.children c (by simp [hch])

/-! ### Changes of the document -/

theorem AllLabels.unlink (h : AllLabels P D) (l : Loc) : AllLabels P (Rose.unlink l D) :=
  Rose.every_modify (fun _ _ _ hc => absurd hc List.not_mem_nil) l h

theorem allIn_addChild (hP : Stable P) {cs : List Node} (hcs : ∀ d ∈ cs, AllIn P d)
    (hc : AllIn P c) :
    ∀ d ∈ addChild cs c, AllIn P d := by
  intro d hd
  rw [addChild] at hd
  split at hd
  · next new old ks _ hlast =>
      rcases List.mem_append.mp hd with hd | hd
      · exact hcs d ((List.dropLast_sublist cs).subset hd)
      · obtain rfl := List.mem_singleton.mp hd
        have hold := hcs _ (List.mem_of_getLast? hlast)
        exact .node (hP.text _) hold.children
  · rcases List.mem_append.mp hd with hd | hd
    · exact hcs d hd
    · obtain rfl := List.mem_singleton.mp hd
      exact hc

theorem AllLabels.addChildAt (hP : Stable P) (h : AllLabels P D) (hc : AllIn P c) (l : Loc) :
    AllLabels P (Rose.modifyChildren (addChild · c) l D) := by
  refine Rose.every_modify ?_ l h
  intro t ht d hd
  obtain rfl := List.mem_singleton.mp hd
  exact .node ht.self (allIn_addChild hP ht.children hc)

theorem AllLabels.setRoot (h : AllLabels P D) (hn : AllIn P n) :
    AllLabels P (setRootElement D n) := by
  intro m hm
  rw [setRootElement] at hm
  split at hm
  · rcases List.mem_or_eq_of_mem_set hm with hm | rfl
    · exact h m hm
    · exact hn
  · rcases List.mem_append.mp hm with hm | hm
    · exact h m hm
    · obtain rfl := List.mem_singleton.mp hm
      exact hn

theorem allIn_copyShallow {a : Node} (ha : P a.label.bare) : AllIn P (copyShallow a) := by
  rw [copyShallow]
  split
  · next name ns as hl =>
      rw [hl] at ha
      exact .node ha nofun
  · next l hne =>
      refine .node ?_ nofun
      cases hl : a.label with
      | element name ns as => exact absurd hl (hne name ns as)
      | _ => rwa [hl] at ha

theorem editCreateR_labels (hP : Stable P) (h : AllLabels P D) {anc : List Node}
    (hanc : ∀ a ∈ anc, P a.label.bare) : AllLabels P (editCreateR D anc).1 := by
  induction anc with
  | nil => exact h
  | cons e anc ih =>
    have he := allIn_copyShallow (hanc e (by simp))
    rw [editCreateR]
    split
    · exact h
    · split
      · exact h.setRoot he
      · exact AllLabels.addChildAt hP (ih (fun a ha => hanc a (by simp [ha]))) he _

theorem editCreateXml_labels (hP : Stable P) (h : AllLabels P D) (hn : AllIn P n) {anc : List Node}
    (hanc : ∀ a ∈ anc, P a.label.bare) : AllLabels P (editCreateXml D n anc) := by
  rw [editCreateXml]
  split
  · exact h.setRoot hn
  · exact AllLabels.addChildAt hP (editCreateR_labels hP h hanc) hn _

/-! ### Operations -/

theorem label_of_mem_ancestors {a : Node} {ctx : List (Rose.Frame Label)}
    (h : a ∈ Rose.ancestors n ctx) : ∃ f ∈ ctx, f.label = a.label := by
  induction ctx generalizing n with
  | nil => simp at h
  | cons f ctx ih =>
    rw [Rose.ancestors_cons, Rose.chain_eq] at h
    rcases List.mem_cons.mp h with rfl | h
    · exact ⟨f, by simp, rfl⟩
    · obtain ⟨g, hg, hlab⟩ := ih h
      exact ⟨g, by simp [hg], hlab⟩

variable {B : Backend σ} {n : Node} {ctx : List (Rose.Frame Label)} {D : Doc} {s : σ}

theorem editCreate_labels (hP : Stable P) (h : AllLabels P D) (hn : Storable P n ctx) :
    AllLabels P (editCreate false B n ctx D s).orig := by
  refine editCreateXml_labels hP h (.node hn.own hn.below) ?_
  intro a ha
  obtain ⟨f, hf, hlab⟩ := label_of_mem_ancestors ha
  rw [← hlab]
  exact hn.above f hf

theorem editReplace_labels (hP : Stable P) (h : AllLabels P D) (hn : Storable P n ctx) :
    AllLabels P (editReplace false B n ctx D s).orig := by
  rw [editReplace]
  split
  · exact editCreate_labels hP h hn
  · simp only [editDeleteAt_xml]
    exact editCreate_labels hP (h.unlink _) hn

theorem deleteAll_labels (h : AllLabels P D) (fuel : Nat) (chain : List Node) :
    AllLabels P (deleteAll fuel false B chain D s).2.1 := by
  rw [deleteAll]
  cases hrun : Loop.run (deleteRound false B chain) fuel (D, s) with
  | none => exact h
  | some r =>
    refine Loop.run_induct (fun st => AllLabels P st.1) (fun r => AllLabels P r.2.1) ?_ ?_ h hrun
    · intro st st' hst hround
      simp only [deleteRound, editDeleteAt_xml] at hround
      split at hround
      · simp at hround
      · cases hround
        exact hst.unlink _
    · intro st r' hst hround
      simp only [deleteRound, editDeleteAt_xml] at hround
      split at hround
      · cases hround
        exact hst
      · simp at hround

theorem editRemove_labels (h : AllLabels P D) (fuel : Nat) :
    AllLabels P (editRemove fuel false B n ctx D s).orig :=
  deleteAll_labels h fuel _

theorem editDeleteOp_labels (h : AllLabels P D) (fuel : Nat) :
    AllLabels P (editDeleteOp fuel false B n ctx D s).orig := by
  rw [editDeleteOp]
  split
  · exact h
  · exact editRemove_labels h fuel

/-- A child of a node that may be stored may be stored. -/
theorem Storable.child (hP : Stable P) {l : Label} {cs : List Node}
    (h : Storable P (.node l cs) ctx) (hc : c ∈ cs) (left right : List Node) :
    Storable P c (⟨left, l, right⟩ :: ctx) where
  own := hP.dropOp _ (h.below c hc).self
  below := (h.below c hc).children
  above := by
    intro f hf
    rcases List.mem_cons.mp hf with rfl | hf
    · have hl := hP.bare _ h.own
      rwa [bare_dropOpAttr] at hl
    · exact h.above f hf

theorem editMerge_labels (hP : Stable P) (n : Node) :
    ∀ (ctx : List (Rose.Frame Label)) (D : Doc) (s : σ), AllLabels P D → Storable P n ctx →
      AllLabels P (editMerge false B n ctx D s).orig := by
  induction n using Rose.induct with
  | h l cs ih =>
    -- the loop over the children, for any part of them
    have hloop : ∀ (todo : List Node), (∀ c ∈ todo, c ∈ cs) → ∀ (done : List Node)
        (ctx : List (Rose.Frame Label)) (D : Doc) (s : σ), AllLabels P D →
        Storable P (.node l cs) ctx →
        AllLabels P (editMergeChildren false B l done todo ctx D s).orig := by
      intro todo
      induction todo with
      | nil => exact fun _ done ctx D s h _ => h
      | cons c rest ihrest =>
        intro hsub done ctx D s h hn
        have hrest := ihrest (fun x hx => hsub x (List.mem_cons_of_mem _ hx))
        have hc := ih c (hsub c (by simp)) (⟨done, l, rest⟩ :: ctx) D s h
          (hn.child hP (hsub c (by simp)) done rest)
        rw [editMergeChildren]
        split
        · exact hrest _ ctx D s h hn
        · simp only
          split
          · exact hrest _ ctx _ _ hc hn
          · exact hc
    intro ctx D s h hn
    rw [editMerge]
    split
    · exact editCreate_labels hP h hn
    · split
      · exact h
      · split
        · exact editReplace_labels hP h hn
        · exact hloop cs (fun _ hc => hc) [] ctx D s h hn

/-- Every phase stores only what may be stored. -/
theorem phaseStep_labels (hP : Stable P) (fuel : Nat) (op : EditOp) (h : AllLabels P D)
    (hn : op = .replace ∨ op = .create ∨ op = .merge → Storable P n ctx) :
    AllLabels P (phaseStep fuel false B op n ctx D s).orig := by
  cases op with
  | delete => exact editDeleteOp_labels h fuel
  | remove => exact editRemove_labels h fuel
  | replace => exact editReplace_labels hP h (hn (by simp))
  | create => exact editCreate_labels hP h (hn (by simp))
  | merge => exact editMerge_labels hP n ctx D s h (hn (by simp))

/-! ### Phases -/

/-- The node at a position may be stored, as far as its paths say. -/
theorem allIn_of_paths {l : Loc} {ctx : List (Rose.Frame Label)}
    (hf : Rose.focus? d l = some (n, ctx))
    (h : ∀ x p, PathIn d (x :: p) → Rose.path n ctx <:+ x :: p → P x) : AllIn P n := by
  induction n using Rose.induct generalizing l ctx with
  | h a cs ih =>
    refine .node (h a _ ⟨l, _, ctx, hf, rfl⟩ (List.suffix_refl _)) ?_
    intro c hc
    obtain ⟨i, hi⟩ := List.mem_iff_getElem?.mp hc
    refine ih c hc (Rose.focus?_append hf hi) ?_
    intro x p hp hsuf
    refine h x p hp (List.IsSuffix.trans ?_ hsuf)
    exact List.suffix_cons _ _

theorem storable_of_paths {l : Loc} (hf : Rose.focus? d l = some (n, ctx))
    (hown : P (dropOpAttr n.label))
    (hbelow : ∀ x p, PathIn d (x :: p) → Rose.path n ctx <:+ p → P x)
    (habove : ∀ y ∈ ctx.map Rose.Frame.label, P y.bare) : Storable P n ctx where
  own := hown
  below := by
    intro c hc
    obtain ⟨i, hi⟩ := List.mem_iff_getElem?.mp hc
    refine allIn_of_paths (Rose.focus?_append hf hi) ?_
    intro x p hp hsuf
    refine hbelow x p hp ?_
    -- below the child, so strictly below the node
    obtain ⟨q, hq⟩ := hsuf
    cases q with
    | nil =>
      obtain ⟨-, rfl⟩ := List.cons_eq_cons.mp hq
      exact List.suffix_refl _
    | cons y q =>
      obtain ⟨-, rfl⟩ := List.cons_eq_cons.mp hq
      exact (List.suffix_cons _ _).trans (List.suffix_append _ _)
  above := fun f hf' => habove f.label (List.mem_map_of_mem hf')

/-- A phase stores only what may be stored, if every node it can come to
may be. -/
theorem opPhase_labels (hP : Stable P) (fuel : Nat) (op : EditOp)
    (hsto : op = .replace ∨ op = .create ∨ op = .merge → ∀ d l n ctx,
      (∀ p, PathIn d p → PathIn st.edit p) → Rose.focus? d l = some (n, ctx) →
      getOperation n.label = .op op → Storable P n ctx)
    (h : AllLabels P st.orig) : AllLabels P (opPhase op (phaseStep fuel false B op) st).2.orig := by
  have hstep : UnlinksOrKeeps (phaseStep fuel false B op) := by
    by_cases hop : op = .merge
    · subst hop
      exact unlinksOrKeeps_merge false B
    · exact (unlinks_phaseStep hop).orKeeps
  refine opPhase_induct
    (fun st' => AllLabels P st'.orig ∧ ∀ p, PathIn st'.edit p → PathIn st.edit p)
    (fun r => AllLabels P r.2.orig) hstep (fun st' h => h.1) (fun st' h => h.1) ?_ ?_
    ⟨h, fun p hp => hp⟩
  · rintro st' l n ctx ⟨hlab, hpaths⟩ hfoc _ hop hout
    refine ⟨phaseStep_labels hP fuel op hlab (fun hop' => ?_), ?_⟩
    · exact hsto hop' st'.edit l n ctx hpaths hfoc (getOperation_of_opAttr hop)
    · exact fun p hp => hpaths p (pathIn_afterStep hstep hfoc hout hp)
  · rintro st' l n ctx ⟨hlab, hpaths⟩ hfoc _ hop _
    exact phaseStep_labels hP fuel op hlab
      (fun hop' => hsto hop' st'.edit l n ctx hpaths hfoc (getOperation_of_opAttr hop))

/-! ### All of `edit_operations` -/

/-- A document that `edit_operations` may be given: whatever a phase or a
default operation can come to may be stored. What is in the edit document
by then is known from its paths. -/
structure Admits (P : Label → Prop) (defop : DefOp) (edit : Doc) : Prop where
  replaced : defop = .replace → ∀ n ∈ edit, Storable P n []
  phase : ∀ op, op = .replace ∨ op = .create ∨ op = .merge → ∀ d, PathsFrom edit op d →
    ∀ l n ctx, Rose.focus? d l = some (n, ctx) → getOperation n.label = .op op → Storable P n ctx
  merged : defop = .merge ∨ defop = .notset → ∀ d, PathsFrom edit .merge d →
    ∀ n ∈ d, Storable P n []

theorem docLoop_replace_labels (hP : Stable P) (fuel : Nat) (hsto : ∀ n ∈ st.edit, Storable P n [])
    (h : AllLabels P st.orig) :
    AllLabels P (docLoop fuel (defaultReplaceRound false B) st).2.orig := by
  rw [docLoop]
  cases hrun : Loop.run (defaultReplaceRound false B) fuel st with
  | none => exact h
  | some r =>
    refine Loop.run_induct
      (fun st => AllLabels P st.orig ∧ ∀ n ∈ st.edit, Storable P n [])
      (fun r => AllLabels P r.2.orig) ?_ ?_ ⟨h, hsto⟩ hrun
    · rintro ⟨D, edit, s⟩ st' ⟨hD, hE⟩ hround
      cases edit with
      | nil => simp [defaultReplaceRound] at hround
      | cons n rest =>
        have hn := editReplace_labels (B := B) (s := s) hP hD (hE n (by simp))
        simp only [defaultReplaceRound] at hround
        obtain ⟨hout, hleft, -⟩ := editReplace_xml B n [] D s
        rw [hout] at hround
        cases hround
        refine ⟨hn, fun m hm => hE m ?_⟩
        simpa [hleft] using Or.inr hm
    · rintro ⟨D, edit, s⟩ r' ⟨hD, hE⟩ hround
      cases edit with
      | nil =>
        cases hround
        exact hD
      | cons n rest =>
        simp only [defaultReplaceRound] at hround
        obtain ⟨hout, -, -⟩ := editReplace_xml B n [] D s
        rw [hout] at hround
        simp at hround

theorem docLoop_merge_labels (hP : Stable P) (fuel : Nat) (hsto : ∀ n ∈ st.edit, Storable P n [])
    (h : AllLabels P st.orig) :
    AllLabels P (docLoop fuel (defaultMergeRound false B) st).2.orig := by
  rw [docLoop]
  cases hrun : Loop.run (defaultMergeRound false B) fuel st with
  | none => exact h
  | some r =>
    refine Loop.run_induct
      (fun st => AllLabels P st.orig ∧ ∀ n ∈ st.edit, Storable P n [])
      (fun r => AllLabels P r.2.orig) ?_ ?_ ⟨h, hsto⟩ hrun
    · rintro ⟨D, edit, s⟩ st' ⟨hD, hE⟩ hround
      cases edit with
      | nil => simp [defaultMergeRound] at hround
      | cons n rest =>
        have hn := editMerge_labels (B := B) hP n [] D s hD (hE n (by simp))
        simp only [defaultMergeRound] at hround
        split at hround
        · next hout =>
            cases hround
            refine ⟨hn, fun m hm => hE m ?_⟩
            rcases unlinksOrKeeps_merge false B n [] D s hout with hl | hl
            · simpa [hl] using Or.inr hm
            · simpa [hl] using hm
        · simp at hround
    · rintro ⟨D, edit, s⟩ r' ⟨hD, hE⟩ hround
      cases edit with
      | nil =>
        cases hround
        exact hD
      | cons n rest =>
        have hn := editMerge_labels (B := B) hP n [] D s hD (hE n (by simp))
        simp only [defaultMergeRound] at hround
        split at hround
        · simp at hround
        · cases hround
          exact hn

theorem thenPhase_labels (hP : Stable P) (fuel : Nat) {defop : DefOp} {edit : Doc}
    (hE : Admits P defop edit) {op : EditOp} {r : Outcome × EditState σ}
    (hpaths : r.1 = .success → PathsFrom edit op r.2.edit) (h : AllLabels P r.2.orig) :
    AllLabels P (thenPhase fuel false B op r).2.orig := by
  by_cases hr : r.1 = .success
  · have heq : thenPhase fuel false B op r = opPhase op (phaseStep fuel false B op) r.2 := by
      simp only [thenPhase, andThen, hr]
    rw [heq]
    refine opPhase_labels hP fuel op ?_ h
    intro hop d l n ctx hd hf hn
    exact hE.phase op hop d (fun p hp => hpaths hr p (hd p hp)) l n ctx hf hn
  · rw [thenPhase, andThen_of_ne hr]
    exact h

/-- What `edit_operations` stores has the property. -/
theorem editOperations_labels (hP : Stable P) (fuel : Nat) (B : Backend σ) {defop : DefOp}
    (hE : Admits P defop st.edit) (h : AllLabels P st.orig) :
    AllLabels P (editOperations fuel false B defop st).2.orig := by
  have h₀ : AllLabels P (beforeDelete fuel false B defop st).2.orig := by
    rw [beforeDelete]
    split
    · next hrep => exact docLoop_replace_labels hP fuel (hE.replaced hrep) h
    · exact h
  have h₁ := thenPhase_labels (B := B) hP fuel hE (beforePhase_paths .delete) h₀
  have h₂ := thenPhase_labels (B := B) hP fuel hE (beforePhase_paths .remove) h₁
  have h₃ := thenPhase_labels (B := B) hP fuel hE (beforePhase_paths .replace) h₂
  have h₄ := thenPhase_labels (B := B) hP fuel hE (beforePhase_paths .create) h₃
  have h₅ := thenPhase_labels (B := B) hP fuel hE (beforePhase_paths .merge) h₄
  rw [editOperations_eq]
  simp only
  by_cases hout : (thenPhase fuel false B .merge (beforePhase fuel false B defop st .merge)).1 =
      .success
  · simp only [andThen, hout]
    split
    · next hmerge =>
        refine docLoop_merge_labels hP fuel (hE.merged hmerge _ ?_) h₅
        intro p hp
        obtain ⟨hr, heq⟩ := andThen_success hout
        rw [thenPhase, heq] at hout hp
        exact beforePhase_paths .merge hr p
          (pathIn_opPhase (unlinksOrKeeps_merge false B) hout hp)
    · exact h₅
  · rw [andThen_of_ne hout]
    exact h₅

end OfConfig.Proofs
