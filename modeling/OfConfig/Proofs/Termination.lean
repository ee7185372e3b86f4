import OfConfig.Proofs.XmlMode

/-!
# `OfConfig.Proofs.Termination`: which loops of `edit_operations` end

`edit_operations` re-queries the documents in its loops and relies on
`edit_delete`, `edit_create` and `edit_replace` to unlink what they have
handled. They do, with two exceptions on the running datastore: the root
of the datastore is not unlinked by `edit_delete` (`txn_del_all` is
called and its result returned), and a failed `edit_replace` of the
default replace is tried again for ever.

* `deleteAll_ends`: the loop over the equivalents of a node ends, except
  for the root on the running datastore.
* `run_deleteRound_root`: there it is a loop around `txn_del_all`.
* `phase_ends_iff`: a delete or remove phase ends if and only if it does
  not get stuck at the root.
* `editOperations_finishes_iff`: the result for the whole function.
-/

set_option autoImplicit false

namespace OfConfig.Proofs

open OfConfig.Lib OfConfig.Xml OfConfig.Edit

variable {σ : Type}
variable {B : Backend σ} {D : Doc} {chain : List Node} {ctx : List (Rose.Frame Label)} {f : Found}
  {fuel fuel' : Nat} {n : Node} {running : Bool} {s : σ} {step : Nat → EditStep σ}

/-! ### What a handled node leaves -/

private theorem ite_ne {α : Type} {c : Prop} [Decidable c] {a b x : α} (ha : a ≠ x)
    (hb : b ≠ x) : (if c then a else b) ≠ x := by
  split
  · exact ha
  · exact hb

/-- Only the root is answered by `txn_del_all`. -/
theorem deleteAction_ne_delAll (node : Node) {anc : List Node} (h : anc ≠ []) :
    deleteAction node anc ≠ .delAll := by
  have hne : ¬ anc.isEmpty = true := by simpa using h
  unfold deleteAction
  rw [if_neg hne]
  cases firstContent node <;> simp only
  all_goals repeat' apply ite_ne
  all_goals exact nofun

theorem createAction_ne_delAll (node : Node) (anc : List Node) :
    createAction node anc ≠ .delAll := by
  unfold createAction
  cases firstContent node <;> simp only
  all_goals repeat' apply ite_ne
  all_goals exact nofun

/-- A node that was handled with success is unlinked, unless it is the
root of a deletion. -/
theorem applyNode_left {h : Handler}
    (hact : ∀ m anc, anc.length = ctx.length → h.action m anc ≠ .delAll)
    (hout : (applyNode h B n ctx s).out = .success) : (applyNode h B n ctx s).left = none := by
  cases n with
  | node l cs =>
    have hlen : ∀ m : Node, (Rose.ancestors m ctx).length = ctx.length := by
      intro m
      have := Rose.length_chain m ctx
      simpa [Rose.chain_eq] using this
    rw [applyNode] at hout ⊢
    split at hout
    · next he => simp [he]
    · next he =>
        simp only [he]
        cases ha : h.action (.node (h.strip l) cs) (Rose.ancestors (.node (h.strip l) cs) ctx) with
        | delAll => exact absurd ha (hact _ _ (hlen _))
        | fail e => simp [ha] at hout
        | nothing => rfl
        | _ => simp_all [finish]

/-- `edit_delete` below the root unlinks what it handled. -/
theorem editDelete_left (hctx : ctx ≠ []) (hout : (editDelete B n ctx s).out = .success) :
    (editDelete B n ctx s).left = none := by
  refine applyNode_left (fun m anc hlen => deleteAction_ne_delAll m ?_) hout
  rintro rfl
  exact hctx (List.length_eq_zero_iff.mp (by simpa using hlen.symm))

theorem editCreateRunning_left (hout : (editCreateRunning B n ctx s).out = .success) :
    (editCreateRunning B n ctx s).left = none :=
  applyNode_left (fun m anc _ => createAction_ne_delAll m anc) hout

/-- `edit_delete` on an element without a parent calls `txn_del_all` and
keeps the node. -/
theorem editDelete_root (B : Backend σ) (s : σ) (hn : n.label.isElement = true) :
    editDelete B n [] s = ⟨(B.delAll s).1, some n, (B.delAll s).2⟩ := by
  cases n with
  | node l cs =>
    have hact : deleteAction (.node l cs) [] = .delAll := by simp [deleteAction]
    have hl : l.isElement = true := hn
    simp [editDelete, applyNode, hl, hact]

/-- `edit_delete` on a text or a comment unlinks it. -/
theorem editDelete_other (B : Backend σ) (ctx : List (Rose.Frame Label)) (s : σ)
    (hn : n.label.isElement = false) : editDelete B n ctx s = ⟨.success, none, s⟩ := by
  cases n with
  | node l cs =>
    have hl : l.isElement = false := hn
    simp [editDelete, applyNode, hl]

/-! ### Operations do not time out -/

theorem editCreate_left (hout : (editCreate running B n ctx D s).out = .success) :
    (editCreate running B n ctx D s).left = none := by
  cases running with
  | false => rfl
  | true => exact editCreateRunning_left (by simpa [editCreate] using hout)

theorem editCreate_ne_timeout (running : Bool) (B : Backend σ) (n : Node)
    (ctx : List (Rose.Frame Label)) (D : Doc) (s : σ) :
    (editCreate running B n ctx D s).out ≠ .timeout := by
  cases running <;> simp [editCreate]

theorem editDeleteAt_ne_timeout (running : Bool) (B : Backend σ) (l : Loc) (D : Doc) (s : σ) :
    (editDeleteAt running B l D s).1 ≠ .timeout := by
  rw [editDeleteAt]
  split
  · split <;> simp
  · simp

/-- The two ways of `edit_replace`: only a create, or a delete first. -/
theorem editReplace_cases (running : Bool) (B : Backend σ) (n : Node)
    (ctx : List (Rose.Frame Label)) (D : Doc) (s : σ) :
    (∃ D' s', editReplace running B n ctx D s = editCreate running B n ctx D' s') ∨
    ∃ o D' s', o ≠ .success ∧ o ≠ .timeout ∧
      editReplace running B n ctx D s = ⟨o, some n, D', s'⟩ := by
  rw [editReplace]
  split
  · exact Or.inl ⟨D, s, rfl⟩
  · next f hf =>
      split
      · next D' s' hdel => exact Or.inl ⟨D', s', rfl⟩
      · next o D' s' hne hdel =>
          refine Or.inr ⟨o, D', s', hne, ?_, rfl⟩
          rintro rfl
          exact editDeleteAt_ne_timeout running B f.loc D s (by rw [hdel])

theorem editReplace_left (hout : (editReplace running B n ctx D s).out = .success) :
    (editReplace running B n ctx D s).left = none := by
  rcases editReplace_cases running B n ctx D s with ⟨D', s', h⟩ | ⟨o, D', s', ho, -, h⟩
  · rw [h] at hout ⊢
    exact editCreate_left hout
  · rw [h] at hout
    exact absurd hout ho

theorem editReplace_ne_timeout (running : Bool) (B : Backend σ) (n : Node)
    (ctx : List (Rose.Frame Label)) (D : Doc) (s : σ) :
    (editReplace running B n ctx D s).out ≠ .timeout := by
  rcases editReplace_cases running B n ctx D s with ⟨D', s', h⟩ | ⟨o, D', s', -, ho, h⟩
  · rw [h]
    exact editCreate_ne_timeout running B n ctx D' s'
  · rw [h]
    exact ho

/-- A merge does not time out. -/
theorem editMerge_ne_timeout (running : Bool) (B : Backend σ) (n : Node) :
    ∀ (ctx : List (Rose.Frame Label)) (D : Doc) (s : σ),
      (editMerge running B n ctx D s).out ≠ .timeout := by
  induction n using Rose.induct with
  | h l cs ih =>
    have hloop : ∀ (todo : List Node), (∀ c ∈ todo, c ∈ cs) → ∀ (done : List Node)
        (ctx : List (Rose.Frame Label)) (D : Doc) (s : σ),
        (editMergeChildren running B l done todo ctx D s).out ≠ .timeout := by
      intro todo
      induction todo with
      | nil =>
        intro _ done ctx D s
        simp [editMergeChildren]
      | cons c rest ihrest =>
        intro hsub done ctx D s
        have hrest := ihrest (fun x hx => hsub x (List.mem_cons_of_mem _ hx))
        rw [editMergeChildren]
        split
        · exact hrest _ ctx D s
        · simp only
          split
          · exact hrest _ ctx _ _
          · exact ih c (hsub c (by simp)) _ D s
    intro ctx D s
    rw [editMerge]
    split
    · exact editCreate_ne_timeout running B _ ctx D s
    · split
      · simp
      · split
        · exact editReplace_ne_timeout running B _ ctx D s
        · exact hloop cs (fun _ h => h) [] ctx D s

/-- A merge that succeeds unlinks the edit node, unless the node is a
key. -/
theorem editMerge_left
    (hkey : isKey n.label (nameAt (Rose.ancestors n ctx) 0) = false ∨
      findElementEquiv D (Rose.chain n ctx) = none)
    (hout : (editMerge running B n ctx D s).out = .success) :
    (editMerge running B n ctx D s).left = none := by
  cases hf : findElementEquiv D (Rose.chain n ctx) with
  | none =>
    rw [editMerge_of_none hf] at hout ⊢
    exact editCreate_left hout
  | some f =>
    have hk : isKey n.label (nameAt (Rose.ancestors n ctx) 0) = false := by
      simpa [hf] using hkey
    cases ht : firstIsText n.children with
    | true =>
      rw [editMerge_of_text hf hk ht] at hout ⊢
      exact editReplace_left hout
    | false =>
      rw [editMerge_of_children hf hk ht] at hout ⊢
      simp only at hout ⊢
      rw [if_pos hout]

/-- A key that has an equivalent stays. -/
theorem unlinksOrKeeps_merge (running : Bool) (B : Backend σ) :
    UnlinksOrKeeps (editMerge running B) := by
  intro n ctx D s hout
  cases hf : findElementEquiv D (Rose.chain n ctx) with
  | none => exact .inl (editMerge_left (.inr hf) hout)
  | some f =>
    cases hk : isKey n.label (nameAt (Rose.ancestors n ctx) 0) with
    | true => exact .inr (by rw [editMerge_of_key hf hk])
    | false => exact .inl (editMerge_left (.inl hk) hout)

/-! ### The loop over the equivalents of a node -/

/-- A round that goes on has made the datastore document smaller, unless
the node is the root and the datastore the running one. -/
theorem sizes_editDeleteAt_lt {D' : Doc} {s' : σ} (hlong : running = true → 2 ≤ chain.length)
    (hf : findElementEquiv D chain = some f)
    (hdel : editDeleteAt running B f.loc D s = (.success, D', s')) :
    Rose.sizes D' < Rose.sizes D := by
  cases running with
  | false =>
    obtain ⟨rfl, -⟩ : Rose.unlink f.loc D = D' ∧ s = s' := by simpa using hdel
    exact sizes_unlink_find hf
  | true =>
    obtain ⟨ctx, hfoc, -⟩ := find_focus hf
    have hctx : ctx ≠ [] := by
      rintro rfl
      have h1 := Rose.length_of_focus? hfoc
      have h2 := length_loc_of_find hf
      have h3 := hlong rfl
      simp at h1
      omega
    simp only [editDeleteAt, if_true, hfoc, Prod.mk.injEq, Reply.outcome_eq_success] at hdel
    obtain ⟨hout, rfl, -⟩ := hdel
    rw [editDelete_left hctx hout]
    exact Rose.sizes_unlink_lt hfoc

theorem deleteAll_ends (B : Backend σ) (D : Doc) (s : σ) (hlong : running = true → 2 ≤ chain.length)
    (hfuel : Rose.sizes D < fuel) :
    (deleteAll fuel running B chain D s).1 ≠ .timeout ∧
    ((deleteAll fuel running B chain D s).1 = .success →
      Rose.sizes (deleteAll fuel running B chain D s).2.1 ≤ Rose.sizes D) := by
  have hshrink : ∀ st st' : Doc × σ, True → deleteRound running B chain st = .again st' →
      True ∧ Rose.sizes st'.1 < Rose.sizes st.1 := by
    rintro ⟨D₁, s₁⟩ ⟨D₂, s₂⟩ _ hround
    refine ⟨trivial, ?_⟩
    simp only [deleteRound] at hround
    split at hround
    · simp at hround
    · next f hf =>
        split at hround
        · next D' s' hdel =>
            cases hround
            exact sizes_editDeleteAt_lt hlong hf hdel
        · simp at hround
  obtain ⟨r, hr⟩ := Loop.run_eq_some_of_measure (fun _ => True) (fun st => Rose.sizes st.1)
    hshrink (s := (D, s)) trivial
  rw [deleteAll, Loop.run_le hfuel hr]
  -- what holds at the exit: the document has only shrunk, and nothing timed out
  refine Loop.run_induct (fun st => Rose.sizes st.1 ≤ Rose.sizes D)
    (fun r => r.1 ≠ .timeout ∧ (r.1 = .success → Rose.sizes r.2.1 ≤ Rose.sizes D))
    ?_ ?_ (Nat.le_refl _) hr
  · exact fun st st' hle hround => Nat.le_trans (Nat.le_of_lt (hshrink st st' trivial hround).2) hle
  · rintro ⟨D₁, s₁⟩ r' hle hround
    simp only [deleteRound] at hround
    split at hround
    · cases hround
      exact ⟨by simp, fun _ => hle⟩
    · next f hf =>
        split at hround
        · simp at hround
        · next hne =>
            cases hround
            refine ⟨editDeleteAt_ne_timeout running B f.loc D₁ s₁, fun hs => ?_⟩
            exact (hne _ _ (Prod.ext hs rfl)).elim

/-- Once the loop has ended, more rounds change nothing. -/
theorem deleteAll_mono (hle : fuel ≤ fuel')
    (h : (deleteAll fuel running B chain D s).1 ≠ .timeout) :
    deleteAll fuel' running B chain D s = deleteAll fuel running B chain D s := by
  rw [deleteAll] at h ⊢
  cases hr : Loop.run (deleteRound running B chain) fuel (D, s) with
  | none => simp [hr] at h
  | some r => rw [deleteAll, hr, Loop.run_le hle hr]

/-! ### The root of the running datastore -/

/-- The loop around `txn_del_all`. -/
def delAllRound (B : Backend σ) (s : σ) : Loop.Step σ (Reply × σ) :=
  match B.delAll s with
  | (.success, s') => .again s'
  | r => .exit r

/-- `txn_del_all`, called again and again, fails or crashes at last. -/
def DelAllStops (B : Backend σ) (s : σ) : Prop :=
  ∃ k r, Loop.run (delAllRound B) k s = some r

/-- Deleting the equivalent of the root is a call of `txn_del_all`. The document stays
as it was, because the node is not unlinked. -/
theorem editDeleteAt_root (B : Backend σ) {root : Node} (hroot : root.label.isElement = true)
    (hf : findElementEquiv D [root] = some f) (s : σ) :
    editDeleteAt true B f.loc D s = ((B.delAll s).1.outcome, D, (B.delAll s).2) := by
  obtain ⟨i, hloc, -, hm⟩ := find_root_some hf
  obtain ⟨j, rfl, hj, hmatch, -⟩ := findMatch_some hm
  rw [Nat.zero_add] at hloc
  have helem := (matchingElements_element hroot hmatch).1
  have hfoc : Rose.focus? D f.loc = some (f.node, []) := by
    rw [hloc]
    simp [Rose.focus?, hj, Rose.focusIn]
  -- the root is put back where it was
  have hsame : Rose.modify (fun _ => [f.node]) f.loc D = D := by
    rw [hloc, Rose.modify_one _ hj]
    simpa using Rose.take_append_drop_of_getElem? hj
  simp [editDeleteAt, hfoc, editDelete_root B s helem, hsame]

/-- For the root of the running datastore the loop over the equivalents
is a loop around `txn_del_all`. -/
theorem run_deleteRound_root (B : Backend σ) {root : Node} (hroot : root.label.isElement = true)
    (hf : findElementEquiv D [root] = some f) (k : Nat) (s : σ) :
    Loop.run (deleteRound true B [root]) k (D, s) =
      (Loop.run (delAllRound B) k s).map (fun r => (r.1.outcome, D, r.2)) := by
  have hdel := editDeleteAt_root B hroot hf
  induction k generalizing s with
  | zero => rfl
  | succ k ih =>
    cases hr : B.delAll s with
    | mk o s' =>
      cases o with
      | success =>
        have h1 : deleteRound true B [root] (D, s) = .again (D, s') := by
          simp [deleteRound, hf, hdel, hr, Reply.outcome]
        have h2 : delAllRound B s = .again s' := by simp [delAllRound, hr]
        rw [Loop.run_succ_again h1, Loop.run_succ_again h2, ih]
      | failure e =>
        have h1 : deleteRound true B [root] (D, s) = .exit (.failure e, D, s') := by
          simp [deleteRound, hf, hdel, hr, Reply.outcome]
        have h2 : delAllRound B s = .exit (.failure e, s') := by simp [delAllRound, hr]
        rw [Loop.run_succ_exit h1, Loop.run_succ_exit h2]
        rfl
      | crash =>
        have h1 : deleteRound true B [root] (D, s) = .exit (.crash, D, s') := by
          simp [deleteRound, hf, hdel, hr, Reply.outcome]
        have h2 : delAllRound B s = .exit (.crash, s') := by simp [delAllRound, hr]
        rw [Loop.run_succ_exit h1, Loop.run_succ_exit h2]
        rfl

/-! ### The delete and remove phases -/

/-- The two phases differ only in what they do with an element that has
no equivalent. -/
structure DeletingStep (running : Bool) (B : Backend σ) (step : Nat → EditStep σ) : Prop where
  found : ∀ fuel n ctx D s f, findElementEquiv D (Rose.chain n ctx) = some f →
    step fuel n ctx D s = editRemove fuel running B n ctx D s
  missing : ∀ fuel n ctx D s, 0 < fuel → findElementEquiv D (Rose.chain n ctx) = none →
    (step fuel n ctx D s).out ≠ .timeout ∧ (step fuel n ctx D s).orig = D ∧
    ((step fuel n ctx D s).out = .success → (step fuel n ctx D s).left = none)
  mono : ∀ fuel fuel' n ctx D s, fuel ≤ fuel' → (step fuel n ctx D s).out ≠ .timeout →
    step fuel' n ctx D s = step fuel n ctx D s

theorem editRemove_mono (hle : fuel ≤ fuel')
    (h : (editRemove fuel running B n ctx D s).out ≠ .timeout) :
    editRemove fuel' running B n ctx D s = editRemove fuel running B n ctx D s := by
  rw [editRemove, editRemove, deleteAll_mono hle h]

theorem editRemove_missing (hfuel : 0 < fuel) (hf : findElementEquiv D (Rose.chain n ctx) = none) :
    editRemove fuel running B n ctx D s = ⟨.success, none, D, s⟩ := by
  obtain ⟨k, rfl⟩ : ∃ k, fuel = k + 1 := ⟨fuel - 1, by omega⟩
  have hround : deleteRound running B (Rose.chain n ctx) (D, s) = .exit (.success, D, s) := by
    simp [deleteRound, hf]
  simp [editRemove, deleteAll, Loop.run_succ_exit hround]

theorem deletingStep_remove (running : Bool) (B : Backend σ) :
    DeletingStep running B (fun fuel => editRemove fuel running B) where
  found _ _ _ _ _ _ _ := rfl
  missing fuel n ctx D s hfuel hf := by
    rw [editRemove_missing hfuel hf]
    exact ⟨nofun, rfl, fun _ => rfl⟩
  mono _ _ _ _ _ _ hle h := editRemove_mono hle h

theorem deletingStep_delete (running : Bool) (B : Backend σ) :
    DeletingStep running B (fun fuel => editDeleteOp fuel running B) where
  found fuel n ctx D s f hf := by simp only [editDeleteOp, hf]
  missing fuel n ctx D s hfuel hf := by
    simp only [editDeleteOp, hf]
    exact ⟨nofun, trivial, nofun⟩
  mono fuel fuel' n ctx D s hle h := by
    cases hf : findElementEquiv D (Rose.chain n ctx) with
    | none => simp only [editDeleteOp, hf]
    | some f =>
      simp only [editDeleteOp, hf] at h ⊢
      exact editRemove_mono hle h

/-- A step on a node below the root, or on a local datastore. -/
theorem DeletingStep.ends (hstep : DeletingStep running B step) (hlong : running = true → ctx ≠ [])
    (hfuel : Rose.sizes D < fuel) :
    (step fuel n ctx D s).out ≠ .timeout ∧
    ((step fuel n ctx D s).out = .success →
      (step fuel n ctx D s).left = none ∧
        Rose.sizes (step fuel n ctx D s).orig ≤ Rose.sizes D) := by
  cases hf : findElementEquiv D (Rose.chain n ctx) with
  | none =>
    obtain ⟨h1, h2, h3⟩ := hstep.missing fuel n ctx D s (by omega) hf
    exact ⟨h1, fun hs => ⟨h3 hs, by rw [h2]⟩⟩
  | some f =>
    have hlen : running = true → 2 ≤ (Rose.chain n ctx).length := by
      intro hr
      have := List.length_pos_iff.mpr (hlong hr)
      rw [Rose.length_chain]
      omega
    obtain ⟨h1, h2⟩ := deleteAll_ends B D s hlen hfuel
    rw [hstep.found fuel n ctx D s f hf]
    exact ⟨h1, fun hs => ⟨if_pos hs, h2 hs⟩⟩

theorem length_trackLoc {removed : List Loc} {l l' : Loc} (h : trackLoc removed l = some l') :
    l'.length = l.length := by
  have key : ∀ (rs : List Loc) (x : Option Loc),
      rs.foldl (fun l r => l.bind (Rose.afterUnlink r)) x = some l' →
      ∃ y, x = some y ∧ l'.length = y.length := by
    intro rs
    induction rs with
    | nil => exact fun x hx => ⟨l', hx, rfl⟩
    | cons r rs ih =>
      intro x hx
      obtain ⟨y, hy, hlen⟩ := ih _ hx
      obtain ⟨z, rfl, hz⟩ := Option.bind_eq_some_iff.mp hy
      exact ⟨z, rfl, by rw [hlen, Rose.length_afterUnlink hz]⟩
  obtain ⟨y, hy, hlen⟩ := key removed (some l) h
  cases hy
  exact hlen

/-- A phase over nodes below the root ends, and the document has not
grown. -/
theorem DeletingStep.phaseLoop_ends (hstep : DeletingStep running B step) {ls : List Loc}
    (hls : running = true → ∀ l ∈ ls, 2 ≤ l.length) (removed : List Loc) (st : EditState σ)
    (hfuel : Rose.sizes st.orig < fuel) :
    (phaseLoop (step fuel) removed ls st).1 ≠ .timeout ∧
    ((phaseLoop (step fuel) removed ls st).1 = .success →
      Rose.sizes (phaseLoop (step fuel) removed ls st).2.orig ≤ Rose.sizes st.orig) := by
  have hdeep : ∀ {removed l ls} {st₁ : EditState σ} {l' n ctx},
      (running = true → ∀ l₁ ∈ l :: ls, 2 ≤ l₁.length) → trackLoc removed l = some l' →
      Rose.focus? st₁.edit l' = some (n, ctx) → running = true → ctx ≠ [] := by
    rintro removed l ls st₁ l' n ctx hls htrack hfoc hr rfl
    have h1 := Rose.length_of_focus? hfoc
    have h2 := length_trackLoc htrack
    have h3 := hls hr l (by simp)
    simp at h1
    omega
  refine phaseLoop_induct
    (fun _ ls st₁ => (running = true → ∀ l ∈ ls, 2 ≤ l.length) ∧
      Rose.sizes st₁.orig ≤ Rose.sizes st.orig)
    (fun r => r.1 ≠ .timeout ∧ (r.1 = .success → Rose.sizes r.2.orig ≤ Rose.sizes st.orig))
    ?_ ?_ ?_ ?_ ⟨hls, Nat.le_refl _⟩
  · exact fun removed st₁ hI => ⟨by simp, fun _ => hI.2⟩
  · exact fun removed l ls st₁ _ => ⟨by simp, by simp⟩
  · intro removed l ls st₁ l' n ctx hI htrack hfoc hout
    have hend := hstep.ends (n := n) (s := st₁.world) (hdeep hI.1 htrack hfoc)
      (Nat.lt_of_le_of_lt hI.2 hfuel)
    exact ⟨fun hr l₁ hl₁ => hI.1 hr l₁ (List.mem_cons_of_mem _ hl₁),
      Nat.le_trans (hend.2 hout).2 hI.2⟩
  · intro removed l ls st₁ l' n ctx hI htrack hfoc hout
    have hend := hstep.ends (n := n) (s := st₁.world) (hdeep hI.1 htrack hfoc)
      (Nat.lt_of_le_of_lt hI.2 hfuel)
    exact ⟨hend.1, fun hs => absurd hs hout⟩

/-- Once a phase has ended, more rounds for its loops change nothing. -/
theorem DeletingStep.phaseLoop_mono (hstep : DeletingStep running B step) (hle : fuel ≤ fuel')
    (ls : List Loc) (removed : List Loc) (st : EditState σ)
    (h : (phaseLoop (step fuel) removed ls st).1 ≠ .timeout) :
    phaseLoop (step fuel') removed ls st = phaseLoop (step fuel) removed ls st := by
  induction ls generalizing removed st with
  | nil => rfl
  | cons l ls ih =>
    cases htrack : trackLoc removed l with
    | none => rw [phaseLoop_dangling htrack, phaseLoop_dangling htrack]
    | some l' =>
      cases hfoc : Rose.focus? st.edit l' with
      | none => rw [phaseLoop_lost htrack hfoc, phaseLoop_lost htrack hfoc]
      | some p =>
        obtain ⟨n, ctx⟩ := p
        have hne : (step fuel n ctx st.orig st.world).out ≠ .timeout := by
          intro ht
          rw [phaseLoop_stop htrack hfoc (by simp [ht]), ht] at h
          exact h rfl
        have hsame := hstep.mono fuel fuel' n ctx st.orig st.world hle hne
        by_cases hout : (step fuel n ctx st.orig st.world).out = .success
        · rw [phaseLoop_next htrack hfoc hout] at h ⊢
          rw [phaseLoop_next htrack hfoc (by rw [hsame, hout]), hsame]
          exact ih _ _ h
        · rw [phaseLoop_stop htrack hfoc hout,
            phaseLoop_stop htrack hfoc (by rw [hsame]; exact hout), hsame]

/-! ### The root in a phase -/

/-- The root, when it has an equivalent on the running datastore: the
step never succeeds, and it ends when `txn_del_all` stops succeeding. -/
theorem DeletingStep.root (hstep : DeletingStep true B step) {root : Node}
    (hroot : root.label.isElement = true) (hf : findElementEquiv D [root] = some f) (s : σ) :
    (∀ fuel, (step fuel root [] D s).out ≠ .success) ∧
    ((∃ fuel, (step fuel root [] D s).out ≠ .timeout) ↔ DelAllStops B s) := by
  have hrun := run_deleteRound_root B hroot hf
  have hout : ∀ fuel, (step fuel root [] D s).out =
      (deleteAll fuel true B [root] D s).1 := by
    intro fuel
    rw [hstep.found fuel root [] D s f (by simpa [Rose.chain] using hf)]
    simp [editRemove, Rose.chain]
  -- the loop around `txn_del_all` leaves only with what is not a success
  have hexit : ∀ k r, Loop.run (delAllRound B) k s = some r → r.1 ≠ .success := by
    intro k r hr
    refine Loop.run_induct (fun _ => True) (fun r : Reply × σ => r.1 ≠ .success)
      (fun _ _ _ _ => trivial) ?_ trivial hr
    intro s₁ r₁ _ hround
    simp only [delAllRound] at hround
    split at hround
    · simp at hround
    · next hne =>
        cases hround
        intro hs
        exact hne _ (Prod.ext hs rfl)
  constructor
  · intro fuel hs
    rw [hout, deleteAll, hrun] at hs
    cases hr : Loop.run (delAllRound B) fuel s with
    | none => simp [hr] at hs
    | some r =>
      simp only [hr, Option.map_some, Option.getD_some, Reply.outcome_eq_success] at hs
      exact hexit fuel r hr hs
  · constructor
    · rintro ⟨fuel, hne⟩
      rw [hout, deleteAll, hrun] at hne
      cases hr : Loop.run (delAllRound B) fuel s with
      | none => simp [hr] at hne
      | some r => exact ⟨fuel, r, hr⟩
    · rintro ⟨k, r, hr⟩
      refine ⟨k, ?_⟩
      rw [hout, deleteAll, hrun, hr]
      simp

/-- A phase gets stuck at the root: it has the operation, there is an
equivalent in the datastore, and `txn_del_all` keeps succeeding. -/
def RootStuck (op : EditOp) (B : Backend σ) (st : EditState σ) : Prop :=
  ∃ root ∈ st.edit, root.label.isElement = true ∧ opAttr root.label = some (opString op) ∧
    (findElementEquiv st.orig [root]).isSome = true ∧ ¬ DelAllStops B st.world

/-- There is one root. -/
theorem singleRoot_unique {d : Doc} (hd : SingleRoot d) {m : Node} (hm : m ∈ d) (hn : n ∈ d)
    (hem : m.label.isElement = true) (hen : n.label.isElement = true) : m = n := by
  have hlen := hd.one
  rw [List.countP_eq_length_filter] at hlen
  have hm' : m ∈ d.filter (fun n => n.label.isElement) := List.mem_filter.mpr ⟨hm, hem⟩
  have hn' : n ∈ d.filter (fun n => n.label.isElement) := List.mem_filter.mpr ⟨hn, hen⟩
  generalize d.filter (fun n => n.label.isElement) = roots at hlen hm' hn'
  match roots with
  | [] => simp at hm'
  | [x] => rw [List.mem_singleton.mp hm', List.mem_singleton.mp hn']
  | _ :: _ :: _ => simp at hlen

/-- A delete or remove phase ends if and only if it does not get stuck at
the root of the running datastore. -/
theorem DeletingStep.phase_ends_iff (hstep : DeletingStep running B step) (op : EditOp)
    {st : EditState σ} (hone : SingleRoot st.edit) :
    (∃ fuel, (opPhase op (step fuel) st).1 ≠ .timeout) ↔
      (running = true → ¬ RootStuck op B st) := by
  have hends : (running = true → ∀ l ∈ getOperationElements op st.edit, 2 ≤ l.length) →
      ∃ fuel, (opPhase op (step fuel) st).1 ≠ .timeout := fun hls =>
    ⟨Rose.sizes st.orig + 1, (hstep.phaseLoop_ends hls [] st (Nat.lt_succ_self _)).1⟩
  cases running with
  | false => exact ⟨fun _ => nofun, fun _ => hends nofun⟩
  | true =>
    rcases getOperationElements_shape op hone with hdeep | ⟨i, root, ls, hls, hi, hroot, hop, hdeep⟩
    · -- no root in the node set
      refine ⟨fun _ _ => ?_, fun _ => hends (fun _ => hdeep)⟩
      rintro ⟨root, hmem, hroot, hop, -, -⟩
      obtain ⟨i, hi⟩ := List.getElem?_of_mem hmem
      have hin : [i] ∈ getOperationElements op st.edit := by
        refine (mem_getOperationElements op st.edit [i]).mpr ⟨root, ?_, hroot, hop⟩
        simp [Rose.get?, hi, Rose.getIn]
      exact absurd (hdeep [i] hin) (by simp)
    · have hfoc : Rose.focus? st.edit [i] = some (root, []) := by
        simp [Rose.focus?, hi, Rose.focusIn]
      have hphase : ∀ fuel, opPhase op (step fuel) st = phaseLoop (step fuel) [] ([i] :: ls) st :=
        fun fuel => by rw [opPhase, hls]
      have hstuck : RootStuck op B st ↔
          (findElementEquiv st.orig [root]).isSome = true ∧ ¬ DelAllStops B st.world := by
        constructor
        · rintro ⟨root', hmem, hroot', -, h⟩
          rwa [singleRoot_unique hone (List.mem_of_getElem? hi) hmem hroot hroot']
        · exact fun h => ⟨root, List.mem_of_getElem? hi, hroot, hop, h⟩
      rw [hstuck]
      cases hf : findElementEquiv st.orig [root] with
      | none =>
        -- the root has no equivalent: the rest of the phase decides
        refine ⟨fun _ _ h => by simp at h, fun _ => ?_⟩
        have hf' : findElementEquiv st.orig (Rose.chain root []) = none := hf
        obtain ⟨hne, horig, -⟩ := hstep.missing (Rose.sizes st.orig + 1) root [] st.orig st.world
          (Nat.succ_pos _) hf'
        refine ⟨Rose.sizes st.orig + 1, ?_⟩
        rw [hphase]
        by_cases hout : (step (Rose.sizes st.orig + 1) root [] st.orig st.world).out = .success
        · rw [phaseLoop_next rfl hfoc hout]
          exact (hstep.phaseLoop_ends (fun _ => hdeep) _ _
            (by simp [afterStep, horig])).1
        · rw [phaseLoop_stop rfl hfoc hout]
          exact hne
      | some f =>
        obtain ⟨hfail, hiff⟩ := hstep.root hroot hf st.world
        have hfirst : ∀ fuel, (opPhase op (step fuel) st).1 =
            (step fuel root [] st.orig st.world).out := fun fuel => by
          rw [hphase, phaseLoop_stop rfl hfoc (hfail fuel)]
        simp only [hfirst, hiff]
        simp

end OfConfig.Proofs
