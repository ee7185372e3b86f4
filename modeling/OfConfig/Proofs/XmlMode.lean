import OfConfig.Proofs.Ops
import OfConfig.Proofs.Phase

/-!
# `OfConfig.Proofs.XmlMode`: the engine on a local datastore

Without the `running` flag the operations of `edit-config.c` only move
XML nodes. Here is what that gives for each of them, whatever the
documents are:

* `editCreate_xml`, `editReplace_xml`, `editMerge_xml`: they succeed.
* `deleteAll_xml`: the loop that deletes all equivalents ends with
  `purge`, and every round makes the datastore document smaller.
* `editOperations_xml_isFailure`: `edit_operations` fails exactly when
  its delete phase does.
-/

set_option autoImplicit false

namespace OfConfig.Proofs

open OfConfig.Lib OfConfig.Xml OfConfig.Edit

variable {σ : Type}
variable {B : Backend σ} {D : Doc} {chain : List Node} {f : Found} {fuel : Nat} {st : EditState σ}

/-! ### Operations that cannot fail -/

@[simp] theorem editDeleteAt_xml (B : Backend σ) (l : Loc) (orig : Doc) (s : σ) :
    editDeleteAt false B l orig s = (.success, Rose.unlink l orig, s) := rfl

theorem editCreate_xml (B : Backend σ) (n : Node) (ctx : List (Rose.Frame Label)) (orig : Doc)
    (s : σ) :
    (editCreate false B n ctx orig s).out = .success ∧
    (editCreate false B n ctx orig s).left = none ∧
    (editCreate false B n ctx orig s).world = s :=
  ⟨rfl, rfl, rfl⟩

theorem editReplace_xml (B : Backend σ) (n : Node) (ctx : List (Rose.Frame Label)) (orig : Doc)
    (s : σ) :
    (editReplace false B n ctx orig s).out = .success ∧
    (editReplace false B n ctx orig s).left = none ∧
    (editReplace false B n ctx orig s).world = s := by
  simp only [editReplace, editDeleteAt_xml]
  split
  · exact editCreate_xml B n ctx orig s
  · exact editCreate_xml B n ctx _ s

/-- A merge succeeds and leaves the backend alone. -/
theorem editMerge_xml (B : Backend σ) (n : Node) :
    ∀ (ctx : List (Rose.Frame Label)) (orig : Doc) (s : σ),
      (editMerge false B n ctx orig s).out = .success ∧
      (editMerge false B n ctx orig s).world = s := by
  induction n using Rose.induct with
  | h l cs ih =>
    -- the loop over the children, for any part of them
    have hloop : ∀ (todo : List Node), (∀ c ∈ todo, c ∈ cs) → ∀ (done : List Node)
        (ctx : List (Rose.Frame Label)) (orig : Doc) (s : σ),
        (editMergeChildren false B l done todo ctx orig s).out = .success ∧
        (editMergeChildren false B l done todo ctx orig s).world = s := by
      intro todo
      induction todo with
      | nil => exact fun _ done ctx orig s => ⟨rfl, rfl⟩
      | cons c rest ihrest =>
        intro hsub done ctx orig s
        have hrest := ihrest (fun x hx => hsub x (List.mem_cons_of_mem _ hx))
        rw [editMergeChildren]
        split
        · exact hrest _ ctx orig s
        · obtain ⟨hout, hworld⟩ := ih c (hsub c (by simp)) (⟨done, l, rest⟩ :: ctx) orig s
          simp only [hout, hworld]
          exact hrest _ ctx _ s
    intro ctx orig s
    rw [editMerge]
    split
    · exact ⟨rfl, rfl⟩
    · split
      · exact ⟨rfl, rfl⟩
      · split
        · exact ⟨(editReplace_xml B _ ctx orig s).1, (editReplace_xml B _ ctx orig s).2.2⟩
        · exact hloop cs (fun _ h => h) [] ctx orig s

/-! ### Deleting all equivalents -/

/-- The document without the equivalents of an edit node: one is unlinked
after the other, at most `n` of them. -/
def purge (chain : List Node) : Nat → Doc → Doc
  | 0, orig => orig
  | n + 1, orig =>
    match findElementEquiv orig chain with
    | none => orig
    | some f => purge chain n (Rose.unlink f.loc orig)

/-- Unlinking the equivalent that was found makes the document smaller. -/
theorem sizes_unlink_find (h : findElementEquiv D chain = some f) :
    Rose.sizes (Rose.unlink f.loc D) < Rose.sizes D := by
  obtain ⟨ctx, hfoc, -⟩ := find_focus h
  exact Rose.sizes_unlink_lt hfoc

theorem sizes_purge_le (chain : List Node) (n : Nat) (D : Doc) :
    Rose.sizes (purge chain n D) ≤ Rose.sizes D := by
  induction n generalizing D with
  | zero => exact Nat.le_refl _
  | succ n ih =>
    rw [purge]
    split
    · exact Nat.le_refl _
    · next f hf => exact Nat.le_trans (ih _) (Nat.le_of_lt (sizes_unlink_find hf))

/-- When there is an equivalent, something is deleted. -/
theorem sizes_purge_lt {n : Nat} (hn : 0 < n) (h : findElementEquiv D chain = some f) :
    Rose.sizes (purge chain n D) < Rose.sizes D := by
  obtain ⟨m, rfl⟩ : ∃ m, n = m + 1 := ⟨n - 1, by omega⟩
  rw [purge, h]
  exact Nat.lt_of_le_of_lt (sizes_purge_le chain m _) (sizes_unlink_find h)

theorem sizes_pos_of_find (h : findElementEquiv D chain = some f) : 0 < Rose.sizes D :=
  Nat.lt_of_le_of_lt (Nat.zero_le _) (sizes_unlink_find h)

/-- With enough rounds the loop ends, and it has purged the document. -/
theorem run_deleteRound_xml (B : Backend σ) (chain : List Node) (n : Nat) (D : Doc) (s : σ)
    (hn : Rose.sizes D ≤ n) :
    Loop.run (deleteRound false B chain) (n + 1) (D, s) = some (.success, purge chain n D, s) := by
  induction n generalizing D with
  | zero =>
    have hnone : findElementEquiv D chain = none := by
      by_contra hne
      obtain ⟨f, hf⟩ := Option.ne_none_iff_exists'.mp hne
      have := sizes_pos_of_find hf
      omega
    exact Loop.run_succ_exit (by simp [deleteRound, hnone, purge]) 0
  | succ n ih =>
    cases hf : findElementEquiv D chain with
    | none => exact Loop.run_succ_exit (by simp [deleteRound, hf, purge]) _
    | some f =>
      have hlt := sizes_unlink_find hf
      have hround : deleteRound false B chain (D, s) = .again (Rose.unlink f.loc D, s) := by
        simp [deleteRound, hf]
      rw [Loop.run_succ_again hround, purge, hf]
      exact ih (Rose.unlink f.loc D) (by omega)

theorem deleteAll_xml (B : Backend σ) (chain : List Node) (D : Doc) (s : σ)
    (hfuel : Rose.sizes D < fuel) :
    deleteAll fuel false B chain D s = (.success, purge chain (Rose.sizes D) D, s) := by
  have h := run_deleteRound_xml B chain (Rose.sizes D) D s (Nat.le_refl _)
  rw [deleteAll, Loop.run_le hfuel h]
  rfl

/-- Whatever the number of rounds, the loop does not fail. -/
theorem deleteAll_xml_not_failure (B : Backend σ) (fuel : Nat) (chain : List Node) (D : Doc)
    (s : σ) : (deleteAll fuel false B chain D s).1.isFailure = false := by
  rw [deleteAll]
  cases hr : Loop.run (deleteRound false B chain) fuel (D, s) with
  | none => rfl
  | some r =>
    refine Loop.run_induct (fun _ => True) (fun r => r.1.isFailure = false)
      (fun _ _ _ _ => trivial) ?_ trivial hr
    intro st r' _ hexit
    simp only [deleteRound, editDeleteAt_xml] at hexit
    split at hexit
    · cases hexit
      rfl
    · simp at hexit

theorem editRemove_xml_not_failure (B : Backend σ) (fuel : Nat) (n : Node)
    (ctx : List (Rose.Frame Label)) (D : Doc) (s : σ) :
    (editRemove fuel false B n ctx D s).out.isFailure = false :=
  deleteAll_xml_not_failure B fuel (Rose.chain n ctx) D s

/-! ### Phases that cannot fail -/

/-- A phase whose operation never fails does not fail. -/
theorem phaseLoop_not_failure {step : EditStep σ}
    (hstep : ∀ n ctx D s, (step n ctx D s).out.isFailure = false) (removed ls : List Loc)
    (st : EditState σ) : (phaseLoop step removed ls st).1.isFailure = false :=
  phaseLoop_induct (fun _ _ _ => True) (fun r => r.1.isFailure = false) (fun _ _ _ => rfl)
    (fun _ _ _ _ _ => rfl) (fun _ _ _ _ _ _ _ _ _ _ _ => trivial)
    (fun _ _ _ _ _ _ _ _ _ _ _ => hstep _ _ _ _) trivial

theorem docLoop_not_failure {round : EditState σ → Loop.Step (EditState σ) (Outcome × EditState σ)}
    (hround : ∀ st r, round st = .exit r → r.1.isFailure = false) (fuel : Nat)
    (st : EditState σ) : (docLoop fuel round st).1.isFailure = false := by
  rw [docLoop]
  cases hr : Loop.run round fuel st with
  | none => rfl
  | some r =>
    exact Loop.run_induct (fun _ => True) (fun r => r.1.isFailure = false)
      (fun _ _ _ _ => trivial) (fun st r _ => hround st r) trivial hr

/-- The default replace never fails: it does not look at the result of
`edit_replace`. -/
theorem defaultReplace_not_failure (running : Bool) (B : Backend σ) (fuel : Nat)
    (st : EditState σ) :
    (docLoop fuel (defaultReplaceRound running B) st).1.isFailure = false := by
  refine docLoop_not_failure ?_ fuel st
  intro st r h
  simp only [defaultReplaceRound] at h
  split at h
  · cases h
    rfl
  · next n rest _ =>
      cases hout : (editReplace running B n [] st.orig st.world).out <;>
        simp only [hout] at h <;> cases h <;> rfl

/-- A default replace that ends has used up the edit document. -/
theorem defaultReplace_edit_nil {running : Bool} {st' : EditState σ}
    (h : docLoop fuel (defaultReplaceRound running B) st = (.success, st')) : st'.edit = [] := by
  rw [docLoop] at h
  cases hr : Loop.run (defaultReplaceRound running B) fuel st with
  | none => simp [hr] at h
  | some r =>
    obtain rfl : r = (.success, st') := by simpa [hr] using h
    refine Loop.run_induct (fun _ => True) (fun r => r.1 = .success → r.2.edit = [])
      (fun _ _ _ _ => trivial) ?_ trivial hr rfl
    intro st₁ r' _ hexit hsucc
    simp only [defaultReplaceRound] at hexit
    split at hexit
    · next hnil =>
        cases hexit
        exact hnil
    · next n rest _ =>
        cases hout : (editReplace running B n [] st₁.orig st₁.world).out <;>
          simp only [hout] at hexit <;> cases hexit <;> simp at hsucc

theorem defaultMerge_xml_not_failure (B : Backend σ) (fuel : Nat) (st : EditState σ) :
    (docLoop fuel (defaultMergeRound false B) st).1.isFailure = false := by
  refine docLoop_not_failure ?_ fuel st
  intro st r h
  simp only [defaultMergeRound] at h
  split at h
  · cases h
    rfl
  · next n rest _ =>
      simp only [(editMerge_xml B n [] st.orig st.world).1] at h
      cases h

theorem andThen_not_failure {r : Outcome × EditState σ}
    {f : EditState σ → Outcome × EditState σ} (hr : r.1.isFailure = false)
    (hf : ∀ st, (f st).1.isFailure = false) : (andThen r f).1.isFailure = false := by
  rw [andThen]
  split
  · exact hf r.2
  · exact hr

theorem andThen_of_failure {r : Outcome × EditState σ}
    (f : EditState σ → Outcome × EditState σ) (hr : r.1.isFailure = true) : andThen r f = r := by
  obtain ⟨e, he⟩ := (Outcome.isFailure_iff _).mp hr
  simp [andThen, he]

@[simp] theorem isFailure_setOpFailed (o : Outcome) : (setOpFailed o).isFailure = o.isFailure := by
  rcases o with _ | (_ | e) | _ | _ <;> rfl

/-- `edit_operations` up to its delete phase. -/
def untilDelete (fuel : Nat) (running : Bool) (B : Backend σ) (defop : DefOp)
    (st : EditState σ) : Outcome × EditState σ :=
  andThen
    (if defop = .replace then docLoop fuel (defaultReplaceRound running B) st else (.success, st))
    (opPhase .delete (editDeleteOp fuel running B))

/-- A failure of the delete phase is the failure of `edit_operations`. -/
theorem editOperations_of_untilDelete_failure {running : Bool} {defop : DefOp}
    (h : (untilDelete fuel running B defop st).1.isFailure = true) :
    (editOperations fuel running B defop st).1.isFailure = true ∧
    (editOperations fuel running B defop st).2 = (untilDelete fuel running B defop st).2 := by
  rw [editOperations]
  simp only
  rw [← untilDelete]
  simp only [andThen_of_failure _ h, isFailure_setOpFailed, h, and_self]

/-- On a local datastore nothing after the delete phase fails. -/
theorem editOperations_xml_not_failure {defop : DefOp}
    (h : (untilDelete fuel false B defop st).1.isFailure = false) :
    (editOperations fuel false B defop st).1.isFailure = false := by
  rw [editOperations]
  simp only
  rw [← untilDelete, isFailure_setOpFailed]
  refine andThen_not_failure (andThen_not_failure (andThen_not_failure (andThen_not_failure
    (andThen_not_failure h ?_) ?_) ?_) ?_) ?_
  · exact fun st => phaseLoop_not_failure (editRemove_xml_not_failure B fuel) _ _ st
  · refine fun st => phaseLoop_not_failure (fun n ctx D s => ?_) _ _ st
    rw [(editReplace_xml B n ctx D s).1]
    rfl
  · exact fun st => phaseLoop_not_failure (fun n ctx D s => rfl) _ _ st
  · refine fun st => phaseLoop_not_failure (fun n ctx D s => ?_) _ _ st
    rw [(editMerge_xml B n ctx D s).1]
    rfl
  · intro st
    split
    · exact defaultMerge_xml_not_failure B fuel st
    · rfl

end OfConfig.Proofs
