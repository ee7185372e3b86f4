import OfConfig.Edit.Engine
import OfConfig.Lib.Unlink
import OfConfig.Proofs.Ops

/-!
# `OfConfig.Proofs.Phase`: the loop of a phase

Rules for `phaseLoop`, so that no proof about a phase opens its
definition: one rewrite rule for each way a round can go, and the
invariant rules `phaseLoop_induct` and, for a phase over the elements
with an operation, `opPhase_induct`.
-/

set_option autoImplicit false

namespace OfConfig.Proofs

open OfConfig.Lib OfConfig.Xml OfConfig.Edit

variable {σ : Type}
variable {l : Loc} {ls removed : List Loc} {n : Node} {op : EditOp} {st : EditState σ}
  {step : EditStep σ}

/-- The state after an operation on the node at a position. -/
def afterStep (st : EditState σ) (l : Loc) (r : Edited σ) : EditState σ :=
  ⟨r.orig, Rose.modify (fun _ => r.left.toList) l st.edit, r.world⟩

/-- The positions removed so far, after an operation. -/
def removedAfter (removed : List Loc) (l : Loc) (r : Edited σ) : List Loc :=
  if r.left.isNone then removed ++ [l] else removed

section

variable {step : EditStep σ} {removed : List Loc} {l l' : Loc} {ls : List Loc}
  {st : EditState σ} {n : Node} {ctx : List (Rose.Frame Label)}

@[simp] theorem phaseLoop_nil : phaseLoop step removed [] st = (.success, st) := rfl

theorem phaseLoop_dangling (h : trackLoc removed l = none) :
    phaseLoop step removed (l :: ls) st = (.crash, st) := by
  simp only [phaseLoop, h]

theorem phaseLoop_lost (h : trackLoc removed l = some l') (hfoc : Rose.focus? st.edit l' = none) :
    phaseLoop step removed (l :: ls) st = (.crash, st) := by
  simp only [phaseLoop, h, hfoc]

theorem phaseLoop_next (h : trackLoc removed l = some l')
    (hfoc : Rose.focus? st.edit l' = some (n, ctx))
    (hout : (step n ctx st.orig st.world).out = .success) :
    phaseLoop step removed (l :: ls) st =
      phaseLoop step (removedAfter removed l' (step n ctx st.orig st.world)) ls
        (afterStep st l' (step n ctx st.orig st.world)) := by
  simp only [phaseLoop, h, hfoc, hout, removedAfter, afterStep]

theorem phaseLoop_stop (h : trackLoc removed l = some l')
    (hfoc : Rose.focus? st.edit l' = some (n, ctx))
    (hout : (step n ctx st.orig st.world).out ≠ .success) :
    phaseLoop step removed (l :: ls) st =
      ((step n ctx st.orig st.world).out, afterStep st l' (step n ctx st.orig st.world)) := by
  simp only [phaseLoop, h, hfoc, afterStep]

end

/-- Invariant rule for a phase: what holds of the loop's state when it
starts, and is kept by every operation that succeeds, gives what holds of
the result. -/
theorem phaseLoop_induct (I : List Loc → List Loc → EditState σ → Prop)
    (Q : Outcome × EditState σ → Prop) (hdone : ∀ removed st, I removed [] st → Q (.success, st))
    (hcrash : ∀ removed l ls st, I removed (l :: ls) st → Q (.crash, st))
    (hnext : ∀ removed l ls st l' n ctx, I removed (l :: ls) st → trackLoc removed l = some l' →
      Rose.focus? st.edit l' = some (n, ctx) → (step n ctx st.orig st.world).out = .success →
      I (removedAfter removed l' (step n ctx st.orig st.world)) ls
        (afterStep st l' (step n ctx st.orig st.world)))
    (hstop : ∀ removed l ls st l' n ctx, I removed (l :: ls) st → trackLoc removed l = some l' →
      Rose.focus? st.edit l' = some (n, ctx) → (step n ctx st.orig st.world).out ≠ .success →
      Q ((step n ctx st.orig st.world).out, afterStep st l' (step n ctx st.orig st.world)))
    (h : I removed ls st) : Q (phaseLoop step removed ls st) := by
  induction ls generalizing removed st with
  | nil => exact hdone removed st h
  | cons l ls ih =>
    cases htrack : trackLoc removed l with
    | none =>
      rw [phaseLoop_dangling htrack]
      exact hcrash removed l ls st h
    | some l' =>
      cases hfoc : Rose.focus? st.edit l' with
      | none =>
        rw [phaseLoop_lost htrack hfoc]
        exact hcrash removed l ls st h
      | some p =>
        obtain ⟨n, ctx⟩ := p
        by_cases hout : (step n ctx st.orig st.world).out = .success
        · rw [phaseLoop_next htrack hfoc hout]
          exact ih (hnext removed l ls st l' n ctx h htrack hfoc hout)
        · rw [phaseLoop_stop htrack hfoc hout]
          exact hstop removed l ls st l' n ctx h htrack hfoc hout

/-! ### The nodes of a phase keep their operation -/

/-- A step that succeeds unlinks its node or leaves it as it is. -/
def UnlinksOrKeeps (step : EditStep σ) : Prop :=
  ∀ n ctx D s, (step n ctx D s).out = .success →
    (step n ctx D s).left = none ∨ (step n ctx D s).left = some n

theorem edit_afterStep_kept {r : Edited σ} (hget : Rose.get? st.edit l = some n)
    (hr : r.left = some n) : (afterStep st l r).edit = st.edit := by
  simp only [afterStep, hr, Option.toList_some]
  exact Rose.modify_self hget

theorem edit_afterStep_unlinked {r : Edited σ} (hr : r.left = none) :
    (afterStep st l r).edit = Rose.unlink l st.edit := by
  simp only [afterStep, hr, Option.toList_none]
  rfl

theorem trackLoc_snoc (removed : List Loc) (r l : Loc) :
    trackLoc (removed ++ [r]) l = (trackLoc removed l).bind (Rose.afterUnlink r) := by
  simp only [trackLoc, List.foldl_append, List.foldl_cons, List.foldl_nil]

/-- The pointers of a phase that do not dangle point to elements with the
operation. -/
def Tracked (op : EditOp) (removed ls : List Loc) (edit : Doc) : Prop :=
  ∀ l ∈ ls, ∀ l', trackLoc removed l = some l' → HasOp op edit l'

theorem tracked_start (op : EditOp) (edit : Doc) :
    Tracked op [] (getOperationElements op edit) edit := by
  intro l hl l' hl'
  obtain rfl : l = l' := by simpa [trackLoc] using hl'
  exact (mem_getOperationElements op edit l).mp hl

theorem Tracked.unlinked {edit : Doc} {r : Loc} (h : Tracked op removed ls edit)
    (hr : Rose.get? edit r = some n) : Tracked op (removed ++ [r]) ls (Rose.unlink r edit) := by
  intro l hl l' hl'
  rw [trackLoc_snoc] at hl'
  obtain ⟨m, hm, hafter⟩ := Option.bind_eq_some_iff.mp hl'
  obtain ⟨u, hu, he, ho⟩ := h l hl m hm
  obtain ⟨u', hu', hlab⟩ := Rose.label_afterUnlink hr hu hafter
  exact ⟨u', hu', by rw [hlab]; exact he, by rw [hlab]; exact ho⟩

/-- After an operation that unlinks its node, or leaves it as it is, the pointers
still to come point to elements with the operation. -/
theorem Tracked.afterStep (hleft : UnlinksOrKeeps step) {l' : Loc} {ctx : List (Rose.Frame Label)}
    (h : Tracked op removed (l :: ls) st.edit) (hfoc : Rose.focus? st.edit l' = some (n, ctx))
    (hout : (step n ctx st.orig st.world).out = .success) :
    Tracked op (removedAfter removed l' (step n ctx st.orig st.world)) ls
        (afterStep st l' (step n ctx st.orig st.world)).edit := by
  have hget := Rose.get?_of_focus? hfoc
  have hrest : Tracked op removed ls st.edit := fun m hm => h m (by simp [hm])
  rcases hleft n ctx st.orig st.world hout with hnone | hsome
  · rw [edit_afterStep_unlinked hnone, removedAfter, if_pos (by simp [hnone])]
    exact hrest.unlinked hget
  · rw [edit_afterStep_kept hget hsome, removedAfter, if_neg (by simp [hsome])]
    exact hrest

/-- Invariant rule for a phase over the elements with an operation: every
node that is handled is such an element. -/
theorem opPhase_induct (J : EditState σ → Prop) (Q : Outcome × EditState σ → Prop)
    (hleft : UnlinksOrKeeps step) (hdone : ∀ st, J st → Q (.success, st))
    (hcrash : ∀ st, J st → Q (.crash, st))
    (hnext : ∀ st l n ctx, J st → Rose.focus? st.edit l = some (n, ctx) → n.label.isElement = true →
      opAttr n.label = some (opString op) → (step n ctx st.orig st.world).out = .success →
      J (afterStep st l (step n ctx st.orig st.world)))
    (hstop : ∀ st l n ctx, J st → Rose.focus? st.edit l = some (n, ctx) → n.label.isElement = true →
      opAttr n.label = some (opString op) → (step n ctx st.orig st.world).out ≠ .success →
      Q ((step n ctx st.orig st.world).out, afterStep st l (step n ctx st.orig st.world)))
    (h : J st) : Q (opPhase op step st) := by
  have hop : ∀ {removed l ls l'} {st : EditState σ} {n ctx},
      Tracked op removed (l :: ls) st.edit → trackLoc removed l = some l' →
      Rose.focus? st.edit l' = some (n, ctx) →
      n.label.isElement = true ∧ opAttr n.label = some (opString op) := by
    intro removed l ls l' st n ctx htr hl' hfoc
    obtain ⟨u, hu, he, ho⟩ := htr l (by simp) l' hl'
    obtain rfl : u = n := by simpa using hu.symm.trans (Rose.get?_of_focus? hfoc)
    exact ⟨he, ho⟩
  refine phaseLoop_induct (fun removed ls st => Tracked op removed ls st.edit ∧ J st) Q
    ?_ ?_ ?_ ?_ ⟨tracked_start op st.edit, h⟩
  · intro removed st h
    exact hdone st h.2
  · intro removed l ls st h
    exact hcrash st h.2
  · rintro removed l ls st l' n ctx ⟨htr, hJ⟩ hl' hfoc hout
    obtain ⟨he, ho⟩ := hop htr hl' hfoc
    exact ⟨htr.afterStep hleft hfoc hout, hnext st l' n ctx hJ hfoc he ho hout⟩
  · rintro removed l ls st l' n ctx ⟨htr, hJ⟩ hl' hfoc hout
    obtain ⟨he, ho⟩ := hop htr hl' hfoc
    exact hstop st l' n ctx hJ hfoc he ho hout

end OfConfig.Proofs
