import OfConfig.Proofs.Compaction
import OfConfig.Proofs.Finishes

/-!
# `OfConfig.Proofs.Consumed`: the phases and the nodes they consume

A phase of `edit_operations` computes its node set once and then unlinks
one node after the other, with everything below it. What is in the edit
document when a phase starts is known from the labels on its paths: all of
them were there at the beginning (`pathIn_unlink`), and the operations of
the phases before are gone (`beforePhase_paths`).

* `phaseStep`, `thenPhase`, `beforePhase`: `edit_operations` phase by phase.
* `gone_opPhase`: after a phase its operation is gone.
* `beforePhase_paths`: what is left of the edit document when a phase begins.
-/

set_option autoImplicit false

namespace OfConfig.Proofs

open OfConfig.Lib OfConfig.Xml OfConfig.Edit

variable {σ : Type}
variable {d edit : Doc} {defop : DefOp} {l : Loc} {n : Node} {op : EditOp} {p : List Label}
  {st : EditState σ} {step : EditStep σ}

/-! ### Operations and paths -/

/-- The place of an operation in the order of the phases. -/
def phaseIndex : EditOp → Nat
  | .delete => 0
  | .remove => 1
  | .replace => 2
  | .create => 3
  | .merge => 4

theorem phaseIndex_inj {a b : EditOp} (h : phaseIndex a = phaseIndex b) : a = b := by
  cases a <;> cases b <;> first | rfl | simp [phaseIndex] at h

theorem getOperation_eq_op {l : Label} :
    getOperation l = .op op ↔ opAttr l = some (opString op) := by
  constructor
  · intro h
    rw [getOperation] at h
    cases ha : opAttr l with
    | none => simp [ha] at h
    | some v =>
      simp only [ha] at h
      split_ifs at h with h₁ h₂ h₃ h₄ h₅ <;> cases h <;> simp_all [opString]
  · exact getOperation_of_opAttr

/-- The labels are those of a node of the document and of what is above
it. -/
def PathIn (d : Doc) (p : List Label) : Prop :=
  ∃ l n ctx, Rose.focus? d l = some (n, ctx) ∧ p = Rose.path n ctx

/-- All paths of a document. -/
def allPaths (d : Doc) : List (List Label) :=
  (Rose.positions d).filterMap (fun q => (Rose.focus? d q.1).map (fun r => Rose.path r.1 r.2))

theorem mem_allPaths (h : PathIn d p) : p ∈ allPaths d := by
  obtain ⟨l, n, ctx, hf, rfl⟩ := h
  refine List.mem_filterMap.mpr ⟨(l, n),
    (Rose.mem_positions d l n).mpr (Rose.get?_of_focus? hf), ?_⟩
  simp [hf]

/-- The path of an ancestor. -/
theorem PathIn.above {inner : List Label} {x : Label} (h : PathIn d (inner ++ x :: p)) :
    PathIn d (x :: p) := by
  obtain ⟨l, n, ctx, hf, hp⟩ := h
  obtain ⟨l', -, t, c, -, -, ht, hpath⟩ := Rose.focus?_of_path hf hp.symm
  exact ⟨l', t, c, ht, hpath.symm⟩

theorem pathIn_unlink {r : Loc} {t : Node} (hr : Rose.get? d r = some t)
    (h : PathIn (Rose.unlink r d) p) : PathIn d p := by
  obtain ⟨l', u', c', hf, rfl⟩ := h
  obtain ⟨l, u, c, hu, -, hpath⟩ := Rose.focus?_unlink hr hf
  exact ⟨l, u, c, hu, hpath.symm⟩

theorem not_pathIn_nil : ¬ PathIn [] p := by
  rintro ⟨l, n, ctx, hf, -⟩
  cases l <;> simp [Rose.focus?] at hf

theorem hasOp_of_pathIn {ctx : List (Rose.Frame Label)} (hf : Rose.focus? d l = some (n, ctx))
    (hop : getOperation n.label = .op op) : HasOp op d l :=
  ⟨n, Rose.get?_of_focus? hf, isElement_of_op hop, getOperation_eq_op.mp hop⟩

/-- The operation is above, and none of an earlier phase is. -/
def FirstAbove (op : EditOp) (anc : List Label) : Prop :=
  (∃ y ∈ anc, getOperation y = .op op) ∧
    ∀ z ∈ anc, ∀ o, getOperation z = .op o → phaseIndex op ≤ phaseIndex o

/-! ### What a phase leaves -/

/-- A step that unlinks its node when it succeeds. -/
def Unlinks (step : EditStep σ) : Prop :=
  ∀ n ctx D s, (step n ctx D s).out = .success → (step n ctx D s).left = none

theorem Unlinks.orKeeps (h : Unlinks step) : UnlinksOrKeeps step :=
  fun n ctx D s hout => .inl (h n ctx D s hout)

/-- After a step the paths of the edit document were there before. -/
theorem pathIn_afterStep (hstep : UnlinksOrKeeps step) {ctx : List (Rose.Frame Label)}
    (hfoc : Rose.focus? st.edit l = some (n, ctx))
    (hout : (step n ctx st.orig st.world).out = .success)
    (h : PathIn (afterStep st l (step n ctx st.orig st.world)).edit p) : PathIn st.edit p := by
  have hget := Rose.get?_of_focus? hfoc
  rcases hstep n ctx st.orig st.world hout with hnone | hsome
  · rw [edit_afterStep_unlinked hnone] at h
    exact pathIn_unlink hget h
  · rwa [edit_afterStep_kept hget hsome] at h

/-- A phase brings no new paths. -/
theorem pathIn_opPhase (hstep : UnlinksOrKeeps step) (hout : (opPhase op step st).1 = .success)
    (h : PathIn (opPhase op step st).2.edit p) : PathIn st.edit p := by
  refine opPhase_induct (fun st' => ∀ p, PathIn st'.edit p → PathIn st.edit p)
    (fun r => r.1 = .success → ∀ p, PathIn r.2.edit p → PathIn st.edit p) hstep
    (fun st' h _ => h) ?_ ?_ ?_ (fun p h => h) hout p h
  · intro st' _ hcrash
    simp at hcrash
  · intro st' l n ctx hJ hfoc _ _ hout' p hp
    exact hJ p (pathIn_afterStep hstep hfoc hout' hp)
  · intro st' l n ctx _ _ _ _ hne hout'
    exact absurd hout' hne

/-- The nodes that are still to be handled are exactly the ones a pointer
is left for. -/
def Pending (op : EditOp) (removed ls : List Loc) (edit : Doc) : Prop :=
  ∀ l', HasOp op edit l' → ∃ l ∈ ls, trackLoc removed l = some l'

theorem pending_start (op : EditOp) (edit : Doc) :
    Pending op [] (getOperationElements op edit) edit :=
  fun l' h => ⟨l', (mem_getOperationElements op edit l').mpr h, rfl⟩

/-- A position with the operation that is left when a tree was cut out. -/
theorem hasOp_unlink {r l' : Loc} {t : Node} (hr : Rose.get? edit r = some t)
    (h : HasOp op (Rose.unlink r edit) l') :
    ∃ m, HasOp op edit m ∧ Rose.afterUnlink r m = some l' := by
  obtain ⟨u', hu', he, ho⟩ := h
  obtain ⟨c', hf'⟩ := Rose.exists_focus? hu'
  obtain ⟨m, u, c, hu, hafter, hpath⟩ := Rose.focus?_unlink hr hf'
  have hlab : u.label = u'.label := (List.cons_eq_cons.mp hpath).1
  exact ⟨m, ⟨u, Rose.get?_of_focus? hu, by rwa [hlab], by rwa [hlab]⟩, hafter⟩

theorem Pending.unlinked {removed : List Loc} {l' : Loc} {ls : List Loc}
    (h : Pending op removed (l :: ls) edit) (hl : trackLoc removed l = some l')
    (hget : Rose.get? edit l' = some n) :
    Pending op (removed ++ [l']) ls (Rose.unlink l' edit) := by
  intro x hx
  obtain ⟨m, hm, hafter⟩ := hasOp_unlink hget hx
  obtain ⟨k, hk, htrack⟩ := h m hm
  have hne : k ≠ l := by
    rintro rfl
    obtain rfl : l' = m := by simpa using hl.symm.trans htrack
    have hne : l' ≠ [] := by
      rintro rfl
      simp [Rose.get?] at hget
    have hgone := Rose.afterUnlink_inside hne []
    rw [List.append_nil, hafter] at hgone
    cases hgone
  refine ⟨k, (List.mem_cons.mp hk).resolve_left hne, ?_⟩
  rw [trackLoc_snoc, htrack]
  exact hafter

/-- After a phase that unlinks its nodes its operation is gone. -/
theorem gone_opPhase (hstep : Unlinks step) (hout : (opPhase op step st).1 = .success) {x : Label}
    (h : PathIn (opPhase op step st).2.edit (x :: p)) : getOperation x ≠ .op op := by
  have key : ∀ l', ¬ HasOp op (opPhase op step st).2.edit l' := by
    refine phaseLoop_induct (fun removed ls st' => Pending op removed ls st'.edit)
      (fun r => r.1 = .success → ∀ l', ¬ HasOp op r.2.edit l') ?_ ?_ ?_ ?_
      (pending_start op st.edit) hout
    · intro removed st' hp _ l' hop
      obtain ⟨l, hl, -⟩ := hp l' hop
      simp at hl
    · intro removed l ls st' _ hcrash
      simp at hcrash
    · intro removed l ls st' l' n ctx hp hl hfoc hout'
      have hnone := hstep n ctx st'.orig st'.world hout'
      have hget := Rose.get?_of_focus? hfoc
      rw [edit_afterStep_unlinked hnone, removedAfter, if_pos (by simp [hnone])]
      exact hp.unlinked hl hget
    · intro removed l ls st' l' n ctx _ _ _ hne hout'
      exact absurd hout' hne
  intro hx
  obtain ⟨l, n, ctx, hf, hpath⟩ := h
  obtain ⟨rfl, -⟩ := List.cons_eq_cons.mp hpath
  exact key l (hasOp_of_pathIn hf hx)

/-! ### The phases in their order -/

/-- What a phase does with a node of its set. -/
def phaseStep (fuel : Nat) (running : Bool) (B : Backend σ) : EditOp → EditStep σ
  | .delete => editDeleteOp fuel running B
  | .remove => editRemove fuel running B
  | .replace => editReplace running B
  | .create => editCreate running B
  | .merge => editMerge running B

/-- A phase, if what was before it succeeded. -/
def thenPhase (fuel : Nat) (running : Bool) (B : Backend σ) (op : EditOp)
    (r : Outcome × EditState σ) : Outcome × EditState σ :=
  andThen r (opPhase op (phaseStep fuel running B op))

/-- `edit_operations` before its first phase. -/
def beforeDelete (fuel : Nat) (running : Bool) (B : Backend σ) (defop : DefOp)
    (st : EditState σ) : Outcome × EditState σ :=
  if defop = .replace then docLoop fuel (defaultReplaceRound running B) st else (.success, st)

/-- Where `edit_operations` is when a phase begins. -/
def beforePhase (fuel : Nat) (running : Bool) (B : Backend σ) (defop : DefOp) (st : EditState σ) :
    EditOp → Outcome × EditState σ
  | .delete => beforeDelete fuel running B defop st
  | .remove => thenPhase fuel running B .delete (beforeDelete fuel running B defop st)
  | .replace =>
    thenPhase fuel running B .remove (thenPhase fuel running B .delete
      (beforeDelete fuel running B defop st))
  | .create =>
    thenPhase fuel running B .replace (thenPhase fuel running B .remove
      (thenPhase fuel running B .delete (beforeDelete fuel running B defop st)))
  | .merge =>
    thenPhase fuel running B .create (thenPhase fuel running B .replace
      (thenPhase fuel running B .remove (thenPhase fuel running B .delete
        (beforeDelete fuel running B defop st))))

/-- `edit_operations` is its five phases, and the default merge. -/
theorem editOperations_eq (fuel : Nat) (running : Bool) (B : Backend σ) (defop : DefOp)
    (st : EditState σ) :
    editOperations fuel running B defop st =
      let r := andThen (thenPhase fuel running B .merge
          (beforePhase fuel running B defop st .merge)) (fun st =>
        if defop = .merge ∨ defop = .notset then docLoop fuel (defaultMergeRound running B) st
        else (.success, st))
      (setOpFailed r.1, r.2) := rfl

variable {fuel : Nat} {running : Bool} {B : Backend σ}

theorem unlinks_phaseStep (hop : op ≠ .merge) : Unlinks (phaseStep fuel running B op) := by
  intro n ctx D s hout
  cases op with
  | delete => exact editDeleteOp_left hout
  | remove => exact editRemove_left hout
  | replace => exact editReplace_left hout
  | create => exact editCreate_left hout
  | merge => exact absurd rfl hop

/-- A successful default replace has used up the edit document; without one
nothing happens before the first phase. -/
theorem edit_beforeDelete (hout : (beforeDelete fuel running B defop st).1 = .success) :
    (defop = .replace ∧ (beforeDelete fuel running B defop st).2.edit = []) ∨
      (defop ≠ .replace ∧ beforeDelete fuel running B defop st = (.success, st)) := by
  by_cases hdef : defop = .replace
  · rw [beforeDelete, if_pos hdef] at hout ⊢
    exact .inl ⟨hdef, defaultReplace_edit_nil (Prod.ext hout rfl)⟩
  · exact .inr ⟨hdef, if_neg hdef⟩

/-- The paths of an edit document that has gone through the phases before
an operation. -/
def PathsFrom (edit : Doc) (op : EditOp) (d : Doc) : Prop :=
  ∀ p, PathIn d p → PathIn edit p ∧
    ∀ z ∈ p, ∀ o, getOperation z = .op o → phaseIndex op ≤ phaseIndex o

/-- One phase further. -/
theorem PathsFrom.next {op' : EditOp} (hop : op ≠ .merge)
    (hnext : phaseIndex op' = phaseIndex op + 1) {r : Outcome × EditState σ}
    (hr : r.1 = .success → PathsFrom edit op r.2.edit)
    (hout : (thenPhase fuel running B op r).1 = .success) :
    PathsFrom edit op' (thenPhase fuel running B op r).2.edit := by
  obtain ⟨hr₁, heq⟩ := andThen_success hout
  have hunl : Unlinks (phaseStep fuel running B op) := unlinks_phaseStep hop
  rw [thenPhase] at hout ⊢
  rw [heq] at hout ⊢
  intro p hp
  obtain ⟨hE, hidx⟩ := hr hr₁ p (pathIn_opPhase hunl.orKeeps hout hp)
  refine ⟨hE, ?_⟩
  intro z hz o ho
  -- the label belongs to a node of the document, and that is handled
  obtain ⟨inner, rest, rfl⟩ := List.append_of_mem hz
  have hgone := gone_opPhase hunl hout hp.above
  have hne : phaseIndex op ≠ phaseIndex o := by
    intro heq'
    exact hgone (phaseIndex_inj heq' ▸ ho)
  have hle := hidx z hz o ho
  omega

/-- When a phase begins, the paths of the edit document were there before the
first phase, and the operations of the phases before are gone. -/
theorem beforePhase_paths_from (op : EditOp)
    (hout : (beforePhase fuel running B defop st op).1 = .success) :
    PathsFrom (beforeDelete fuel running B defop st).2.edit op
      (beforePhase fuel running B defop st op).2.edit := by
  have hdelete : (beforeDelete fuel running B defop st).1 = .success →
      PathsFrom (beforeDelete fuel running B defop st).2.edit .delete
        (beforeDelete fuel running B defop st).2.edit :=
    fun _ p hp => ⟨hp, fun _ _ _ _ => Nat.zero_le _⟩
  have hremove : (beforePhase fuel running B defop st .remove).1 = .success →
      PathsFrom (beforeDelete fuel running B defop st).2.edit .remove
        (beforePhase fuel running B defop st .remove).2.edit :=
    fun h => PathsFrom.next (by decide) rfl hdelete h
  have hreplace : (beforePhase fuel running B defop st .replace).1 = .success →
      PathsFrom (beforeDelete fuel running B defop st).2.edit .replace
        (beforePhase fuel running B defop st .replace).2.edit :=
    fun h => PathsFrom.next (by decide) rfl hremove h
  have hcreate : (beforePhase fuel running B defop st .create).1 = .success →
      PathsFrom (beforeDelete fuel running B defop st).2.edit .create
        (beforePhase fuel running B defop st .create).2.edit :=
    fun h => PathsFrom.next (by decide) rfl hreplace h
  have hmerge : (beforePhase fuel running B defop st .merge).1 = .success →
      PathsFrom (beforeDelete fuel running B defop st).2.edit .merge
        (beforePhase fuel running B defop st .merge).2.edit :=
    fun h => PathsFrom.next (by decide) rfl hcreate h
  cases op with
  | delete => exact hdelete hout
  | remove => exact hremove hout
  | replace => exact hreplace hout
  | create => exact hcreate hout
  | merge => exact hmerge hout

/-- If a phase begins, then so did the first one. -/
theorem beforeDelete_of_beforePhase (op : EditOp)
    (hout : (beforePhase fuel running B defop st op).1 = .success) :
    (beforeDelete fuel running B defop st).1 = .success := by
  cases op with
  | delete => exact hout
  | remove => exact (andThen_success hout).1
  | replace => exact (andThen_success (andThen_success hout).1).1
  | create => exact (andThen_success (andThen_success (andThen_success hout).1).1).1
  | merge =>
    exact (andThen_success (andThen_success (andThen_success (andThen_success hout).1).1).1).1

/-- When a phase begins, the paths of the edit document are old, and the
operations of the phases before are gone. -/
theorem beforePhase_paths (op : EditOp)
    (hout : (beforePhase fuel running B defop st op).1 = .success) :
    PathsFrom st.edit op (beforePhase fuel running B defop st op).2.edit := by
  intro p hp
  obtain ⟨hE, hidx⟩ := beforePhase_paths_from op hout p hp
  refine ⟨?_, hidx⟩
  rcases edit_beforeDelete (beforeDelete_of_beforePhase op hout) with ⟨-, hnil⟩ | ⟨-, heq⟩
  · rw [hnil] at hE
    exact absurd hE not_pathIn_nil
  · rwa [heq] at hE

/-- A phase without elements does nothing. -/
theorem opPhase_of_empty (step : EditStep σ) (h : getOperationElements op st.edit = []) :
    opPhase op step st = (.success, st) := by
  rw [opPhase, h, phaseLoop_nil]

/-! ### An edit document with one operation -/

/-- An element with an operation. -/
def opElem (name op : String) (cs : List Node) : Node :=
  .node (.element name none [⟨some ncNsBase10, "operation", op⟩]) cs

/-- A port with a number, both to be created. -/
def createPort : Doc :=
  [elem "capable-switch" none [elem "resources" none [opElem "port" "create"
    [elem "name" none [txt "p"], elem "requested-number" none [txt "1"]]]]]

end OfConfig.Proofs
