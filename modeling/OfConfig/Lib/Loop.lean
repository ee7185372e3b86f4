import Mathlib.Data.Nat.Basic

/-!
# `OfConfig.Lib.Loop`: while loops with a bounded number of rounds

A `while` loop is a body that either asks for one more round or leaves
with a result. `run` gives it a number of rounds and answers `none`
when they are used up. The rules of this file are the two a
termination argument needs:

* `run_eq_some_of_measure`: a body whose measure falls with every
  further round leaves within `measure + 1` rounds. The invariant is
  carried along, so the measure only has to fall on the states the
  loop reaches.
* `run_eq_none_of_invariant`: a body that asks for a further round on
  every state of an invariant, and stays inside it, never leaves.

`run_le` says that more rounds change nothing once the loop has left.
`run_induct` is the induction rule for what holds at the exit. `Reaches` are
the states in which a round of the loop begins.
-/

set_option autoImplicit false

namespace OfConfig.Lib.Loop

/-- What one round of a loop answers: one more round from a new state,
or the result the loop leaves with. -/
inductive Step (σ ρ : Type) where
  | again (s : σ)
  | exit (r : ρ)

variable {σ ρ : Type}

/-- The loop `body` from the state `s`, for at most the given number
of rounds. -/
def run (body : σ → Step σ ρ) : Nat → σ → Option ρ
  | 0, _ => none
  | n + 1, s =>
    match body s with
    | .again s' => run body n s'
    | .exit r => some r

/-- The states before the rounds of the loop: its first one, and those a round
asks to go on from. -/
inductive Reaches (body : σ → Step σ ρ) (s : σ) : σ → Prop where
  | start : Reaches body s s
  | again {t t' : σ} (h : Reaches body s t) (hround : body t = .again t') : Reaches body s t'

@[simp] theorem run_zero (body : σ → Step σ ρ) (s : σ) : run body 0 s = none := rfl

theorem run_succ_again {body : σ → Step σ ρ} {s s' : σ} (h : body s = .again s') (n : Nat) :
    run body (n + 1) s = run body n s' := by
  simp [run, h]

theorem run_succ_exit {body : σ → Step σ ρ} {s : σ} {r : ρ} (h : body s = .exit r) (n : Nat) :
    run body (n + 1) s = some r := by
  simp [run, h]

/-- Once the loop has left, more rounds give the same result. -/
theorem run_le {body : σ → Step σ ρ} {n m : Nat} {s : σ} {r : ρ} (hnm : n ≤ m)
    (h : run body n s = some r) : run body m s = some r := by
  induction n generalizing m s with
  | zero => simp at h
  | succ n ih =>
    obtain ⟨m, rfl⟩ : ∃ k, m = k + 1 := ⟨m - 1, by omega⟩
    cases hb : body s with
    | exit r' =>
      rw [run_succ_exit hb] at h ⊢
      exact h
    | again s' =>
      rw [run_succ_again hb] at h ⊢
      exact ih (by omega) h

/-- A loop whose measure falls on the states of an invariant leaves
within `m s + 1` rounds. -/
theorem run_eq_some_of_measure {body : σ → Step σ ρ} (I : σ → Prop) (m : σ → Nat)
    (hstep : ∀ s s', I s → body s = .again s' → I s' ∧ m s' < m s) {s : σ} (hs : I s) :
    ∃ r, run body (m s + 1) s = some r := by
  induction hk : m s using Nat.strong_induction_on generalizing s with
  | _ k ih =>
    cases hb : body s with
    | exit r => exact ⟨r, run_succ_exit hb _⟩
    | again s' =>
      obtain ⟨hI, hlt⟩ := hstep s s' hs hb
      obtain ⟨r, hr⟩ := ih (m s') (by omega) hI rfl
      refine ⟨r, ?_⟩
      rw [run_succ_again hb]
      exact run_le (by omega) hr

/-- A loop that asks for a further round on every state of an
invariant, and stays inside it, never leaves. -/
theorem run_eq_none_of_invariant {body : σ → Step σ ρ} (I : σ → Prop)
    (hstep : ∀ s, I s → ∃ s', body s = .again s' ∧ I s') {s : σ} (hs : I s) (n : Nat) :
    run body n s = none := by
  induction n generalizing s with
  | zero => rfl
  | succ n ih =>
    obtain ⟨s', hb, hs'⟩ := hstep s hs
    rw [run_succ_again hb]
    exact ih hs'

/-- Induction over the rounds of a loop that left: an invariant of the
states, kept by every further round, gives what holds at the exit. -/
theorem run_induct {body : σ → Step σ ρ} (I : σ → Prop) (Q : ρ → Prop)
    (hagain : ∀ s s', I s → body s = .again s' → I s')
    (hexit : ∀ s r, I s → body s = .exit r → Q r)
    {n : Nat} {s : σ} {r : ρ} (hs : I s) (h : run body n s = some r) : Q r := by
  induction n generalizing s with
  | zero => simp at h
  | succ n ih =>
    cases hb : body s with
    | exit r' =>
      rw [run_succ_exit hb] at h
      cases h
      exact hexit s r hs hb
    | again s' =>
      rw [run_succ_again hb] at h
      exact ih (hagain s s' hs hb) h

/-- Two rounds go the same way. -/
inductive Step.Rel {σ τ ρ π : Type} (R : σ → τ → Prop) (Q : ρ → π → Prop) :
    Step σ ρ → Step τ π → Prop where
  | again {s : σ} {t : τ} : R s t → Rel R Q (.again s) (.again t)
  | exit {r : ρ} {p : π} : Q r p → Rel R Q (.exit r) (.exit p)

/-- Two loops in step: when related states go the same way in every round,
both loops leave with related results, or neither has left yet. -/
theorem run_rel {τ π : Type} {body : σ → Step σ ρ} {body' : τ → Step τ π} (R : σ → τ → Prop)
    (Q : ρ → π → Prop) (hstep : ∀ s t, R s t → Step.Rel R Q (body s) (body' t))
    (n : Nat) {s : σ} {t : τ} (hst : R s t) :
    (run body n s = none ∧ run body' n t = none) ∨
      ∃ r p, run body n s = some r ∧ run body' n t = some p ∧ Q r p := by
  induction n generalizing s t with
  | zero => exact .inl ⟨rfl, rfl⟩
  | succ n ih =>
    have hround := hstep s t hst
    cases hb : body s with
    | exit r =>
      cases hb' : body' t with
      | exit p =>
        rw [hb, hb'] at hround
        cases hround with
        | exit h => exact .inr ⟨r, p, run_succ_exit hb n, run_succ_exit hb' n, h⟩
      | again t' => rw [hb, hb'] at hround; cases hround
    | again s' =>
      cases hb' : body' t with
      | exit p => rw [hb, hb'] at hround; cases hround
      | again t' =>
        rw [hb, hb'] at hround
        rw [run_succ_again hb, run_succ_again hb']
        cases hround with
        | again h => exact ih h

end OfConfig.Lib.Loop
