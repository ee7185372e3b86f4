import Mathlib.Logic.Basic

/-!
# `OfConfig.Lib.Prog`: programs that keep their state when they stop

A C function that changes global data and may return early with an
error: `Prog σ ε α` runs on a state, answers with a value or with an
error, and in both cases leaves a state. What it did before an error is
not undone.

`Keeps v p` is the frame property of such a program: whatever its answer,
it does not change the view `v` of the state. The rules follow the shape
of a program: `keeps_bind`, `keeps_ite`, `keeps_forEach` and so on.
-/

set_option autoImplicit false

namespace OfConfig.Lib

/-- A program on states of type `σ` with errors of type `ε`. -/
def Prog (σ ε α : Type) : Type := σ → Except ε α × σ

namespace Prog

variable {σ ε α β γ : Type}

/-- Answer with a value. -/
def ret (a : α) : Prog σ ε α := fun s => (.ok a, s)

/-- One program after the other, unless the first one stops. -/
def andThen (p : Prog σ ε α) (f : α → Prog σ ε β) : Prog σ ε β := fun s =>
  match p s with
  | (.ok a, s') => f a s'
  | (.error e, s') => (.error e, s')

instance : Monad (Prog σ ε) where
  pure := ret
  bind := andThen

/-- Stop with an error. -/
def stop (e : ε) : Prog σ ε α := fun s => (.error e, s)

/-- Read the state. -/
def read (f : σ → α) : Prog σ ε α := fun s => (.ok (f s), s)

/-- Change the state. -/
def update (f : σ → σ) : Prog σ ε Unit := fun s => (.ok (), f s)

/-- Go on with the value of an option, or stop. -/
def ofOption (e : ε) : Option α → Prog σ ε α
  | some a => ret a
  | none => stop e

/-- A loop over a list, left when a round stops. -/
def forEach (l : List β) (f : β → Prog σ ε Unit) : Prog σ ε Unit :=
  match l with
  | [] => ret ()
  | b :: l => andThen (f b) (fun _ => forEach l f)

/-! ### Running -/

@[simp] theorem pure_run (a : α) (s : σ) : (pure a : Prog σ ε α) s = (.ok a, s) := rfl

@[simp] theorem ret_run (a : α) (s : σ) : (ret a : Prog σ ε α) s = (.ok a, s) := rfl

@[simp] theorem stop_run (e : ε) (s : σ) : (stop e : Prog σ ε α) s = (.error e, s) := rfl

@[simp] theorem read_run (f : σ → α) (s : σ) : (read f : Prog σ ε α) s = (.ok (f s), s) := rfl

@[simp] theorem update_run (f : σ → σ) (s : σ) :
    (update f : Prog σ ε Unit) s = (.ok (), f s) := rfl

theorem bind_def (p : Prog σ ε α) (f : α → Prog σ ε β) : (p >>= f) = andThen p f := rfl

theorem bind_run (p : Prog σ ε α) (f : α → Prog σ ε β) (s : σ) :
    (p >>= f) s =
      match p s with
      | (.ok a, s') => f a s'
      | (.error e, s') => (.error e, s') := rfl

theorem bind_run_ok {p : Prog σ ε α} {f : α → Prog σ ε β} {s s' : σ} {a : α}
    (h : p s = (.ok a, s')) : (p >>= f) s = f a s' := by
  rw [bind_run, h]

theorem bind_run_error {p : Prog σ ε α} {f : α → Prog σ ε β} {s s' : σ} {e : ε}
    (h : p s = (.error e, s')) : (p >>= f) s = (.error e, s') := by
  rw [bind_run, h]

/-! ### Runs that succeed -/

theorem bind_ok {p : Prog σ ε α} {f : α → Prog σ ε β} {s s' : σ} {b : β} :
    (p >>= f) s = (.ok b, s') ↔ ∃ a t, p s = (.ok a, t) ∧ f a t = (.ok b, s') := by
  rw [bind_run]
  cases h : p s with
  | mk r t =>
    cases r with
    | error e => simp
    | ok a =>
      constructor
      · intro hf
        exact ⟨a, t, rfl, hf⟩
      · rintro ⟨a', t', hat, hf⟩
        cases hat
        exact hf

theorem pure_ok {a b : α} {s s' : σ} :
    (pure a : Prog σ ε α) s = (.ok b, s') ↔ a = b ∧ s = s' := by
  simp

theorem read_ok {f : σ → α} {a : α} {s s' : σ} :
    (read f : Prog σ ε α) s = (.ok a, s') ↔ f s = a ∧ s = s' := by
  simp

theorem update_ok {f : σ → σ} {a : Unit} {s s' : σ} :
    (update f : Prog σ ε Unit) s = (.ok a, s') ↔ f s = s' := by
  simp

theorem ofOption_ok {e : ε} {o : Option α} {a : α} {s s' : σ} :
    ofOption e o s = (.ok a, s') ↔ o = some a ∧ s = s' := by
  cases o <;> simp [ofOption]

/-- A loop whose rounds succeed and keep an invariant, which may speak about
the rounds that are left. -/
theorem forEach_run {l : List β} {f : β → Prog σ ε Unit} {I : List β → σ → Prop} {s : σ}
    (hs : I l s) (step : ∀ b l s, I (b :: l) s → ∃ s', f b s = (.ok (), s') ∧ I l s') :
    ∃ s', forEach l f s = (.ok (), s') ∧ I [] s' := by
  induction l generalizing s with
  | nil => exact ⟨s, rfl, hs⟩
  | cons b l ih =>
    obtain ⟨s₁, hb, hl⟩ := step b l s hs
    obtain ⟨s', hrest, hI⟩ := ih hl
    exact ⟨s', (bind_run_ok hb).trans hrest, hI⟩

/-- A loop whose rounds all succeed and change nothing. -/
theorem forEach_done {l : List β} {f : β → Prog σ ε Unit} {s : σ}
    (hf : ∀ b ∈ l, f b s = (.ok (), s)) : forEach l f s = (.ok (), s) := by
  induction l with
  | nil => rfl
  | cons b l ih =>
    exact (bind_run_ok (hf b List.mem_cons_self)).trans
      (ih fun c hc => hf c (List.mem_cons_of_mem _ hc))

/-- A loop whose rounds only read ends as one of its rounds does, or runs to
its end. -/
theorem forEach_readOnly {l : List β} {f : β → Prog σ ε Unit} {s : σ}
    (hf : ∀ b ∈ l, (f b s).2 = s) :
    forEach l f s = (.ok (), s) ∨
      ∃ b ∈ l, ∃ e, f b s = (.error e, s) ∧ forEach l f s = (.error e, s) := by
  induction l with
  | nil => exact .inl rfl
  | cons b l ih =>
    have hb := hf b List.mem_cons_self
    cases hr : f b s with
    | mk r s' =>
      rw [hr] at hb
      obtain rfl : s' = s := hb
      cases r with
      | error e =>
        exact .inr ⟨b, List.mem_cons_self, e, hr, bind_run_error hr⟩
      | ok _ =>
        have hrun : forEach (b :: l) f s' = forEach l f s' := bind_run_ok hr
        rw [hrun]
        rcases ih (fun c hc => hf c (List.mem_cons_of_mem _ hc)) with h | ⟨c, hc, e, he, h⟩
        · exact .inl h
        · exact .inr ⟨c, List.mem_cons_of_mem _ hc, e, he, h⟩

/-! ### Frames -/

/-- Whatever the program answers, it leaves the view `v` as it was. -/
def Keeps (v : σ → γ) (p : Prog σ ε α) : Prop := ∀ s, v (p s).2 = v s

variable {v : σ → γ}

theorem keeps_pure (a : α) : Keeps v (pure a : Prog σ ε α) := fun _ => rfl

theorem keeps_stop (e : ε) : Keeps v (stop e : Prog σ ε α) := fun _ => rfl

theorem keeps_read (f : σ → α) : Keeps v (read f : Prog σ ε α) := fun _ => rfl

theorem keeps_update {f : σ → σ} (h : ∀ s, v (f s) = v s) : Keeps v (update f : Prog σ ε Unit) := h

theorem keeps_ofOption (e : ε) (o : Option α) : Keeps v (ofOption e o : Prog σ ε α) := by
  cases o with
  | none => exact keeps_stop e
  | some a => exact keeps_pure a

theorem keeps_bind {p : Prog σ ε α} {f : α → Prog σ ε β} (hp : Keeps v p)
    (hf : ∀ a, Keeps v (f a)) : Keeps v (p >>= f) := by
  intro s
  rw [bind_run]
  cases hps : p s with
  | mk r s' =>
    have hs' : v s' = v s := by
      have := hp s
      rwa [hps] at this
    cases r with
    | ok a => rw [← hs']; exact hf a s'
    | error e => exact hs'

theorem keeps_ite {c : Prop} [Decidable c] {p q : Prog σ ε α} (hp : Keeps v p) (hq : Keeps v q) :
    Keeps v (if c then p else q) := by
  split
  · exact hp
  · exact hq

theorem keeps_forEach {l : List β} {f : β → Prog σ ε Unit} (hf : ∀ b ∈ l, Keeps v (f b)) :
    Keeps v (forEach l f) := by
  induction l with
  | nil => exact keeps_pure ()
  | cons b l ih =>
    exact keeps_bind (hf b (by simp)) (fun _ => ih (fun b' hb' => hf b' (by simp [hb'])))

end Prog

end OfConfig.Lib
