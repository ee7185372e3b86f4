import OfConfig.Proofs.Phase

/-!
# `OfConfig.Proofs.Simulation`: two backends in step

The editing engine is generic in the backend: it looks at the replies and
passes the state on. So when two backends answer alike and keep their
states related, everything built on them answers alike. `Simulates` states
what is asked of the two backends, and one lemma for each function of the
engine carries it up to `editOperations_agree`.

`txn_del_all` commits in the middle and the process ends when that fails.
Its state then need not be related as before, only weakly: nothing is
called on it any more.
-/

set_option autoImplicit false

namespace OfConfig.Proofs

open OfConfig.Lib OfConfig.Xml OfConfig.Edit

variable {σ τ : Type}
variable {a : Outcome × EditState σ} {b : Outcome × EditState τ} {cs : List Node}
  {ctx : List (Rose.Frame Label)} {ended : Prop} {l : Label} {running : Bool} {s : σ}
  {st : EditState σ} {st' : EditState τ} {t : τ} {ρ : Type}

/-- The calls of two backends answer alike, and keep their states in `R`,
or in `Q` when the process ends. -/
structure Simulates (R Q : σ → τ → Prop) (B : Backend σ) (B' : Backend τ) : Prop where
  weaken : ∀ s t, R s t → Q s t
  exec_reply : ∀ op s t, R s t → (B.exec op s).1 = (B'.exec op t).1
  exec_rel : ∀ op s t, R s t → R (B.exec op s).2 (B'.exec op t).2
  delAll_reply : ∀ s t, R s t → (B.delAll s).1 = (B'.delAll t).1
  delAll_weak : ∀ s t, R s t → Q (B.delAll s).2 (B'.delAll t).2
  delAll_rel : ∀ s t, R s t → (B.delAll s).1 ≠ .crash → R (B.delAll s).2 (B'.delAll t).2
  queue : ∀ br q s t, R s t → B.checkBridgeQueue br q s = B'.checkBridgeQueue br q t

/-- The ends of two runs: the same result, and states that are related
unless the process has ended. -/
structure Agree {ρ : Type} (R Q : σ → τ → Prop) (ended : Prop) (r r' : ρ) (s : σ) (t : τ) :
    Prop where
  same : r = r'
  weak : Q s t
  rel : ¬ ended → R s t

variable {R Q : σ → τ → Prop} {B : Backend σ} {B' : Backend τ}

theorem Simulates.agree (S : Simulates R Q B B') {r : ρ} (h : R s t) : Agree R Q ended r r s t :=
  ⟨rfl, S.weaken s t h, fun _ => h⟩

/-- The result may be passed on in another form. -/
theorem Agree.map {π : Type} {ended' : Prop} {r r' : ρ} (f : ρ → π) (h : Agree R Q ended r r' s t)
    (hend : ended → ended') : Agree R Q ended' (f r) (f r') s t :=
  ⟨congrArg f h.same, h.weak, fun ho => h.rel (fun o => ho (hend o))⟩

/-! ### One node -/

theorem execAll_agree (S : Simulates R Q B B') (ops : List TxnOp) (hst : R s t) :
    (execAll B ops s).1 = (execAll B' ops t).1 ∧ R (execAll B ops s).2 (execAll B' ops t).2 := by
  induction ops generalizing s t with
  | nil => exact ⟨rfl, hst⟩
  | cons op ops ih =>
    have hreply := S.exec_reply op s t hst
    have hrel := S.exec_rel op s t hst
    unfold execAll
    cases hB : B.exec op s with
    | mk o s' =>
      cases hB' : B'.exec op t with
      | mk o' t' =>
        rw [hB, hB'] at hreply hrel
        obtain rfl : o = o' := hreply
        cases o with
        | success => exact ih hrel
        | failure e => exact ⟨rfl, hrel⟩
        | crash => exact ⟨rfl, hrel⟩

/-- The ends of two handlings of a node. -/
def AppliedAgree (R Q : σ → τ → Prop) (a : Applied σ) (b : Applied τ) : Prop :=
  Agree R Q (a.out = .crash) (a.out, a.left) (b.out, b.left) a.world b.world

/-- The ends of two loops over children. -/
def ChildrenAgree (R Q : σ → τ → Prop) (a : Reply × List Node × σ) (b : Reply × List Node × τ) :
    Prop :=
  Agree R Q (a.1 = .crash) (a.1, a.2.1) (b.1, b.2.1) a.2.2 b.2.2

/-- What is left of a node after a loop over its children. -/
def nodeLeft (l : Label) (p : Reply × List Node) : Reply × Option Node :=
  (p.1, if p.1 = .success then none else some (.node l p.2))

/-- The label `end:` on results that agree. -/
theorem finish_agree {n : Node} {r : Reply × σ} {r' : Reply × τ}
    (h : Agree R Q (r.1 = .crash) r.1 r'.1 r.2 r'.2) :
    AppliedAgree R Q (finish n r) (finish n r') :=
  h.map (fun o : Reply => (o, if o = .success then none else some n)) id

theorem applyChildren_agree (S : Simulates R Q B B') {h : Handler}
    (hc : ∀ c ∈ cs, ∀ ctx s t, R s t →
      AppliedAgree R Q (applyNode h B c ctx s) (applyNode h B' c ctx t))
    (hst : R s t) :
    ChildrenAgree R Q (applyChildren h B l cs ctx s) (applyChildren h B' l cs ctx t) := by
  induction cs generalizing s t with
  | nil => exact S.agree hst
  | cons c rest ih =>
    have hfirst := hc c (by simp) (⟨[], l, rest⟩ :: ctx) s t hst
    unfold applyChildren
    generalize applyNode h B c (⟨[], l, rest⟩ :: ctx) s = a at hfirst
    generalize applyNode h B' c (⟨[], l, rest⟩ :: ctx) t = b at hfirst
    obtain ⟨o, left, s'⟩ := a
    obtain ⟨o', left', t'⟩ := b
    obtain ⟨rfl, rfl⟩ : o = o' ∧ left = left' := by simpa using hfirst.same
    cases o with
    | success => exact ih (fun c' hc' => hc c' (by simp [hc'])) (hfirst.rel nofun)
    | failure e => exact ⟨rfl, hfirst.weak, hfirst.rel⟩
    | crash => exact ⟨rfl, hfirst.weak, hfirst.rel⟩

theorem applyAdvertised_agree (S : Simulates R Q B B') {h : Handler} {done : List Node}
    (hc : ∀ c ∈ cs, ∀ ctx s t, R s t →
      AppliedAgree R Q (applyNode h B c ctx s) (applyNode h B' c ctx t))
    (hst : R s t) :
    ChildrenAgree R Q (applyAdvertised h B l done cs ctx s)
      (applyAdvertised h B' l done cs ctx t) := by
  induction cs generalizing done with
  | nil => exact S.agree hst
  | cons c rest ih =>
    unfold applyAdvertised
    split
    · exact (hc c (by simp) (⟨done, l, rest⟩ :: ctx) s t hst).map
        (fun p => (p.1, done ++ p.2.toList ++ rest)) id
    · exact ih (fun c' hc' => hc c' (by simp [hc']))

/-- `edit_delete` and `edit_create` on the running configuration agree. -/
theorem applyNode_agree (S : Simulates R Q B B') (h : Handler) (n : Node) :
    ∀ ctx s t, R s t → AppliedAgree R Q (applyNode h B n ctx s) (applyNode h B' n ctx t) := by
  induction n using Rose.induct with
  | h l cs ih =>
    intro ctx s t hst
    unfold applyNode
    split
    · exact S.agree hst
    · simp only
      cases h.action (.node (h.strip l) cs) (Rose.ancestors (.node (h.strip l) cs) ctx) with
      | nothing => exact S.agree hst
      | call op =>
        have hrel := S.exec_rel op s t hst
        exact finish_agree ⟨S.exec_reply op s t hst, S.weaken _ _ hrel, fun _ => hrel⟩
      | calls ops =>
        obtain ⟨hreply, hrel⟩ := execAll_agree S ops hst
        exact finish_agree ⟨hreply, S.weaken _ _ hrel, fun _ => hrel⟩
      | children => exact (applyChildren_agree S ih hst).map (nodeLeft (h.strip l)) id
      | advertised => exact (applyAdvertised_agree S ih hst).map (nodeLeft (h.strip l)) id
      | delAll =>
        exact Agree.map (fun o => (o, some (Rose.node (h.strip l) cs)))
          (⟨S.delAll_reply s t hst, S.delAll_weak s t hst, S.delAll_rel s t hst⟩ :
            Agree R Q ((B.delAll s).1 = .crash) _ _ _ _) id
      | queueRef br q =>
        refine finish_agree ⟨?_, S.weaken _ _ hst, fun _ => hst⟩
        rw [S.queue br q s t hst]
      | fail e => exact S.agree hst

/-! ### The operations on an edit node -/

/-- Two backends in step under the edits of a datastore: the backends are
called for the running one only. -/
structure InStep (running : Bool) (R Q : σ → τ → Prop) (B : Backend σ) (B' : Backend τ) :
    Prop where
  weaken : ∀ s t, R s t → Q s t
  sim : running = true → Simulates R Q B B'

theorem Simulates.inStep (S : Simulates R Q B B') (running : Bool) : InStep running R Q B B' :=
  ⟨S.weaken, fun _ => S⟩

theorem InStep.agree (S : InStep running R Q B B') {r : ρ} (h : R s t) :
    Agree R Q ended r r s t :=
  ⟨rfl, S.weaken s t h, fun _ => h⟩

/-- The ends of two operations on an edit node. -/
def EditedAgree (R Q : σ → τ → Prop) (a : Edited σ) (b : Edited τ) : Prop :=
  Agree R Q (a.out = .crash) (a.out, a.left, a.orig) (b.out, b.left, b.orig) a.world b.world

theorem EditedAgree.out {a : Edited σ} {b : Edited τ} (h : EditedAgree R Q a b) : a.out = b.out :=
  congrArg Prod.fst h.same

theorem EditedAgree.left {a : Edited σ} {b : Edited τ} (h : EditedAgree R Q a b) :
    a.left = b.left :=
  congrArg (fun p => p.2.1) h.same

theorem EditedAgree.orig {a : Edited σ} {b : Edited τ} (h : EditedAgree R Q a b) :
    a.orig = b.orig :=
  congrArg (fun p => p.2.2) h.same

/-- The ends of two deletions in the datastore document. -/
def DeletedAgree (R Q : σ → τ → Prop) (a : Outcome × Doc × σ) (b : Outcome × Doc × τ) : Prop :=
  Agree R Q (a.1 = .crash) (a.1, a.2.1) (b.1, b.2.1) a.2.2 b.2.2

/-- A step of the engine keeps the backends in step. -/
def StepAgrees (R Q : σ → τ → Prop) (step : EditStep σ) (step' : EditStep τ) : Prop :=
  ∀ n ctx D s t, R s t → EditedAgree R Q (step n ctx D s) (step' n ctx D t)

section

variable {running : Bool} (S : InStep running R Q B B')

include S

theorem editCreate_agree : StepAgrees R Q (editCreate running B) (editCreate running B') := by
  intro n ctx D s t hst
  unfold editCreate
  split
  · next hrun =>
    refine (applyNode_agree (S.sim hrun) ⟨dropOpAttr, createAction⟩ n ctx s t hst).map
      (fun p => (p.1.outcome, p.2, D)) ?_
    intro hcrash
    exact congrArg Reply.outcome hcrash
  · exact S.agree hst

theorem editDeleteAt_agree (l : Loc) (D : Doc) (s : σ) (t : τ) (hst : R s t) :
    DeletedAgree R Q (editDeleteAt running B l D s) (editDeleteAt running B' l D t) := by
  unfold editDeleteAt
  split
  · next hrun =>
    cases Rose.focus? D l with
    | none => exact S.agree hst
    | some p =>
      refine (applyNode_agree (S.sim hrun) ⟨id, deleteAction⟩ p.1 p.2 s t hst).map
        (fun q => (q.1.outcome, Rose.modify (fun _ => q.2.toList) l D)) ?_
      intro hcrash
      exact congrArg Reply.outcome hcrash
  · exact S.agree hst

theorem editReplace_agree : StepAgrees R Q (editReplace running B) (editReplace running B') := by
  intro n ctx D s t hst
  unfold editReplace
  cases findElementEquiv D (Rose.chain n ctx) with
  | none => exact editCreate_agree S n ctx D s t hst
  | some f =>
    have hdel := editDeleteAt_agree S f.loc D s t hst
    simp only
    generalize editDeleteAt running B f.loc D s = a at hdel
    generalize editDeleteAt running B' f.loc D t = b at hdel
    obtain ⟨o, d, s'⟩ := a
    obtain ⟨o', d', t'⟩ := b
    obtain ⟨rfl, rfl⟩ : o = o' ∧ d = d' := by simpa using hdel.same
    cases o with
    | success => exact editCreate_agree S n ctx d s' t' (hdel.rel nofun)
    | failure e => exact ⟨rfl, hdel.weak, hdel.rel⟩
    | crash => exact ⟨rfl, hdel.weak, hdel.rel⟩
    | timeout => exact ⟨rfl, hdel.weak, hdel.rel⟩

/-- The loop that deletes all equivalents: both go round as often. -/
theorem deleteAll_agree (fuel : Nat) (chain : List Node) (D : Doc) (s : σ) (t : τ)
    (hst : R s t) :
    DeletedAgree R Q (deleteAll fuel running B chain D s)
      (deleteAll fuel running B' chain D t) := by
  have hround : ∀ (a : Doc × σ) (b : Doc × τ), a.1 = b.1 ∧ R a.2 b.2 →
      Loop.Step.Rel (fun a b => a.1 = b.1 ∧ R a.2 b.2) (DeletedAgree R Q)
        (deleteRound running B chain a) (deleteRound running B' chain b) := by
    rintro ⟨d, s⟩ ⟨d', t⟩ ⟨hd, hst⟩
    obtain rfl : d = d' := hd
    unfold deleteRound
    cases findElementEquiv d chain with
    | none => exact .exit (S.agree hst)
    | some f =>
      have hdel := editDeleteAt_agree S f.loc d s t hst
      simp only
      generalize editDeleteAt running B f.loc d s = a at hdel
      generalize editDeleteAt running B' f.loc d t = b at hdel
      obtain ⟨o, d₁, s'⟩ := a
      obtain ⟨o', d₁', t'⟩ := b
      obtain ⟨rfl, rfl⟩ : o = o' ∧ d₁ = d₁' := by simpa using hdel.same
      cases o with
      | success => exact .again ⟨rfl, hdel.rel nofun⟩
      | failure e => exact .exit hdel
      | crash => exact .exit hdel
      | timeout => exact .exit hdel
  unfold deleteAll
  obtain ⟨h, h'⟩ | ⟨r, p, h, h', hrp⟩ :=
    Loop.run_rel _ (DeletedAgree R Q) hround fuel (s := (D, s)) (t := (D, t)) ⟨rfl, hst⟩
  · rw [h, h']
    exact S.agree hst
  · rw [h, h']
    exact hrp

theorem editRemove_agree (fuel : Nat) :
    StepAgrees R Q (editRemove fuel running B) (editRemove fuel running B') := by
  intro n ctx D s t hst
  exact (deleteAll_agree S fuel (Rose.chain n ctx) D s t hst).map
    (fun p : Outcome × Doc => (p.1, if p.1 = .success then none else some n, p.2)) id

theorem editDeleteOp_agree (fuel : Nat) :
    StepAgrees R Q (editDeleteOp fuel running B) (editDeleteOp fuel running B') := by
  intro n ctx D s t hst
  unfold editDeleteOp
  cases findElementEquiv D (Rose.chain n ctx) with
  | none => exact S.agree hst
  | some f => exact editRemove_agree S fuel n ctx D s t hst

/-- The ends of two loops of `edit_merge` over children. -/
def MergedAgree (R Q : σ → τ → Prop) (a : MergedChildren σ) (b : MergedChildren τ) : Prop :=
  Agree R Q (a.out = .crash) (a.out, a.left, a.orig) (b.out, b.left, b.orig) a.world b.world

theorem editMergeChildren_agree {done : List Node}
    (hc : ∀ c ∈ cs, ∀ ctx D s t, R s t →
      EditedAgree R Q (editMerge running B c ctx D s) (editMerge running B' c ctx D t))
    {D : Doc} (hst : R s t) :
    MergedAgree R Q (editMergeChildren running B l done cs ctx D s)
      (editMergeChildren running B' l done cs ctx D t) := by
  induction cs generalizing done D s t with
  | nil => exact S.agree hst
  | cons c rest ih =>
    have hrest : ∀ c' ∈ rest, ∀ ctx D s t, R s t →
        EditedAgree R Q (editMerge running B c' ctx D s) (editMerge running B' c' ctx D t) :=
      fun c' hc' => hc c' (by simp [hc'])
    unfold editMergeChildren
    split
    · exact ih hrest hst
    · have hfirst := hc c (by simp) (⟨done, l, rest⟩ :: ctx) D s t hst
      simp only
      generalize editMerge running B c (⟨done, l, rest⟩ :: ctx) D s = a at hfirst
      generalize editMerge running B' c (⟨done, l, rest⟩ :: ctx) D t = b at hfirst
      obtain ⟨o, left, d, s'⟩ := a
      obtain ⟨o', left', d', t'⟩ := b
      obtain ⟨rfl, rfl, rfl⟩ : o = o' ∧ left = left' ∧ d = d' := by simpa using hfirst.same
      cases o with
      | success => exact ih hrest (hfirst.rel nofun)
      | failure e => exact ⟨rfl, hfirst.weak, hfirst.rel⟩
      | crash => exact ⟨rfl, hfirst.weak, hfirst.rel⟩
      | timeout => exact ⟨rfl, hfirst.weak, hfirst.rel⟩

theorem editMerge_agree : StepAgrees R Q (editMerge running B) (editMerge running B') := by
  intro n
  induction n using Rose.induct with
  | h l cs ih =>
    intro ctx D s t hst
    unfold editMerge
    cases findElementEquiv D (Rose.chain (.node l cs) ctx) with
    | none => exact editCreate_agree S _ ctx D s t hst
    | some f =>
      simp only
      split
      · exact S.agree hst
      · split
        · exact editReplace_agree S _ ctx D s t hst
        · exact (editMergeChildren_agree S ih hst).map
            (fun p : Outcome × List Node × Doc =>
              (p.1, if p.1 = .success then none else some (Rose.node l p.2.1), p.2.2)) id

end

theorem editReplaceEmpty_agree (S : Simulates R Q B B') (D : Doc) (s : σ) (t : τ) (hst : R s t) :
    Agree R Q ((editReplaceEmpty B D s).1 = .crash) (editReplaceEmpty B D s).1
      (editReplaceEmpty B' D t).1 (editReplaceEmpty B D s).2 (editReplaceEmpty B' D t).2 := by
  unfold editReplaceEmpty
  split
  · refine ⟨congrArg Reply.outcome (S.delAll_reply s t hst), S.delAll_weak s t hst, ?_⟩
    intro hgo
    exact S.delAll_rel s t hst (fun hcrash => hgo (congrArg Reply.outcome hcrash))
  · exact (editDeleteAt_agree (S.inStep true) [0] D s t hst).map Prod.fst id

/-! ### The phases -/

/-- The ends of two phases. -/
def PhaseAgree (R Q : σ → τ → Prop) (a : Outcome × EditState σ) (b : Outcome × EditState τ) :
    Prop :=
  Agree R Q (a.1 = .crash) (a.1, a.2.orig, a.2.edit) (b.1, b.2.orig, b.2.edit)
    a.2.world b.2.world

/-- States of the engine that differ in the backend only. -/
structure StateRel (R : σ → τ → Prop) (st : EditState σ) (st' : EditState τ) : Prop where
  orig : st.orig = st'.orig
  edit : st.edit = st'.edit
  world : R st.world st'.world

theorem StateRel.agree (S : InStep running R Q B B') (h : StateRel R st st') (o : Outcome) :
    PhaseAgree R Q (o, st) (o, st') :=
  ⟨by simp [h.orig, h.edit], S.weaken _ _ h.world, fun _ => h.world⟩

theorem PhaseAgree.out (h : PhaseAgree R Q a b) : a.1 = b.1 :=
  congrArg Prod.fst h.same

theorem PhaseAgree.orig (h : PhaseAgree R Q a b) : a.2.orig = b.2.orig :=
  congrArg (fun p : Outcome × Doc × Doc => p.2.1) h.same

theorem PhaseAgree.stateRel (h : PhaseAgree R Q a b) (ha : a.1 ≠ .crash) : StateRel R a.2 b.2 :=
  ⟨h.orig, congrArg (fun p : Outcome × Doc × Doc => p.2.2) h.same, h.rel ha⟩

theorem phaseLoop_agree (S : InStep running R Q B B') {step : EditStep σ} {step' : EditStep τ}
    (hstep : StepAgrees R Q step step') (ls removed : List Loc) (h : StateRel R st st') :
    PhaseAgree R Q (phaseLoop step removed ls st) (phaseLoop step' removed ls st') := by
  induction ls generalizing removed st st' with
  | nil => exact h.agree S .success
  | cons l ls ih =>
    cases htrack : trackLoc removed l with
    | none =>
      rw [phaseLoop_dangling htrack, phaseLoop_dangling htrack]
      exact h.agree S .crash
    | some l' =>
      cases hfoc : Rose.focus? st.edit l' with
      | none =>
        rw [phaseLoop_lost htrack hfoc, phaseLoop_lost htrack (h.edit ▸ hfoc)]
        exact h.agree S .crash
      | some p =>
        obtain ⟨n, ctx⟩ := p
        have hfoc' : Rose.focus? st'.edit l' = some (n, ctx) := h.edit ▸ hfoc
        have hone := hstep n ctx st.orig st.world st'.world h.world
        rw [h.orig] at hone
        have hafter : (afterStep st l' (step n ctx st'.orig st.world)).edit =
            (afterStep st' l' (step' n ctx st'.orig st'.world)).edit := by
          simp only [afterStep, h.edit, hone.left]
        have hremoved : removedAfter removed l' (step n ctx st'.orig st.world) =
            removedAfter removed l' (step' n ctx st'.orig st'.world) := by
          simp only [removedAfter, hone.left]
        by_cases hs : (step n ctx st'.orig st.world).out = .success
        · rw [phaseLoop_next htrack hfoc (h.orig ▸ hs),
            phaseLoop_next htrack hfoc' (hone.out ▸ hs), h.orig, hremoved]
          refine ih _ ⟨hone.orig, hafter, hone.rel ?_⟩
          rw [hs]
          simp
        · rw [phaseLoop_stop htrack hfoc (h.orig ▸ hs),
            phaseLoop_stop htrack hfoc' (hone.out ▸ hs), h.orig]
          refine ⟨?_, hone.weak, hone.rel⟩
          rw [Prod.mk.injEq, Prod.mk.injEq]
          exact ⟨hone.out, hone.orig, hafter⟩

theorem opPhase_agree (S : InStep running R Q B B') {step : EditStep σ} {step' : EditStep τ}
    (hstep : StepAgrees R Q step step') (op : EditOp) (h : StateRel R st st') :
    PhaseAgree R Q (opPhase op step st) (opPhase op step' st') := by
  unfold opPhase
  rw [← h.edit]
  exact phaseLoop_agree S hstep _ [] h

/-- A round of a loop over the edit document keeps the backends in step. -/
def RoundAgrees (R Q : σ → τ → Prop)
    (round : EditState σ → Loop.Step (EditState σ) (Outcome × EditState σ))
    (round' : EditState τ → Loop.Step (EditState τ) (Outcome × EditState τ)) : Prop :=
  ∀ st st', StateRel R st st' →
    Loop.Step.Rel (StateRel R) (PhaseAgree R Q) (round st) (round' st')

theorem docLoop_agree (S : InStep running R Q B B') (fuel : Nat)
    {round : EditState σ → Loop.Step (EditState σ) (Outcome × EditState σ)}
    {round' : EditState τ → Loop.Step (EditState τ) (Outcome × EditState τ)}
    (hround : RoundAgrees R Q round round') (h : StateRel R st st') :
    PhaseAgree R Q (docLoop fuel round st) (docLoop fuel round' st') := by
  unfold docLoop
  obtain ⟨hn, hn'⟩ | ⟨r, p, hr, hp, hrp⟩ :=
    Loop.run_rel (StateRel R) (PhaseAgree R Q) hround fuel h
  · rw [hn, hn']
    exact h.agree S .timeout
  · rw [hr, hp]
    exact hrp

theorem defaultReplaceRound_agrees (S : InStep running R Q B B') :
    RoundAgrees R Q (defaultReplaceRound running B) (defaultReplaceRound running B') := by
  rintro ⟨D, edit, s⟩ ⟨D', edit', t⟩ ⟨hD, hedit, hst⟩
  obtain rfl : D = D' := hD
  obtain rfl : edit = edit' := hedit
  cases edit with
  | nil => exact .exit (S.agree hst)
  | cons n rest =>
    have hone := editReplace_agree S n [] D s t hst
    unfold defaultReplaceRound
    simp only
    generalize editReplace running B n [] D s = a at hone
    generalize editReplace running B' n [] D t = b at hone
    obtain ⟨o, left, d, s'⟩ := a
    obtain ⟨o', left', d', t'⟩ := b
    obtain ⟨rfl, rfl, rfl⟩ : o = o' ∧ left = left' ∧ d = d' := by simpa using hone.same
    cases o with
    | success => exact .again ⟨rfl, rfl, hone.rel nofun⟩
    | failure e => exact .again ⟨rfl, rfl, hone.rel nofun⟩
    | crash => exact .exit ⟨rfl, hone.weak, hone.rel⟩
    | timeout => exact .exit ⟨rfl, hone.weak, hone.rel⟩

theorem defaultMergeRound_agrees (S : InStep running R Q B B') :
    RoundAgrees R Q (defaultMergeRound running B) (defaultMergeRound running B') := by
  rintro ⟨D, edit, s⟩ ⟨D', edit', t⟩ ⟨hD, hedit, hst⟩
  obtain rfl : D = D' := hD
  obtain rfl : edit = edit' := hedit
  cases edit with
  | nil => exact .exit (S.agree hst)
  | cons n rest =>
    have hone := editMerge_agree S n [] D s t hst
    unfold defaultMergeRound
    simp only
    generalize editMerge running B n [] D s = a at hone
    generalize editMerge running B' n [] D t = b at hone
    obtain ⟨o, left, d, s'⟩ := a
    obtain ⟨o', left', d', t'⟩ := b
    obtain ⟨rfl, rfl, rfl⟩ : o = o' ∧ left = left' ∧ d = d' := by simpa using hone.same
    cases o with
    | success => exact .again ⟨rfl, rfl, hone.rel nofun⟩
    | failure e => exact .exit ⟨rfl, hone.weak, hone.rel⟩
    | crash => exact .exit ⟨rfl, hone.weak, hone.rel⟩
    | timeout => exact .exit ⟨rfl, hone.weak, hone.rel⟩

/-- A phase that follows. -/
theorem PhaseAgree.andThen {f : EditState σ → Outcome × EditState σ}
    {g : EditState τ → Outcome × EditState τ} (h : PhaseAgree R Q a b)
    (hfg : ∀ st st', StateRel R st st' → PhaseAgree R Q (f st) (g st')) :
    PhaseAgree R Q (Edit.andThen a f) (Edit.andThen b g) := by
  have hout : a.1 = b.1 := h.out
  unfold Edit.andThen
  by_cases hs : a.1 = .success
  · have hs' : b.1 = .success := hout ▸ hs
    rw [hs, hs']
    refine hfg _ _ (h.stateRel ?_)
    rw [hs]
    nofun
  · cases ha : a.1 with
    | success => exact absurd ha hs
    | failure e => rw [← hout, ha]; exact h
    | crash => rw [← hout, ha]; exact h
    | timeout => rw [← hout, ha]; exact h

/-- `edit_operations` on two backends in step. -/
theorem editOperations_agree (S : InStep running R Q B B') (fuel : Nat) (defop : DefOp)
    (h : StateRel R st st') :
    PhaseAgree R Q (editOperations fuel running B defop st)
      (editOperations fuel running B' defop st') := by
  have h₀ : PhaseAgree R Q
      (if defop = .replace then docLoop fuel (defaultReplaceRound running B) st else (.success, st))
      (if defop = .replace then docLoop fuel (defaultReplaceRound running B') st'
        else (.success, st')) := by
    split
    · exact docLoop_agree S fuel (defaultReplaceRound_agrees S) h
    · exact h.agree S .success
  have h₁ := h₀.andThen (fun _ _ => opPhase_agree S (editDeleteOp_agree S fuel) .delete)
  have h₂ := h₁.andThen (fun _ _ => opPhase_agree S (editRemove_agree S fuel) .remove)
  have h₃ := h₂.andThen (fun _ _ => opPhase_agree S (editReplace_agree S) .replace)
  have h₄ := h₃.andThen (fun _ _ => opPhase_agree S (editCreate_agree S) .create)
  have h₅ := h₄.andThen (fun _ _ => opPhase_agree S (editMerge_agree S) .merge)
  have h₆ := h₅.andThen
    (f := fun st => if defop = .merge ∨ defop = .notset then
      docLoop fuel (defaultMergeRound running B) st else (.success, st))
    (g := fun st => if defop = .merge ∨ defop = .notset then
      docLoop fuel (defaultMergeRound running B') st else (.success, st))
    (fun st st' hst => by
      split
      · exact docLoop_agree S fuel (defaultMergeRound_agrees S) hst
      · exact hst.agree S .success)
  refine h₆.map (fun p => (setOpFailed p.1, p.2)) ?_
  intro hcrash
  exact congrArg setOpFailed hcrash

end OfConfig.Proofs
