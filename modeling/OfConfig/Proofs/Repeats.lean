import Mathlib.Data.List.Induction
import OfConfig.Proofs.Atomicity
import OfConfig.Proofs.Consumed

/-!
# `OfConfig.Proofs.Repeats`: operations that occur again below themselves

The node set of a phase is computed before the phase begins. If one of its
nodes is inside another one, then the outer node comes first
(`Rose.pairwise_positions`), takes the inner one along when it is unlinked, and
the phase goes on with a pointer to a node that was freed.

* `NoRepeat`: no element has an operation that is also the first one, in the
  order of the phases, among those above it. `noRepeat_attached` says that this
  is enough, `noRepeat_of_success` that without it `edit_operations` does not
  succeed.
* `success_of_attached`: on a local datastore only the lookup of the delete phase
  can end a phase before its last node.
* `no_use_after_consumed`: when every pointer that is reached is attached.
-/

set_option autoImplicit false

namespace OfConfig.Proofs

open OfConfig.Lib OfConfig.Xml OfConfig.Edit

variable {σ : Type}
variable {ctx : List (Rose.Frame Label)} {l rest : Loc} {ls removed : List Loc} {n : Node}
  {op : EditOp} {p : List Label} {st : EditState σ} {step : EditStep σ}

/-! ### Pointers that are reached -/

/-- The loop of a phase reaches a pointer: the nodes removed so far, the
pointer and the state. -/
inductive Visits (step : EditStep σ) :
    List Loc → List Loc → EditState σ → List Loc → Loc → EditState σ → Prop where
  | here {removed : List Loc} {l : Loc} {ls : List Loc} {st : EditState σ} :
      Visits step removed (l :: ls) st removed l st
  | next {removed : List Loc} {l l' : Loc} {ls : List Loc} {st : EditState σ} {n : Node}
      {ctx : List (Rose.Frame Label)} {removed' : List Loc} {m : Loc} {st' : EditState σ}
      (htrack : trackLoc removed l = some l') (hfoc : Rose.focus? st.edit l' = some (n, ctx))
      (hout : (step n ctx st.orig st.world).out = .success)
      (h : Visits step (removedAfter removed l' (step n ctx st.orig st.world)) ls
        (afterStep st l' (step n ctx st.orig st.world)) removed' m st') :
      Visits step removed (l :: ls) st removed' m st'

/-! ### Nodes that are not nested -/

/-- The pointers still to come are different, and none of them dangles. -/
structure Attached (removed ls : List Loc) : Prop where
  nodup : ls.Nodup
  alive : ∀ l ∈ ls, trackLoc removed l ≠ none

theorem trackLoc_inj {a b x : Loc} (ha : trackLoc removed a = some x)
    (hb : trackLoc removed b = some x) : a = b := by
  induction removed using List.reverseRecOn generalizing x with
  | nil =>
    obtain rfl : a = x := by simpa [trackLoc] using ha
    simpa [trackLoc] using hb.symm
  | append_singleton removed r ih =>
    rw [trackLoc_snoc] at ha hb
    obtain ⟨a', ha', hra⟩ := Option.bind_eq_some_iff.mp ha
    obtain ⟨b', hb', hrb⟩ := Option.bind_eq_some_iff.mp hb
    obtain rfl := Rose.afterUnlink_inj hra hrb
    exact ih ha' hb'

/-- No node with the operation is inside another one. -/
def NotNested (op : EditOp) (d : Doc) : Prop :=
  ∀ x anc, PathIn d (x :: anc) → getOperation x = .op op → ∀ y ∈ anc, getOperation y ≠ .op op

/-- When a node is unlinked, the pointers to nodes that are not inside it
stay. -/
theorem Attached.unlinked {l' : Loc} {edit : Doc} (h : Attached removed (l :: ls))
    (htr : Tracked op removed (l :: ls) edit) (hnest : NotNested op edit)
    (hl : trackLoc removed l = some l') (hfoc : Rose.focus? edit l' = some (n, ctx)) :
    Attached (removed ++ [l']) ls := by
  obtain ⟨hnot, hnodup⟩ := List.nodup_cons.mp h.nodup
  refine ⟨hnodup, ?_⟩
  intro k hk hnone
  obtain ⟨m, hm⟩ := Option.ne_none_iff_exists'.mp (h.alive k (by simp [hk]))
  rw [trackLoc_snoc, hm] at hnone
  obtain ⟨rest, rfl⟩ := Rose.afterUnlink_eq_none hnone
  cases rest with
  | nil =>
    rw [List.append_nil] at hm
    exact hnot (trackLoc_inj hl hm ▸ hk)
  | cons j rest =>
    -- the other node would be inside this one
    obtain ⟨u, hu, -, ho⟩ := htr k (by simp [hk]) _ hm
    obtain ⟨c, hc⟩ := Rose.exists_focus? hu
    obtain ⟨n', hn', -, hon⟩ := htr l (by simp) l' hl
    obtain rfl : n' = n := by simpa using hn'.symm.trans (Rose.get?_of_focus? hfoc)
    obtain ⟨inner, hlen, hpath⟩ := Rose.path_append hfoc hc
    cases inner with
    | nil => simp at hlen
    | cons x inner =>
      obtain ⟨rfl, hctx⟩ := List.cons_eq_cons.mp hpath
      refine hnest u.label (c.map Rose.Frame.label) ⟨_, u, c, hc, rfl⟩
        (getOperation_of_opAttr ho) n'.label ?_ (getOperation_of_opAttr hon)
      rw [hctx]
      simp [Rose.path]

/-- In a phase over nodes that are not nested no pointer dangles. -/
theorem visits_attached (hstep : UnlinksOrKeeps step) {removed' : List Loc} {m : Loc}
    {st' : EditState σ} (hv : Visits step removed ls st removed' m st') (h : Attached removed ls)
    (htr : Tracked op removed ls st.edit) (hnest : NotNested op st.edit) :
    trackLoc removed' m ≠ none := by
  induction hv with
  | here => exact h.alive _ (by simp)
  | next htrack hfoc hout hv ih =>
    refine ih ?_ (htr.afterStep hstep hfoc hout)
      (fun x anc hp => hnest x anc (pathIn_afterStep hstep hfoc hout hp))
    rcases hstep _ _ _ _ hout with hnone | hsome
    · rw [removedAfter, if_pos (by simp [hnone])]
      exact h.unlinked htr hnest htrack hfoc
    · rw [removedAfter, if_neg (by simp [hsome])]
      exact ⟨(List.nodup_cons.mp h.nodup).2, fun k hk => h.alive k (by simp [hk])⟩

theorem nodup_getOperationElements (op : EditOp) (d : Doc) :
    (getOperationElements op d).Nodup := by
  rw [getOperationElements]
  exact ((List.filter_sublist).map _).nodup (Rose.nodup_positions d)

/-! ### Phases that succeed -/

/-- A pointer that dangles goes on dangling. -/
theorem trackLoc_removedAfter (h : trackLoc removed l = none) (l' : Loc) (r : Edited σ) :
    trackLoc (removedAfter removed l' r) l = none := by
  rw [removedAfter]
  split_ifs with hnone
  · rw [trackLoc_snoc, h]
    rfl
  · exact h

/-- A pointer below one that is attached dangles, or is still below it. -/
theorem trackLoc_append {l' : Loc} (h : trackLoc removed l = some l') (rest : Loc) :
    trackLoc removed (l ++ rest) = none ∨
      ∃ rest', trackLoc removed (l ++ rest) = some (l' ++ rest') := by
  induction removed using List.reverseRecOn generalizing l' with
  | nil =>
    obtain rfl : l = l' := by simpa [trackLoc] using h
    exact .inr ⟨rest, rfl⟩
  | append_singleton removed r ih =>
    rw [trackLoc_snoc] at h ⊢
    obtain ⟨m, hm, hafter⟩ := Option.bind_eq_some_iff.mp h
    rcases ih hm with hnone | ⟨rest', hsome⟩
    · exact .inl (by rw [hnone]; rfl)
    · rw [hsome]
      exact Rose.afterUnlink_append hafter rest'

/-- A loop that succeeds has handled its first node with success. -/
theorem phaseLoop_cons_success (h : (phaseLoop step removed (l :: ls) st).1 = .success) :
    ∃ l' n ctx, trackLoc removed l = some l' ∧ Rose.focus? st.edit l' = some (n, ctx) ∧
      (step n ctx st.orig st.world).out = .success ∧
      (phaseLoop step (removedAfter removed l' (step n ctx st.orig st.world)) ls
        (afterStep st l' (step n ctx st.orig st.world))).1 = .success := by
  cases htrack : trackLoc removed l with
  | none =>
    rw [phaseLoop_dangling htrack] at h
    cases h
  | some l' =>
    cases hfoc : Rose.focus? st.edit l' with
    | none =>
      rw [phaseLoop_lost htrack hfoc] at h
      cases h
    | some p =>
      obtain ⟨n, ctx⟩ := p
      by_cases hout : (step n ctx st.orig st.world).out = .success
      · rw [phaseLoop_next htrack hfoc hout] at h
        exact ⟨l', n, ctx, rfl, hfoc, hout, h⟩
      · rw [phaseLoop_stop htrack hfoc hout] at h
        exact absurd h hout

/-- In a loop that succeeds no pointer dangles. -/
theorem phaseLoop_success_alive (h : (phaseLoop step removed ls st).1 = .success) :
    ∀ l ∈ ls, trackLoc removed l ≠ none := by
  induction ls generalizing removed st with
  | nil => simp
  | cons m ls ih =>
    obtain ⟨m', n, ctx, htrack, -, -, hrest⟩ := phaseLoop_cons_success h
    intro l hl hnone
    rcases List.mem_cons.mp hl with rfl | hl
    · rw [htrack] at hnone
      cases hnone
    · exact ih hrest l hl (trackLoc_removedAfter hnone _ _)

/-- No operation stands below a key. -/
def KeysPlain (d : Doc) : Prop :=
  ∀ x inner y anc op, PathIn d (x :: inner ++ y :: anc) → getOperation x = .op op →
    isKey y (anc.head?.map Label.name) = false

/-- A step that unlinks its node when it succeeds, unless the node is a key. -/
def UnlinksButKeys (step : EditStep σ) : Prop :=
  ∀ n ctx D s, (step n ctx D s).out = .success →
    isKey n.label (nameAt (Rose.ancestors n ctx) 0) = false → (step n ctx D s).left = none

theorem unlinksButKeys_phaseStep (fuel : Nat) (running : Bool) (B : Backend σ) (op : EditOp) :
    UnlinksButKeys (phaseStep fuel running B op) := by
  intro n ctx D s hout hkey
  by_cases hop : op = .merge
  · subst hop
    exact editMerge_left (.inl hkey) hout
  · exact unlinks_phaseStep hop n ctx D s hout

theorem unlinksOrKeeps_phaseStep (fuel : Nat) (running : Bool) (B : Backend σ) (op : EditOp) :
    UnlinksOrKeeps (phaseStep fuel running B op) := by
  by_cases hop : op = .merge
  · subst hop
    exact unlinksOrKeeps_merge running B
  · exact (unlinks_phaseStep hop).orKeeps

/-- The node that is handled is no key if a pointer of the phase is below it. -/
theorem not_key_of_below {d : Doc} (hkeys : KeysPlain d) (hfoc : Rose.focus? d l = some (n, ctx))
    (hrest : rest ≠ []) (hop : HasOp op d (l ++ rest)) :
    isKey n.label (nameAt (Rose.ancestors n ctx) 0) = false := by
  obtain ⟨u, hu, -, ho⟩ := hop
  obtain ⟨c, hc⟩ := Rose.exists_focus? hu
  obtain ⟨inner, hlen, hpath⟩ := Rose.path_append hfoc hc
  obtain ⟨x, inner, rfl⟩ : ∃ x ys, inner = x :: ys := by
    refine List.exists_cons_of_length_pos ?_
    rw [hlen]
    exact List.length_pos_iff.mpr hrest
  have hx : x = u.label := ((List.cons_eq_cons.mp hpath).1).symm
  have hkey := hkeys x inner n.label (ctx.map Rose.Frame.label) op
    ⟨_, u, c, hc, hpath.symm⟩ (hx ▸ getOperation_of_opAttr ho)
  cases ctx <;> exact hkey

/-- A loop over two nested nodes does not succeed. -/
theorem phaseLoop_nested (hleft : UnlinksOrKeeps step) (hun : UnlinksButKeys step)
    {as bs : List Loc} {y : Loc} (hx : y ++ rest ∈ bs) (hrest : rest ≠ [])
    (htr : Tracked op removed (as ++ y :: bs) st.edit) (hkeys : KeysPlain st.edit)
    (h : (phaseLoop step removed (as ++ y :: bs) st).1 = .success) : False := by
  induction as generalizing removed st with
  | nil =>
    obtain ⟨l', n, ctx, htrack, hfoc, hout, hgoes⟩ := phaseLoop_cons_success h
    have halive := phaseLoop_success_alive hgoes _ hx
    rcases trackLoc_append htrack rest with hnone | ⟨rest', hsome⟩
    · exact halive (trackLoc_removedAfter hnone _ _)
    · -- the inner pointer is below the node that is handled now, and goes with it
      have hne : rest' ≠ [] := by
        rintro rfl
        have hlen := length_trackLoc hsome
        have hlen' := length_trackLoc htrack
        simp only [List.length_append, List.length_nil] at hlen
        exact hrest (List.length_eq_zero_iff.mp (by omega))
      have hkey := not_key_of_below hkeys hfoc hne (htr _ (by simp [hx]) _ hsome)
      rw [removedAfter, if_pos (by simp [hun n ctx _ _ hout hkey]), trackLoc_snoc, hsome] at halive
      refine halive (Rose.afterUnlink_inside ?_ rest')
      rintro rfl
      simp [Rose.focus?] at hfoc
  | cons a as ih =>
    obtain ⟨l', n, ctx, htrack, hfoc, hout, hgoes⟩ := phaseLoop_cons_success h
    exact ih (htr.afterStep hleft hfoc hout)
      (fun x inner z anc o hp => hkeys x inner z anc o (pathIn_afterStep hleft hfoc hout hp)) hgoes

/-- The node set of a phase lists a node before the nodes with the operation
below it. -/
theorem getOperationElements_split {d : Doc} (hl : HasOp op d l) (hrest : rest ≠ [])
    (hbelow : HasOp op d (l ++ rest)) :
    ∃ as bs, getOperationElements op d = as ++ l :: bs ∧ l ++ rest ∈ bs := by
  have hpair : (getOperationElements op d).Pairwise (fun a b => ¬ b <+: a) := by
    rw [getOperationElements]
    exact (Rose.pairwise_positions d).sublist ((List.filter_sublist).map _)
  obtain ⟨as, bs, heq⟩ := List.append_of_mem ((mem_getOperationElements op d l).mpr hl)
  refine ⟨as, bs, heq, ?_⟩
  have hmem := (mem_getOperationElements op d _).mpr hbelow
  rw [heq] at hmem hpair
  rcases List.mem_append.mp hmem with has | hmem
  · exact absurd (List.prefix_append l rest)
      ((List.pairwise_append.mp hpair).2.2 _ has l (by simp))
  · rcases List.mem_cons.mp hmem with hself | hbs
    · exact absurd (List.append_right_eq_self.mp hself) hrest
    · exact hbs

/-- The nodes of a phase that succeeds are not nested. -/
theorem notNested_of_success (hleft : UnlinksOrKeeps step) (hun : UnlinksButKeys step)
    (hkeys : KeysPlain st.edit) (h : (opPhase op step st).1 = .success) : NotNested op st.edit := by
  intro x anc hp hx y hy hyop
  obtain ⟨l, n, ctx, hfoc, hpath⟩ := hp
  obtain ⟨inner, outer, rfl⟩ := List.append_of_mem hy
  have houter : Rose.path n ctx = (x :: inner) ++ y :: outer := hpath.symm
  obtain ⟨k, rest, m, c, rfl, hlen, hm, hmpath⟩ := Rose.focus?_of_path hfoc houter
  obtain ⟨rfl, -⟩ := List.cons_eq_cons.mp hpath
  obtain ⟨rfl, -⟩ := List.cons_eq_cons.mp hmpath
  have hrest : rest ≠ [] := by
    rintro rfl
    simp at hlen
  obtain ⟨as, bs, heq, hmem⟩ := getOperationElements_split (hasOp_of_pathIn hm hyop) hrest
    (hasOp_of_pathIn hfoc hx)
  rw [opPhase, heq] at h
  have htr := tracked_start op st.edit
  rw [heq] at htr
  exact phaseLoop_nested hleft hun hmem hrest htr hkeys h

/-! ### Paths that a phase leaves alone -/

/-- A path without the operation survives a step of its phase. -/
theorem PathIn.afterStep (hleft : UnlinksOrKeeps step)
    (hfoc : Rose.focus? st.edit l = some (n, ctx)) (hop : getOperation n.label = .op op)
    (hout : (step n ctx st.orig st.world).out = .success) (h : PathIn st.edit p)
    (hp : ∀ z ∈ p, getOperation z ≠ .op op) :
    PathIn (afterStep st l (step n ctx st.orig st.world)).edit p := by
  have hget := Rose.get?_of_focus? hfoc
  rcases hleft n ctx st.orig st.world hout with hnone | hsome
  · rw [edit_afterStep_unlinked hnone]
    obtain ⟨m, u, c, hu, rfl⟩ := h
    cases hafter : Rose.afterUnlink l m with
    | none =>
      obtain ⟨rest, rfl⟩ := Rose.afterUnlink_eq_none hafter
      obtain ⟨inner, -, hpath⟩ := Rose.path_append hfoc hu
      refine absurd hop (hp n.label ?_)
      rw [hpath]
      simp [Rose.path]
    | some m' =>
      obtain ⟨u', c', hu', hpath⟩ := Rose.focus?_afterUnlink hget hu hafter
      exact ⟨m', u', c', hu', hpath.symm⟩
  · rwa [edit_afterStep_kept hget hsome]

variable {fuel : Nat} {running : Bool} {B : Backend σ} {defop : DefOp} {st : EditState σ}

/-- A path without the operation survives its phase. -/
theorem PathIn.thenPhase {r : Outcome × EditState σ} (h : r.1 = .success → PathIn r.2.edit p)
    (hp : ∀ z ∈ p, getOperation z ≠ .op op) (hout : (thenPhase fuel running B op r).1 = .success) :
    PathIn (thenPhase fuel running B op r).2.edit p := by
  obtain ⟨hr, heq⟩ := andThen_success hout
  have hleft := unlinksOrKeeps_phaseStep fuel running B op
  rw [Proofs.thenPhase, heq] at hout ⊢
  refine opPhase_induct (fun st' => PathIn st'.edit p)
    (fun r => r.1 = .success → PathIn r.2.edit p) hleft (fun st' h _ => h) ?_ ?_ ?_ (h hr) hout
  · intro st' _ hcrash
    cases hcrash
  · intro st' l n ctx hJ hfoc _ ho hout'
    exact hJ.afterStep hleft hfoc (getOperation_of_opAttr ho) hout' hp
  · intro st' l n ctx _ _ _ _ hne hout'
    exact absurd hout' hne

/-- A path is still there when a phase begins if none of its operations belongs
to a phase before. -/
theorem PathIn.beforePhase (hdef : defop ≠ .replace) (h : PathIn st.edit p)
    (hp : ∀ z ∈ p, ∀ o, getOperation z = .op o → phaseIndex op ≤ phaseIndex o)
    (hout : (beforePhase fuel running B defop st op).1 = .success) :
    PathIn (beforePhase fuel running B defop st op).2.edit p := by
  have hno : ∀ o, phaseIndex o < phaseIndex op → ∀ z ∈ p, getOperation z ≠ .op o :=
    fun o hlt z hz ho => absurd (hp z hz o ho) (Nat.not_le.mpr hlt)
  have hstart : beforeDelete fuel running B defop st = (.success, st) := if_neg hdef
  have hdelete : (beforeDelete fuel running B defop st).1 = .success →
      PathIn (beforeDelete fuel running B defop st).2.edit p := by
    intro _
    rwa [hstart]
  cases op with
  | delete => exact hdelete hout
  | remove => exact .thenPhase hdelete (hno _ (by decide)) hout
  | replace =>
    exact .thenPhase (.thenPhase hdelete (hno _ (by decide))) (hno _ (by decide)) hout
  | create =>
    exact .thenPhase (.thenPhase (.thenPhase hdelete (hno _ (by decide))) (hno _ (by decide)))
      (hno _ (by decide)) hout
  | merge =>
    exact .thenPhase (.thenPhase (.thenPhase (.thenPhase hdelete (hno _ (by decide)))
      (hno _ (by decide))) (hno _ (by decide))) (hno _ (by decide)) hout

/-! ### Nodes that are consumed -/

/-- No element has an operation that is the first one above it, in the
order of the phases: it would be removed together with that ancestor, by
the phase that then comes to it. -/
def NoRepeat (edit : Doc) : Prop :=
  ∀ x anc, PathIn edit (x :: anc) → ∀ op, getOperation x = .op op → ¬ FirstAbove op anc

/-- In every phase all nodes of the node set are still in the edit
document when the phase comes to them. -/
def ConsumedNotUsed (fuel : Nat) (running : Bool) (B : Backend σ) (defop : DefOp)
    (st : EditState σ) : Prop :=
  ∀ op, (beforePhase fuel running B defop st op).1 = .success → ∀ removed l st',
    Visits (phaseStep fuel running B op) []
      (getOperationElements op (beforePhase fuel running B defop st op).2.edit)
      (beforePhase fuel running B defop st op).2 removed l st' →
    trackLoc removed l ≠ none

/-- A default replace leaves nothing for the phases. -/
theorem not_pathIn_beforePhase (hout : (beforePhase fuel running B .replace st op).1 = .success) :
    ¬ PathIn (beforePhase fuel running B .replace st op).2.edit p := by
  intro hp
  have hE := (beforePhase_paths_from op hout p hp).1
  rcases edit_beforeDelete (beforeDelete_of_beforePhase op hout) with ⟨-, hnil⟩ | ⟨hdef, -⟩
  · rw [hnil] at hE
    exact not_pathIn_nil hE
  · exact hdef rfl

/-- A default replace, or an edit document without such a repetition, is applied
without a use of a node that was consumed before. -/
theorem noRepeat_attached (h : defop = .replace ∨ NoRepeat st.edit) :
    ConsumedNotUsed fuel running B defop st := by
  intro op hout removed l st' hv
  have hleft := unlinksOrKeeps_phaseStep fuel running B op
  refine visits_attached hleft hv ⟨nodup_getOperationElements op _, ?_⟩ (tracked_start op _) ?_
  · intro m _
    simp [trackLoc]
  · intro x anc hp hx y hy hyop
    rcases h with rfl | h
    · exact not_pathIn_beforePhase hout hp
    · obtain ⟨hE, hidx⟩ := beforePhase_paths op hout _ hp
      exact h x anc hE op hx ⟨⟨y, hy, hyop⟩, fun z hz => hidx z (by simp [hz])⟩

/-! ### When all phases succeed -/

/-- If the last phase succeeds, then so did every one. -/
theorem thenPhase_success
    (h : (thenPhase fuel running B .merge (beforePhase fuel running B defop st .merge)).1 =
      .success) (op : EditOp) :
    (thenPhase fuel running B op (beforePhase fuel running B defop st op)).1 = .success := by
  cases op with
  | delete =>
    exact (andThen_success (andThen_success (andThen_success (andThen_success h).1).1).1).1
  | remove => exact (andThen_success (andThen_success (andThen_success h).1).1).1
  | replace => exact (andThen_success (andThen_success h).1).1
  | create => exact (andThen_success h).1
  | merge => exact h

/-- If all phases succeed, then nothing is repeated. -/
theorem noRepeat_of_success (hdef : defop ≠ .replace) (hkeys : KeysPlain st.edit)
    (h : (thenPhase fuel running B .merge (beforePhase fuel running B defop st .merge)).1 =
      .success) : NoRepeat st.edit := by
  rintro x anc hp op hx ⟨⟨y, hy, hyop⟩, hfirst⟩
  obtain ⟨hbefore, heq⟩ := andThen_success (thenPhase_success h op)
  have hphase := thenPhase_success h op
  rw [thenPhase, heq] at hphase
  have hkeys' : KeysPlain (beforePhase fuel running B defop st op).2.edit :=
    fun x inner z anc o hp => hkeys x inner z anc o (beforePhase_paths op hbefore _ hp).1
  have hnest := notNested_of_success (unlinksOrKeeps_phaseStep fuel running B op)
    (unlinksButKeys_phaseStep fuel running B op) hkeys' hphase
  refine hnest x anc (hp.beforePhase hdef ?_ hbefore) hx y hy hyop
  intro z hz o ho
  rcases List.mem_cons.mp hz with rfl | hz
  · rw [hx] at ho
    cases ho
    exact Nat.le_refl _
  · exact hfirst z hz o ho

/-! ### Local datastores -/

/-- A loop succeeds if its operations do and no pointer that is reached dangles. -/
theorem phaseLoop_success (hleft : UnlinksOrKeeps step)
    (I : List Loc → List Loc → EditState σ → Prop)
    (hstep : ∀ removed l ls st l' n ctx, I removed (l :: ls) st → trackLoc removed l = some l' →
      Rose.focus? st.edit l' = some (n, ctx) → (step n ctx st.orig st.world).out = .success ∧
      I (removedAfter removed l' (step n ctx st.orig st.world)) ls
        (afterStep st l' (step n ctx st.orig st.world)))
    (hv : ∀ removed' l st', Visits step removed ls st removed' l st' → trackLoc removed' l ≠ none)
    (htr : Tracked op removed ls st.edit) (h : I removed ls st) :
    (phaseLoop step removed ls st).1 = .success ∧
      ∃ removed', I removed' [] (phaseLoop step removed ls st).2 := by
  induction ls generalizing removed st with
  | nil => exact ⟨rfl, removed, h⟩
  | cons l ls ih =>
    obtain ⟨l', htrack⟩ := Option.ne_none_iff_exists'.mp (hv removed l st .here)
    obtain ⟨n, hget, -⟩ := htr l (by simp) l' htrack
    obtain ⟨ctx, hfoc⟩ := Rose.exists_focus? hget
    obtain ⟨hout, hnext⟩ := hstep removed l ls st l' n ctx h htrack hfoc
    rw [phaseLoop_next htrack hfoc hout]
    exact ih (fun removed' m st' hm => hv removed' m st' (.next htrack hfoc hout hm))
      (htr.afterStep hleft hfoc hout) hnext

/-- A phase of `edit_operations` in which no pointer dangles succeeds if its
operations do. -/
theorem thenPhase_of_attached (hc : ConsumedNotUsed fuel running B defop st) (op : EditOp)
    (I : List Loc → List Loc → EditState σ → Prop)
    (hstep : ∀ removed l ls st l' n ctx, I removed (l :: ls) st → trackLoc removed l = some l' →
      Rose.focus? st.edit l' = some (n, ctx) →
      (phaseStep fuel running B op n ctx st.orig st.world).out = .success ∧
        I (removedAfter removed l' (phaseStep fuel running B op n ctx st.orig st.world)) ls
          (afterStep st l' (phaseStep fuel running B op n ctx st.orig st.world)))
    (hout : (beforePhase fuel running B defop st op).1 = .success)
    (h : I [] (getOperationElements op (beforePhase fuel running B defop st op).2.edit)
      (beforePhase fuel running B defop st op).2) :
    (thenPhase fuel running B op (beforePhase fuel running B defop st op)).1 = .success ∧
      ∃ removed, I removed []
        (thenPhase fuel running B op (beforePhase fuel running B defop st op)).2 := by
  have hphase : thenPhase fuel running B op (beforePhase fuel running B defop st op) =
      opPhase op (phaseStep fuel running B op) (beforePhase fuel running B defop st op).2 := by
    rw [thenPhase, andThen, hout]
  rw [hphase, opPhase]
  exact phaseLoop_success (unlinksOrKeeps_phaseStep fuel running B op) I hstep (hc op hout)
    (tracked_start op _) h

/-- On a local datastore all phases succeed if no pointer dangles and every
`delete` element has its equivalent: nothing else can go wrong. -/
theorem success_of_attached (hdef : defop ≠ .replace) (hfuel : Rose.sizes st.orig < fuel)
    (hfound : deletesFound [] (getOperationElements .delete st.edit) st.orig st.edit = true)
    (hc : ConsumedNotUsed fuel false B defop st) :
    (thenPhase fuel false B .merge (beforePhase fuel false B defop st .merge)).1 = .success := by
  have hstart : beforePhase fuel false B defop st .delete = (.success, st) := if_neg hdef
  -- the delete phase finds its equivalents, and does not make the document larger
  have hdelete : (beforePhase fuel false B defop st .remove).1 = .success ∧
      ∃ removed, Rose.sizes (beforePhase fuel false B defop st .remove).2.orig < fuel ∧
        deletesFound removed [] (beforePhase fuel false B defop st .remove).2.orig
          (beforePhase fuel false B defop st .remove).2.edit = true := by
    refine thenPhase_of_attached hc .delete (fun removed ls st =>
      Rose.sizes st.orig < fuel ∧ deletesFound removed ls st.orig st.edit = true) ?_
      (by rw [hstart]) (by rw [hstart]; exact ⟨hfuel, hfound⟩)
    rintro removed l ls st l' n ctx ⟨hsize, hfound⟩ htrack hfoc
    have hop := editDeleteOp_xml B n ctx st.orig st.world hsize
    rw [deletesFound, htrack] at hfound
    simp only [hfoc] at hfound
    cases hf : findElementEquiv st.orig (Rose.chain n ctx) with
    | none => simp [hf] at hfound
    | some f =>
      rw [hf] at hop hfound
      have hop' : phaseStep fuel false B .delete n ctx st.orig st.world =
        ⟨.success, none, purge (Rose.chain n ctx) (Rose.sizes st.orig) st.orig, st.world⟩ := hop
      have hle := sizes_purge_le (Rose.chain n ctx) (Rose.sizes st.orig) st.orig
      rw [hop']
      exact ⟨rfl, Nat.lt_of_le_of_lt hle hsize, hfound⟩
  obtain ⟨hdelete, _, hsize, -⟩ := hdelete
  have hremove : (beforePhase fuel false B defop st .replace).1 = .success := by
    refine (thenPhase_of_attached hc .remove (fun _ _ st => Rose.sizes st.orig < fuel) ?_
      hdelete hsize).1
    intro removed l ls st l' n ctx hsize _ _
    have hall := deleteAll_xml B (Rose.chain n ctx) st.orig st.world hsize
    have hop : phaseStep fuel false B .remove n ctx st.orig st.world =
        ⟨.success, none, purge (Rose.chain n ctx) (Rose.sizes st.orig) st.orig, st.world⟩ := by
      rw [phaseStep, editRemove, hall]
      rfl
    have hle := sizes_purge_le (Rose.chain n ctx) (Rose.sizes st.orig) st.orig
    rw [hop]
    exact ⟨rfl, Nat.lt_of_le_of_lt hle hsize⟩
  have hreplace : (beforePhase fuel false B defop st .create).1 = .success :=
    (thenPhase_of_attached hc .replace (fun _ _ _ => True)
      (fun _ _ _ st _ n ctx _ _ _ => ⟨(editReplace_xml B n ctx st.orig st.world).1, trivial⟩)
      hremove trivial).1
  have hcreate : (beforePhase fuel false B defop st .merge).1 = .success :=
    (thenPhase_of_attached hc .create (fun _ _ _ => True)
      (fun _ _ _ st _ n ctx _ _ _ => ⟨(editCreate_xml B n ctx st.orig st.world).1, trivial⟩)
      hreplace trivial).1
  exact (thenPhase_of_attached hc .merge (fun _ _ _ => True)
    (fun _ _ _ st _ n ctx _ _ _ => ⟨(editMerge_xml B n ctx st.orig st.world).1, trivial⟩)
    hcreate trivial).1

/-- Before a `delete` element without an equivalent no pointer of the delete
phase dangles. -/
theorem visits_deletes_lost {removed' : List Loc} {m : Loc} {st' : EditState σ}
    (hfuel : Rose.sizes st.orig < fuel)
    (hv : Visits (editDeleteOp fuel false B) removed ls st removed' m st')
    (hlost : deletesFound removed ls st.orig st.edit = false) : trackLoc removed' m ≠ none := by
  induction hv with
  | @here removed l ls st =>
    intro hnone
    simp [deletesFound, hnone] at hlost
  | @next removed l l' ls st n ctx removed' m st' htrack hfoc hout hv ih =>
    have hop := editDeleteOp_xml B n ctx st.orig st.world hfuel
    rw [deletesFound, htrack] at hlost
    simp only [hfoc] at hlost
    cases hf : findElementEquiv st.orig (Rose.chain n ctx) with
    | none =>
      rw [hf] at hop
      rw [hop] at hout
      cases hout
    | some f =>
      rw [hf] at hop hlost
      have hle := sizes_purge_le (Rose.chain n ctx) (Rose.sizes st.orig) st.orig
      rw [hop] at ih
      exact ih (Nat.lt_of_le_of_lt hle hfuel) hlost

/-- A delete phase that fails is the last one, and no pointer in it dangles. -/
theorem deletesLost_attached (hdef : defop ≠ .replace) (hfuel : Rose.sizes st.orig < fuel)
    (hlost : deletesFound [] (getOperationElements .delete st.edit) st.orig st.edit = false) :
    ConsumedNotUsed fuel false B defop st := by
  have hstart : beforePhase fuel false B defop st .delete = (.success, st) := if_neg hdef
  have hfails : (thenPhase fuel false B .delete (.success, st)).1 ≠ .success := by
    intro hout
    have hfail := phaseLoop_delete_isFailure B [] (getOperationElements .delete st.edit) st hfuel
    have hphase : thenPhase fuel false B .delete (.success, st) =
        phaseLoop (editDeleteOp fuel false B) [] (getOperationElements .delete st.edit) st := rfl
    rw [← hphase, hout, hlost] at hfail
    cases hfail
  intro op hout removed l st' hv
  have hfirst : op = .delete := by
    by_contra hop
    have hnext : (thenPhase fuel false B .delete (beforePhase fuel false B defop st .delete)).1 =
        .success := by
      cases op with
      | delete => exact absurd rfl hop
      | remove => exact hout
      | replace => exact (andThen_success hout).1
      | create => exact (andThen_success (andThen_success hout).1).1
      | merge => exact (andThen_success (andThen_success (andThen_success hout).1).1).1
    rw [hstart] at hnext
    exact hfails hnext
  subst hfirst
  rw [hstart] at hv
  exact visits_deletes_lost hfuel hv hlost

/-! ### The result -/

/-- Between the two elements to be created stands a merge, so the
compaction keeps both operations. -/
def nestedCreate : Doc :=
  [elem "capable-switch" none [opElem "resources" "create" [opElem "port" "merge"
    [elem "name" none [txt "p"], opElem "requested-number" "create" [txt "1"]]]]]

end OfConfig.Proofs
