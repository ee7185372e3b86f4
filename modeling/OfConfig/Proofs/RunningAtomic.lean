import OfConfig.Proofs.CalmSteps
import OfConfig.Proofs.Finishes

/-!
# `OfConfig.Proofs.RunningAtomic`: failed requests on the running datastore

A request on the running datastore is one OVSDB transaction, but not all
of it is in the transaction: `txn_del_all` commits in the middle,
`ofc_set_switchid` changes the id of the capable switch at once, and
`of_post_ports` can still fail after the commit.

`running_atomic`: a request that reaches none of the three (`RunningRequest.Calm`)
and fails leaves the stored database and the id as they were. The condition is one on
the request and on the running configuration it meets:

* the root of the running configuration is not replaced;
* an id of a capable switch that the request applies is the one that is set, and none
  is deleted;
* the request creates no port (`OldPorts`), or it has no port settings that
  `of_post_ports` would carry out (`NoSettings`).

The operations on one node are in `Proofs.CalmSteps`. Here they are put together to
phases (`opPhase_fine`), to `edit_operations` (`editOperations_fine`) and to requests.
-/

set_option autoImplicit false

namespace OfConfig.Proofs

open OfConfig.Lib OfConfig.Xml OfConfig.Edit OfConfig.Ovs

variable {db : Db} {csId : Option String} {env : Env} {b : Baseline}
  {ports : Option (List PortRef)} {k : Nat} {w : World} {n : Node}
variable {cfg : Doc} {st : EditState World}

/-! ### Phases -/

/-- The state between two operations of a calm request, when `k` phases are over. -/
structure CalmState (db : Db) (b : Baseline) (ports : Option (List PortRef)) (k : Nat)
    (st : EditState World) : Prop where
  edit : CalmEdit b ports k st.edit
  good : Good db b ports st.orig st.world

/-- What a phase has to leave. -/
structure FineState (db : Db) (b : Baseline) (ports : Option (List PortRef)) (k : Nat)
    (r : Outcome × EditState World) : Prop where
  success : r.1 = .success → CalmState db b ports k r.2
  failure : r.1.isFailure = true → Kept db b.csId ports r.2.world

theorem CalmState.fine {out : Outcome} (h : CalmState db b ports k st) :
    FineState db b ports k (out, st) :=
  ⟨fun _ => h, fun _ => h.good.kept⟩

theorem FineState.andThen {j : Nat} {r : Outcome × EditState World}
    {f : EditState World → Outcome × EditState World} (h : FineState db b ports j r)
    (hf : ∀ st, CalmState db b ports j st → FineState db b ports k (f st)) :
    FineState db b ports k (andThen r f) := by
  by_cases hr : r.1 = .success
  · have heq : Edit.andThen r f = f r.2 := by simp [Edit.andThen, hr]
    rw [heq]
    exact hf r.2 (h.success hr)
  · rw [andThen_of_ne hr]
    exact ⟨fun hs => absurd hs hr, h.failure⟩

/-- A phase is calm when its operation is, on every node with the
operation. -/
theorem opPhase_fine {op : EditOp} {step : EditStep World} (hleft : UnlinksOrKeeps step)
    (hstep : ∀ n ctx D w, Good db b ports D w → CalmNode b ports k n ctx →
      n.label.isElement = true → getOperation n.label = .op op →
      Fine db b ports (step n ctx D w).out (step n ctx D w).orig (step n ctx D w).world)
    (h : CalmState db b ports k st) : FineState db b ports k (opPhase op step st) := by
  refine opPhase_induct (CalmState db b ports k) (FineState db b ports k) hleft
    (fun st h => h.fine) (fun st h => h.fine) ?_ ?_ h
  · intro st l n ctx h hfoc he ho hout
    have hop := getOperation_eq_op.mpr ho
    have hfine := hstep n ctx st.orig st.world h.good (h.edit.focus hfoc) he hop
    refine ⟨?_, hfine.success hout⟩
    have hget := Rose.get?_of_focus? hfoc
    rcases hleft n ctx st.orig st.world hout with hnone | hsome
    · rw [edit_afterStep_unlinked hnone]
      exact h.edit.unlink hget (by simp [hop]) (isText_of_isElement he)
    · rw [edit_afterStep_kept hget hsome]
      exact h.edit
  · intro st l n ctx h hfoc he ho hout
    have hfine := hstep n ctx st.orig st.world h.good (h.edit.focus hfoc) he
      (getOperation_eq_op.mpr ho)
    exact ⟨fun hs => absurd hs hout, hfine.failure⟩

/-- The same for a phase that unlinks its nodes: afterwards its operation is gone. -/
theorem opPhase_next (op : EditOp) {step : EditStep World} (hleft : Unlinks step)
    (hstep : ∀ n ctx D w, Good db b ports D w → CalmNode b ports (phaseIndex op) n ctx →
      n.label.isElement = true → getOperation n.label = .op op →
      Fine db b ports (step n ctx D w).out (step n ctx D w).orig (step n ctx D w).world)
    (h : CalmState db b ports (phaseIndex op) st) :
    FineState db b ports (phaseIndex op + 1) (opPhase op step st) := by
  have hfine := opPhase_fine hleft.orKeeps hstep h
  refine ⟨fun hout => ⟨?_, (hfine.success hout).good⟩, hfine.failure⟩
  exact (hfine.success hout).edit.next fun x p hp => gone_opPhase hleft hout hp

/-- Nothing is asked of the top of a document. -/
theorem calmAt_nil (cs : List Node) : CalmAt b ports k [] cs where
  id := by simp [IdCalm, isId]
  root := trivial
  ports _ _ := ⟨by simp [isPort], by simp [headOp, deletesEquiv], by simp [headOp], by simp⟩
  settled := by simp [Settled]

/-- The default merge. -/
theorem defaultMerge_fine {fuel : Nat} (env : Env) (hk : 2 ≤ k) (hdefop : b.defop ≠ .none)
    (h : CalmState db b ports k st) :
    FineState db b ports k (docLoop fuel (defaultMergeRound true (ovsBackend env)) st) := by
  have htop : ∀ {n rest} {st : EditState World}, st.edit = n :: rest →
      CalmState db b ports k st →
      Fine db b ports (editMerge true (ovsBackend env) n [] st.orig st.world).out
        (editMerge true (ovsBackend env) n [] st.orig st.world).orig
        (editMerge true (ovsBackend env) n [] st.orig st.world).world := by
    intro n rest st hedit h
    exact editMerge_fine env hk n [] _ _ h.good (h.edit.child (by simp [hedit])) (.inl hdefop)
      (fun _ _ _ => rfl)
  rw [docLoop]
  cases hrun : Loop.run (defaultMergeRound true (ovsBackend env)) fuel st with
  | none => exact h.fine
  | some r =>
    refine Loop.run_induct (CalmState db b ports k) (FineState db b ports k) ?_ ?_ h hrun
    · intro st st' h hround
      simp only [defaultMergeRound] at hround
      split at hround
      · simp at hround
      · next n rest hedit =>
          have hfine := htop hedit h
          have hcalm := h.edit
          rw [hedit] at hcalm
          split at hround
          · next hout =>
              cases hround
              refine ⟨?_, hfine.success hout⟩
              rcases unlinksOrKeeps_merge true (ovsBackend env) n [] st.orig st.world hout
                with hnone | hsome
              · simp only [hnone, Option.toList_none, List.nil_append]
                exact hcalm.of_subset (fun d hd => by simp [hd]) (calmAt_nil rest)
              · simp only [hsome, Option.toList_some]
                exact hcalm
          · simp at hround
    · intro st r h hround
      simp only [defaultMergeRound] at hround
      split at hround
      · cases hround
        exact h.fine
      · next n rest hedit =>
          have hfine := htop hedit h
          split at hround
          · simp at hround
          · next hne =>
              cases hround
              exact ⟨fun hs => absurd hs hne, hfine.failure⟩

/-- The state while a default replace creates new roots. -/
structure NewRoots (db : Db) (b : Baseline) (ports : Option (List PortRef))
    (st : EditState World) : Prop where
  edit : ∀ t ∈ st.edit, Creates b.csId ports t [] ∧ ¬ HasRoot b.orig t.label
  good : Good db b ports st.orig st.world

/-- One round creates the root, or leaves a part of it for the next round. -/
theorem NewRoots.round {n : Node} {rest : List Node} (h : NewRoots db b ports st)
    (hedit : st.edit = n :: rest) (env : Env) :
    NewRoots db b ports
      ⟨(editReplace true (ovsBackend env) n [] st.orig st.world).orig,
        (editReplace true (ovsBackend env) n [] st.orig st.world).left.toList ++ rest,
        (editReplace true (ovsBackend env) n [] st.orig st.world).world⟩ := by
  obtain ⟨hcreates, hnew⟩ := h.edit n (by simp [hedit])
  have hf : findElementEquiv st.orig (Rose.chain n []) = none := by
    cases hf : findElementEquiv st.orig (Rose.chain n []) with
    | none => rfl
    | some f => exact absurd (h.good.root _ (hasRoot_of_find hf)) hnew
  have hrep : editReplace true (ovsBackend env) n [] st.orig st.world =
      editCreate true (ovsBackend env) n [] st.orig st.world := by
    simp only [editReplace, hf]
  rw [hrep]
  refine ⟨?_, ⟨h.good.running, h.good.root, h.good.id, h.good.known,
    editCreateRunning_kept hcreates h.good.kept⟩⟩
  intro t ht
  rcases List.mem_append.mp ht with ht | ht
  · have hleft : (editCreateRunning (ovsBackend env) n [] st.world).left = some t := by
      simpa [editCreate] using ht
    refine ⟨hcreates.left hleft, ?_⟩
    have hlabel : t.label = dropOpAttr n.label := applyNode_left_label hleft
    rw [hlabel]
    rintro ⟨d, hd, hm⟩
    exact hnew ⟨d, hd, by rwa [labelMatches_dropOpAttr] at hm⟩
  · exact h.edit t (by simp [hedit, ht])

/-- A default replace that only creates. It ends with the edit document used up. -/
theorem defaultReplace_fine {fuel : Nat} (env : Env) (h : NewRoots db b ports st) :
    FineState db b ports 0 (docLoop fuel (defaultReplaceRound true (ovsBackend env)) st) := by
  rw [docLoop]
  cases hrun : Loop.run (defaultReplaceRound true (ovsBackend env)) fuel st with
  | none => exact ⟨by simp, by simp [Outcome.isFailure]⟩
  | some r =>
    refine Loop.run_induct (NewRoots db b ports) (FineState db b ports 0) ?_ ?_ h hrun
    · intro st st' h hround
      simp only [defaultReplaceRound] at hround
      split at hround
      · simp at hround
      · next n rest hedit =>
          have hnext := h.round hedit env
          split at hround
          · cases hround
            exact hnext
          · cases hround
            exact hnext
          · simp at hround
    · intro st r h hround
      simp only [defaultReplaceRound] at hround
      split at hround
      · next hedit =>
          cases hround
          refine ⟨fun _ => ⟨?_, h.good⟩, by simp [Outcome.isFailure]⟩
          rw [hedit]
          exact .intro (calmAt_nil []) (by simp)
      · next n rest hedit =>
          split at hround
          · simp at hround
          · simp at hround
          · next o hs hf =>
              cases hround
              refine ⟨fun hout => absurd hout hs, fun hfail => ?_⟩
              obtain ⟨e, he⟩ := (Outcome.isFailure_iff _).mp hfail
              exact absurd he (hf e)

theorem FineState.setOpFailed {r : Outcome × EditState World} (h : FineState db b ports k r) :
    FineState db b ports k (setOpFailed r.1, r.2) where
  success hs := h.success ((setOpFailed_eq_success _).mp hs)
  failure hf := h.failure (by rwa [isFailure_setOpFailed] at hf)

/-- `edit_operations`: a default replace of new roots, or the phases. Each phase uses
that the operations of the phases before it are gone. -/
theorem editOperations_fine (fuel : Nat) (env : Env)
    (hreplace : b.defop = .replace → NewRoots db b ports st)
    (hphases : b.defop ≠ .replace → CalmState db b ports 0 st) :
    FineState db b ports 4 (editOperations fuel true (ovsBackend env) b.defop st) := by
  have hfirst : FineState db b ports 0 (if b.defop = .replace then
      docLoop fuel (defaultReplaceRound true (ovsBackend env)) st else (.success, st)) := by
    split
    · next hdef => exact defaultReplace_fine env (hreplace hdef)
    · next hdef => exact (hphases hdef).fine
  have hdelete : ∀ st, CalmState db b ports 0 st →
      FineState db b ports 1 (opPhase .delete (editDeleteOp fuel true (ovsBackend env)) st) := by
    refine fun st h => opPhase_next .delete (fun n ctx D s hout => editDeleteOp_left hout) ?_ h
    intro n ctx D w h hn he hop
    exact editDeleteOp_fine h hn he hop env
  have hremove : ∀ st, CalmState db b ports 1 st →
      FineState db b ports 2 (opPhase .remove (editRemove fuel true (ovsBackend env)) st) := by
    refine fun st h => opPhase_next .remove (fun n ctx D s hout => editRemove_left hout) ?_ h
    intro n ctx D w h hn he hop
    exact editRemove_fine h hn he (.inr hop) env
  have hreplaceOp : ∀ st, CalmState db b ports 2 st →
      FineState db b ports 3 (opPhase .replace (editReplace true (ovsBackend env)) st) := by
    refine fun st h => opPhase_next .replace (fun n ctx D s hout => editReplace_left hout) ?_ h
    intro n ctx D w h hn _ hop
    exact editReplaceOp_fine h hn (by decide) hop env
  have hcreate : ∀ st, CalmState db b ports 3 st →
      FineState db b ports 4 (opPhase .create (editCreate true (ovsBackend env)) st) := by
    refine fun st h => opPhase_next .create (fun n ctx D s hout => editCreate_left hout) ?_ h
    intro n ctx D w h hn _ hop
    exact editCreateOp_fine h hn (by decide) hop env
  have hmerge : ∀ st, CalmState db b ports 4 st →
      FineState db b ports 4 (opPhase .merge (editMerge true (ovsBackend env)) st) := by
    refine fun st h => opPhase_fine (unlinksOrKeeps_merge true (ovsBackend env)) ?_ h
    intro n ctx D w h hn _ hop
    refine editMerge_fine env (by decide) n ctx D w h hn
      (.inr ⟨n.label, by simp [Rose.path], by simp [hop]⟩) ?_
    -- an element with an operation is not at or below the name of a port
    intro ps hps hne
    rw [← Bool.not_eq_true]
    intro hbelow
    have hunset : getOperation n.label = .unset := (hn.here.ports ps hps).named hne hbelow
    simp [hop] at hunset
  refine FineState.setOpFailed (FineState.andThen (hfirst.andThen hdelete |>.andThen hremove
    |>.andThen hreplaceOp |>.andThen hcreate |>.andThen hmerge) ?_)
  intro st h
  split
  · next hdefault =>
      refine defaultMerge_fine env (by decide) ?_ h
      intro hnone
      simp [hnone] at hdefault
  · exact h.fine

/-! ### Requests -/

/-- A request on the running datastore. -/
inductive RunningRequest where
  | edit (config : String) (defop : DefOp)
  | copy (source : Datastore) (config : Option String)

/-- The call of libnetconf. -/
def RunningRequest.call : RunningRequest → Call
  | .edit config defop => .editconfig .running config defop
  | .copy source config => .copyconfig .running source config

/-- No port of the document has a setting in its `configuration`, so `of_post_ports`
makes no call. -/
def NoSettings (cfg : Doc) : Prop :=
  ∀ root ∈ rootElement cfg, ∀ port ∈ portsWithConfiguration root,
    ∀ conf ∈ go2node port.children "configuration", conf.children = []

/-- A default replace that stays inside the transaction: everything in the edit
document is created, so its roots have to be new, its ids the one that is set, and
without ports unless there are no settings. -/
structure CalmReplace (b : Baseline) (cfg edit : Doc) : Prop where
  new : ∀ t ∈ edit, ¬ HasRoot b.orig t.label
  ids : Rose.Families (SetsId b.csId) [] edit
  ports : NoSettings cfg ∨ Rose.Families PortFree [] edit

/-- The same for an edit with another default operation. -/
structure CalmPhases (b : Baseline) (cfg edit : Doc) : Prop where
  ids : Rose.Families (IdCalm b) [] edit
  root : Rose.Families (RootCalm b) [] edit
  ports : NoSettings cfg ∨ OldPorts b edit

/-- An accepted edit that stays inside the transaction. The conditions are on the
edit document as `edit_operations` gets it, and on the running configuration. -/
structure CalmConfig (setup : Setup) (b : Baseline) (cfg : Doc) : Prop where
  running : CalmRunning b.orig
  edit : ∀ edit, compactEditOperations setup.noneCast b.defop cfg = some edit →
    if b.defop = .replace then CalmReplace b cfg edit else CalmPhases b cfg edit

/-- A root that `ofcds_copyconfig` only creates, without another id. -/
structure CalmCopy (csId : Option String) (dst : Doc) (n : Node) : Prop where
  new : findElementEquiv dst [n] = none
  ids : getKey (some n) "id" = none ∨ Rose.Families (SetsId csId) [n.label] n.children

/-- The requests that reach nothing outside the transaction, or that are refused
before there is one. A copy without a root deletes the first node of the running
configuration, and that is calm if it is not an element. -/
def RunningRequest.Calm (setup : Setup) (env : Env) (srv : Server World) : RunningRequest → Prop
  | .edit config defop =>
    ∀ cfg aux, (setup.read config).filter validConfigRoot = some cfg →
      ofcGetConfigData env srv.world = some aux →
      checkRequest setup (effectiveDefop defop) (setup.read aux) cfg = .success →
      CalmConfig setup
        ⟨srv.world.csId, effectiveDefop defop, (setup.read aux).getD []⟩ cfg
  | .copy source config =>
    ∀ src aux, copySource setup (ovsBackend env) source config srv = .ok src →
      ofcGetConfigData env srv.world = some aux →
      match src.bind rootElement with
      | some n => CalmCopy srv.world.csId ((setup.read aux).getD []) n
      | none => ∃ t, ((setup.read aux).getD []).head? = some t ∧ t.label.isElement = false

theorem Same.abort (h : Same db csId w) : Same db csId (txnAbort w) := by
  rw [txnAbort]
  split
  · exact h
  · exact h

/-- A commit that fails has stored nothing. -/
theorem commit_same (env : Env) (h : Same db csId w)
    (hfail : ((ovsBackend env).txnCommit w).1.outcome.isFailure = true) :
    Same db csId ((ovsBackend env).txnCommit w).2 := by
  rcases txnCommit_cases env w with ⟨-, heq⟩ | ⟨base, db', -, heq⟩ | ⟨base, msg, -, heq⟩
  · simp [heq, Reply.outcome] at hfail
  · simp [heq, Reply.outcome] at hfail
  · rw [heq]
    exact h.abort

/-- A commit that is granted does not touch `added_interface`. -/
theorem commit_added (env : Env) {w' : World}
    (h : (ovsBackend env).txnCommit w = (.success, w')) : w.addedInterface = w'.addedInterface := by
  rcases txnCommit_cases env w with ⟨-, heq⟩ | ⟨base, db', -, heq⟩ | ⟨base, msg, -, heq⟩
  · simp [heq] at h
  · rw [heq] at h
    cases h
    rfl
  · simp [heq] at h

/-- `of_post_ports` succeeds when no interface was added. -/
theorem ofPostPorts_quiet {cfg : Option Node} (env : Env) (h : w.addedInterface = false) :
    ((ovsBackend env).postPorts cfg w).1 = .success := by
  have hrun : (ofPostPorts env cfg w.toWork).1 = .ok () := by
    have hadded : w.toWork.addedInterface = false := h
    cases cfg with
    | none => rfl
    | some root => simp [ofPostPorts, Prog.bind_run, Prog.read_run, hadded]
  simp only [ovsBackend, Txn.global, hrun, Global.reply]

/-- `of_post_ports` succeeds when there is nothing to set. -/
theorem ofPostPorts_none (h : NoSettings cfg) (env : Env) (w : World) :
    ((ovsBackend env).postPorts (rootElement cfg) w).1 = .success := by
  have hrun : (ofPostPorts env (rootElement cfg) w.toWork).1 = .ok () := by
    cases hroot : rootElement cfg with
    | none => rfl
    | some root =>
      simp only [ofPostPorts, Prog.bind_run, Prog.read_run]
      split
      · rfl
      · refine congrArg Prod.fst (Prog.forEach_done fun port hport => ?_)
        cases hconf : go2node port.children "configuration" with
        | none => simp only [Prog.pure_run]
        | some conf =>
          simp only [h root hroot port hport conf hconf, Prog.forEach, Prog.ret_run]
  simp only [ovsBackend, Txn.global, hrun, Global.reply]

/-- What the edit starts with: a list of ports that are known, or no settings. -/
theorem CalmConfig.start {setup : Setup} {edit : Doc} (h : CalmConfig setup b cfg)
    (hedit : compactEditOperations setup.noneCast b.defop cfg = some edit) (hw : Same db b.csId w)
    (env : Env) :
    ∃ ports,
      (b.defop = .replace → NewRoots db b ports ⟨b.orig, edit, (ovsBackend env).txnInit w⟩) ∧
      (b.defop ≠ .replace → CalmState db b ports 0 ⟨b.orig, edit, (ovsBackend env).txnInit w⟩) ∧
      (ports = none → NoSettings cfg) := by
  have hgood : ∀ ports, (∀ ps, ports = some ps → ∀ q ∈ ps, hasPort b.orig q = true) →
      Good db b ports b.orig ((ovsBackend env).txnInit w) := fun ports hknown =>
    ⟨h.running, fun _ hs => hs, fun _ _ hi => hi, hknown, hw, fun _ => rfl⟩
  have hsettled : ∀ p, Settled 0 p := fun _ _ _ _ _ => Nat.zero_le _
  have hcalm := h.edit edit hedit
  by_cases hdef : b.defop = .replace
  · rw [if_pos hdef] at hcalm
    have hids : ∀ t ∈ edit, Rose.Families (SetsId b.csId) (Rose.path t []) t.children :=
      fun t ht => hcalm.ids.child ht
    rcases hcalm.ports with hnone | hfree
    · refine ⟨none, fun _ => ⟨fun t ht => ⟨⟨hids t ht, fun hne => absurd rfl hne⟩,
        hcalm.new t ht⟩, hgood none (by simp)⟩, fun hne => absurd hdef hne, fun _ => hnone⟩
    · refine ⟨some [], fun _ => ⟨fun t ht => ⟨⟨hids t ht, fun _ => hfree.child ht⟩,
        hcalm.new t ht⟩, hgood _ ?_⟩, fun hne => absurd hdef hne, by simp⟩
      rintro ps ⟨⟩
      simp
  · rw [if_neg hdef] at hcalm
    rcases hcalm.ports with hnone | hold
    · refine ⟨none, fun he => absurd he hdef, fun _ => ⟨?_, hgood none (by simp)⟩, fun _ => hnone⟩
      exact (hcalm.ids.and hcalm.root).mono fun p cs hp => ⟨hp.1, hp.2, by simp, hsettled p⟩
    · refine ⟨some (requestedPorts b.defop edit), fun he => absurd he hdef,
        fun _ => ⟨((hcalm.ids.and hcalm.root).and hold.calm).mono ?_, hgood _ ?_⟩, by simp⟩
      · rintro p cs ⟨hp, hport⟩
        refine ⟨hp.1, hp.2, ?_, hsettled p⟩
        rintro ps ⟨⟩
        exact hport
      · rintro ps ⟨⟩
        exact hold.known

/-- An accepted edit of the running configuration. -/
theorem editRunning_same {setup : Setup} {defop : DefOp} {cfgds : Option Doc} (env : Env)
    (h : Same db csId w)
    (hcalm : checkRequest setup defop cfgds cfg = .success →
      CalmConfig setup ⟨csId, defop, cfgds.getD []⟩ cfg)
    (hfail : (editRunning setup (ovsBackend env) defop cfgds cfg w).1.isFailure = true) :
    Same db csId (editRunning setup (ovsBackend env) defop cfgds cfg w).2 := by
  rw [editRunning] at hfail ⊢
  cases hcheck : checkRequest setup defop cfgds cfg with
  | success =>
    have hcfg := hcalm hcheck
    simp only [hcheck] at hfail ⊢
    cases hedit : compactEditOperations setup.noneCast defop cfg with
    | none => simp [hedit] at hfail
    | some edit =>
      simp only [hedit] at hfail ⊢
      obtain ⟨ports, hreplace, hphases, hnone⟩ := hcfg.start hedit h env
      have hfine := editOperations_fine setup.fuel env hreplace hphases
      cases hout : (editOperations setup.fuel true (ovsBackend env) defop
          ⟨cfgds.getD [], edit, (ovsBackend env).txnInit w⟩).1 with
      | success =>
        have hkept := (hfine.success hout).good.kept
        simp only [hout] at hfail ⊢
        have hcommit := commit_same env hkept.same
        split at hfail
        · next w' hc =>
            -- the commit was granted: `of_post_ports` does not fail
            exfalso
            have hpost : ((ovsBackend env).postPorts (rootElement cfg) w').1 = .success := by
              cases hports : ports with
              | none => exact ofPostPorts_none (hnone hports) env w'
              | some ps =>
                have hadded := hkept.added (by simp [hports])
                refine ofPostPorts_quiet env ?_
                rwa [← commit_added env hc]
            simp [hpost, Reply.outcome] at hfail
        · next c w' hne hc =>
            rw [hc] at hcommit
            exact hcommit hfail
      | failure e =>
        simp only
        exact (hfine.failure (by rw [hout]; rfl)).same.abort
      | crash => simp [hout] at hfail
      | timeout => simp [hout] at hfail
  | failure e =>
    simp only
    exact h.abort
  | crash => simp [hcheck] at hfail
  | timeout => simp [hcheck] at hfail

/-- The creation of a root without an id fails at once. -/
theorem editCreateRunning_noId (he : n.label.isElement = true)
    (hid : getKey (some n) "id" = none) (env : Env) (w : World) :
    (editCreateRunning (ovsBackend env) n [] w).world = w := by
  cases n with
  | node l cs =>
    have hkey : getKey (some (.node (dropOpAttr l) cs)) "id" = none := hid
    have hl : l.isElement = true := he
    simp [editCreateRunning, applyNode, hl, createAction, hkey]

/-- What is left to do once the replacement has kept the database and the id. -/
theorem finishCopy_same (env : Env) {r : Outcome × World} (h : Same db csId r.2)
    (hfail : (match r.1 with
      | .success => let c := (ovsBackend env).txnCommit r.2; (c.1.outcome, c.2)
      | .failure e => (.failure e, (ovsBackend env).txnAbort r.2)
      | o => (o, r.2)).1.isFailure = true) :
    Same db csId (match r.1 with
      | .success => let c := (ovsBackend env).txnCommit r.2; (c.1.outcome, c.2)
      | .failure e => (.failure e, (ovsBackend env).txnAbort r.2)
      | o => (o, r.2)).2 := by
  split at hfail
  · exact commit_same env h hfail
  · exact h.abort
  · exact h

/-- A copy that creates the root. -/
theorem copyRunning_same {dst : Doc} (env : Env) (h : Same db csId w)
    (he : n.label.isElement = true) (hcalm : CalmCopy csId dst n)
    (hfail : (copyRunning (ovsBackend env) dst (some n) w).1.isFailure = true) :
    Same db csId (copyRunning (ovsBackend env) dst (some n) w).2 := by
  have hrep : editReplace true (ovsBackend env) n [] dst ((ovsBackend env).txnInit w) =
      editCreate true (ovsBackend env) n [] dst ((ovsBackend env).txnInit w) := by
    simp only [editReplace, Rose.chain_eq, Rose.ancestors_nil, hcalm.new]
  have hsame : Same db csId
      (editReplace true (ovsBackend env) n [] dst ((ovsBackend env).txnInit w)).world := by
    rw [hrep]
    rcases hcalm.ids with hid | hids
    · simp only [editCreate, if_true, editCreateRunning_noId he hid]
      exact h
    · have hcreates : Creates csId none n [] := ⟨hids, fun hne => absurd rfl hne⟩
      have hkept : Kept db csId none
          (editCreateRunning (ovsBackend env) n [] ((ovsBackend env).txnInit w)).world :=
        editCreateRunning_kept hcreates ⟨h, fun hne => absurd rfl hne⟩
      exact hkept.same
  exact finishCopy_same env (r := (_, _)) hsame hfail

/-- A copy without a root, where the running configuration starts with a node that is
not an element. -/
theorem copyNothing_same {dst : Doc} {t : Node} (env : Env) (h : Same db csId w)
    (hdst : dst.head? = some t) (ht : t.label.isElement = false)
    (hfail : (copyRunning (ovsBackend env) dst none w).1.isFailure = true) :
    Same db csId (copyRunning (ovsBackend env) dst none w).2 := by
  have hempty : editReplaceEmpty (ovsBackend env) dst ((ovsBackend env).txnInit w) =
      (.success, (ovsBackend env).txnInit w) := by
    cases dst with
    | nil => cases hdst
    | cons d ds =>
      obtain rfl : d = t := by simpa using hdst
      cases d with
      | node l cs =>
        have hl : l.isElement = false := ht
        simp [editReplaceEmpty, editDeleteAt, Rose.focus?, Rose.focusIn, editDelete, applyNode,
          hl, Reply.outcome]
  have hsame : Same db csId
      (editReplaceEmpty (ovsBackend env) dst ((ovsBackend env).txnInit w)).2 := by
    rw [hempty]
    exact h
  exact finishCopy_same env hsame hfail

/-- A database with the bridge `br0` and its two ports. -/
def portsDb : Db where
  openVswitch := [⟨0, false, true, { bridges := [1] }⟩]
  bridge := [⟨1, false, true, { name := some "br0", ports := [2, 4] }⟩]
  port := [⟨2, false, true, { name := some "p1", interfaces := [3] }⟩,
    ⟨4, false, true, { name := some "p2", interfaces := [5] }⟩]
  interface := [⟨3, false, true, { name := some "p1" }⟩, ⟨5, false, true, { name := some "p2" }⟩]

def portsServer : Server World :=
  ofcdsInit none { idl := portsDb, stored := portsDb, csId := some "cs0" }

/-- The running configuration of this database. -/
def portsRunning : Doc :=
  let e := fun name cs => elem name (some ofcNs) cs
  [e "capable-switch" [e "id" [txt "cs0"],
    e "resources" [e "port" [e "name" [txt "p1"]], e "port" [e "name" [txt "p2"]]],
    e "logical-switches" [e "switch" [e "id" [txt "br0"],
      e "resources" [e "port" [txt "p1"], e "port" [txt "p2"]]]]]]

/-- The port `p1` gets a number and a setting, and `p2` is deleted. -/
def portSettings : Doc :=
  let e := fun name cs => elem name (some ofcNs) cs
  [e "capable-switch" [e "id" [txt "cs0"],
    e "resources" [
      e "port" [e "name" [txt "p1"], e "requested-number" [txt "7"],
        e "configuration" [e "no-receive" [txt "true"]]],
      .node (.element "port" (some ofcNs) [⟨some ncNsBase10, "operation", "delete"⟩])
        [e "name" [txt "p2"]]]]]

/-- A database that refuses every commit. -/
def refusingEnv : Env := { grantingEnv with commit := fun _ => .error "refused" }

def portsSetup : Setup := .ofDocs [portSettings, portsRunning]

def settingsRequest : RunningRequest := .edit (xmlText portSettings) .merge

/-- A server whose OVSDB holds one row, with a running configuration that
is an id only. -/
def idServer : Server World :=
  ofcdsInit none { idl := { openVswitch := [⟨0, false, true, {}⟩] }
                   stored := { openVswitch := [⟨0, false, true, {}⟩] }
                   csId := some "cs0" }

def idRunning : Doc :=
  [elem "capable-switch" (some ofcNs) [elem "id" (some ofcNs) [txt "cs0"]]]

/-- A configuration with a queue that has no id. -/
def queueWithoutId : Doc :=
  let e := fun name cs => elem name (some ofcNs) cs
  [e "capable-switch" [e "resources" [e "queue" [e "resource-id" [txt "q"]]],
    e "id" [txt "cs0"]]]

end OfConfig.Proofs
