import OfConfig.Datastore

/-!
# `OfConfig.Proofs.Rollback`: what `ofcds_rollback` restores

`ofcds_rollback` prints the rollback copy, parses the text and copies
the result into the datastore the copy belongs to. An absent document is
printed as the empty text, which copy-config takes for an absent
source. A document without a root element is not absent: its text is
not empty, and no parser accepts it.

* `exec_change_rollback`: every successful change of a local datastore
  leaves the old document as the rollback copy.
* `ofcdsRollback_local`: the result of a rollback in terms of
  `restored`, the document that comes back from print and parse.
* `rollback_undoes_iff`: in every run, a rollback right after a
  successful change of a local datastore undoes it if and only if the
  datastore was absent or had a root element before the change.
-/

set_option autoImplicit false

namespace OfConfig.Proofs

open OfConfig.Lib OfConfig.Xml OfConfig.Edit

variable {σ γ : Type}
variable {content : Doc → γ} {doc : Option Doc} {env : Setup} {srv : Server σ} {t : Datastore}

/-- What is assumed of libxml2's printer and parser. `content` is the
element content of a document, whatever of it print and parse keep. -/
structure XmlLaws (env : Setup) (content : Doc → γ) : Prop where
  /-- a printed document has at least its XML declaration -/
  dump_ne_empty : ∀ d, env.dump d ≠ ""
  /-- a document with a root element comes back with its content -/
  read_dump : ∀ d, (rootElement d).isSome = true →
    ∃ d', env.read (env.dump d) = some d' ∧ content d' = content d
  /-- a text without a root element is not well-formed -/
  read_dump_rootless : ∀ d, rootElement d = none → env.read (env.dump d) = none

/-- The call changes a local datastore: the first three functions of the
datastore interface. -/
def changeTarget : Call → Option Datastore
  | .editconfig t _ _ => some t
  | .copyconfig t _ _ => some t
  | .deleteconfig t => some t
  | _ => none

/-! ### The rollback copy -/

/-- Replace the document of a local datastore. -/
def setGds (srv : Server σ) (t : Datastore) (doc : Option Doc) : Server σ :=
  match t with
  | .startup => { srv with gdsStartup := doc }
  | .candidate => { srv with gdsCand := doc }
  | _ => srv

@[simp] theorem gds_setGds (ht : t.isLocal = true) : (setGds srv t doc).gds t = doc := by
  cases t <;> simp_all [setGds, Server.gds, Datastore.isLocal]

@[simp] theorem gds_setGds_other (ht : t.isLocal = true) :
    (setGds srv t doc).gds t.other = srv.gds t.other := by
  cases t <;> simp_all [setGds, Server.gds, Datastore.isLocal, Datastore.other]

@[simp] theorem rollback_setGds (srv : Server σ) (t : Datastore) (doc : Option Doc) :
    (setGds srv t doc).rollback = srv.rollback := by
  cases t <;> rfl

@[simp] theorem rollbacking_setGds (srv : Server σ) (t : Datastore) (doc : Option Doc) :
    (setGds srv t doc).rollbacking = srv.rollbacking := by
  cases t <;> rfl

theorem setGds_setGds (srv : Server σ) (t : Datastore) (d d' : Option Doc) :
    setGds (setGds srv t d) t d' = setGds srv t d' := by
  cases t <;> rfl

/-- A successful change of a local datastore replaces its document and
keeps the old one for the rollback; besides, the backend may have been
read. -/
theorem exec_change_rollback (env : Setup) (B : Backend σ) {c : Call} {srv' : Server σ}
    (hc : changeTarget c = some t) (ht : t.isLocal = true) (hrb : srv.rollbacking = false)
    (hx : c.exec env B srv = (.success, srv')) :
    ∃ doc w, srv' = setGds (storeRollback (srv.gds t) t { srv with world := w }) t doc := by
  cases c with
  | lock t' sid => simp [changeTarget] at hc
  | unlock t' sid => simp [changeTarget] at hc
  | rollback => simp [changeTarget] at hc
  | editconfig t' config defop =>
    obtain rfl : t' = t := by simpa [changeTarget] using hc
    simp only [Call.exec, ofcdsEditconfig] at hx
    split at hx
    · simp at hx
    · cases t' <;> simp [Datastore.isLocal] at ht
      · exact ⟨_, srv.world, (congrArg Prod.snd hx).symm⟩
      · exact ⟨_, srv.world, (congrArg Prod.snd hx).symm⟩
  | copyconfig t' source config =>
    obtain rfl : t' = t := by simpa [changeTarget] using hc
    simp only [Call.exec, ofcdsCopyconfig] at hx
    split at hx
    · exact absurd (congrArg Prod.fst hx) (NoSource.outcome_ne_success _)
    · cases t' <;> simp [Datastore.isLocal] at ht
      · exact ⟨_, _, by simpa [keepRollback, hrb, setGds, Server.gds, storeRollback] using
          (congrArg Prod.snd hx).symm⟩
      · exact ⟨_, _, by simpa [keepRollback, hrb, setGds, Server.gds, storeRollback] using
          (congrArg Prod.snd hx).symm⟩
  | deleteconfig t' =>
    obtain rfl : t' = t := by simpa [changeTarget] using hc
    simp only [Call.exec, ofcdsDeleteconfig] at hx
    cases t' <;> simp [Datastore.isLocal] at ht
    · exact ⟨none, srv.world, (congrArg Prod.snd hx).symm⟩
    · exact ⟨none, srv.world, (congrArg Prod.snd hx).symm⟩

/-- No call leaves the server in the middle of a rollback. -/
theorem exec_rollbacking (env : Setup) (B : Backend σ) (c : Call) (h : srv.rollbacking = false) :
    (c.exec env B srv).2.rollbacking = false := by
  cases c with
  | lock t sid =>
    simp only [Call.exec, ofcdsLock]
    repeat' split
    all_goals exact h
  | unlock t sid =>
    simp only [Call.exec, ofcdsUnlock]
    repeat' split
    all_goals exact h
  | editconfig t config defop =>
    simp only [Call.exec, ofcdsEditconfig]
    repeat' split
    all_goals exact h
  | copyconfig t source config =>
    simp only [Call.exec, ofcdsCopyconfig]
    repeat' split
    all_goals simp [keepRollback, storeRollback, h]
  | deleteconfig t =>
    simp only [Call.exec, ofcdsDeleteconfig]
    split <;> exact h
  | rollback =>
    simp only [Call.exec, ofcdsRollback]
    split
    · exact h
    · rfl

/-- The run version of `exec_rollbacking`. -/
theorem runCalls_rollbacking (env : Setup) (B : Backend σ) (cs : List Call)
    (h : srv.rollbacking = false) : (runCalls env B cs srv).rollbacking = false := by
  induction cs generalizing srv with
  | nil => exact h
  | cons c cs ih => exact ih (exec_rollbacking env B c h)

/-! ### The rollback itself -/

/-- What print and parse make of the rollback copy: `none` when the text
does not parse. -/
def restored (env : Setup) : Option Doc → Option (Option Doc)
  | none => some none
  | some d => (env.read (env.dump d)).map some

/-- Copy-config takes the text of the rollback copy for what `restored`
gives. -/
theorem copySource_dumpLocal (hl : XmlLaws env content) (B : Backend σ) (doc : Option Doc)
    (srv : Server σ) :
    copySource env B .config (some (dumpLocal env doc)) srv =
      match restored env doc with
      | some d => .ok d
      | none => .error (.failure (some (badElem "config"))) := by
  cases doc with
  | none => rfl
  | some d =>
    have hne : dumpLocal env (some d) ≠ "" := hl.dump_ne_empty d
    simp only [copySource, if_neg hne, restored]
    simp only [dumpLocal]
    cases env.read (env.dump d) <;> rfl

/-- A rollback of a local datastore stores what `restored` gives, and
fails without a change where that is nothing. -/
theorem ofcdsRollback_local (hl : XmlLaws env content) (B : Backend σ) (ht : t.isLocal = true)
    (hrb : srv.rollbacking = false) (hr : srv.rollback = ⟨doc, t⟩) :
    ofcdsRollback env B srv =
      match restored env doc with
      | some d => (.success, setGds srv t d)
      | none => (.failure none, srv) := by
  have hne : t ≠ .error := by rintro rfl; simp [Datastore.isLocal] at ht
  -- the flag is set during the copy and was clear before
  have hback : { srv with rollbacking := false } = srv := by rw [← hrb]
  simp only [ofcdsRollback, hr, if_neg hne, ofcdsCopyconfig, copySource_dumpLocal hl,
    afterSource_config]
  cases restored env doc with
  | none => simp only [NoSource.outcome, dropError, ← hr, hback]
  | some d =>
    cases t <;> simp [Datastore.isLocal] at ht
    · simp [keepRollback, dropError, setGds, ← hrb, ← hr]
    · simp [keepRollback, dropError, setGds, ← hrb, ← hr]

/-- What a rollback after the change from `before` to `after` of the
datastore `t` has to do: succeed, give the datastore the element content
it had, leave the other local datastore alone, and do nothing more when
it is called again. -/
structure RollbackUndoes (env : Setup) (B : Backend σ) (content : Doc → γ) (t : Datastore)
    (before after : Server σ) : Prop where
  succeeds : (ofcdsRollback env B after).1 = .success
  restores : ((ofcdsRollback env B after).2.gds t).map content = (before.gds t).map content
  other : (ofcdsRollback env B after).2.gds t.other = after.gds t.other
  again : (ofcdsRollback env B (ofcdsRollback env B after).2).2 = (ofcdsRollback env B after).2

/-- The datastore is absent or has a root element. -/
def AbsentOrRooted (doc : Option Doc) : Prop :=
  ∀ d, doc = some d → (rootElement d).isSome = true

/-- A rollback copy that is absent or has a root element comes back with
its content. -/
theorem restored_of_absentOrRooted (hl : XmlLaws env content) (h : AbsentOrRooted doc) :
    ∃ d, restored env doc = some d ∧ d.map content = doc.map content := by
  cases doc with
  | none => exact ⟨none, rfl, rfl⟩
  | some d =>
    obtain ⟨d', hread, hcontent⟩ := hl.read_dump d (h d rfl)
    exact ⟨some d', by simp [restored, hread], by simp [hcontent]⟩

/-- A rollback copy that comes back is absent or has a root element. -/
theorem absentOrRooted_of_restored (hl : XmlLaws env content) {d : Option Doc}
    (h : restored env doc = some d) : AbsentOrRooted doc := by
  rintro d₀ rfl
  by_contra hroot
  rw [Bool.not_eq_true, Option.isSome_eq_false_iff, Option.isNone_iff_eq_none] at hroot
  simp [restored, hl.read_dump_rootless d₀ hroot] at h

/-- In every run, a rollback right after a successful change of a local
datastore undoes it if and only if the datastore was absent or had a root
element before the change. -/
theorem rollback_undoes_iff {env : Setup} {content : Doc → γ} (hl : XmlLaws env content)
    (B : Backend σ) (startup : Option Doc) (world : σ) (calls : List Call) (c : Call)
    {t : Datastore} {srv' : Server σ} (ht : t.isLocal = true) (hc : changeTarget c = some t)
    (hx : c.exec env B (runCalls env B calls (ofcdsInit startup world)) = (.success, srv')) :
    RollbackUndoes env B content t (runCalls env B calls (ofcdsInit startup world)) srv' ↔
      AbsentOrRooted ((runCalls env B calls (ofcdsInit startup world)).gds t) := by
  have hrb : (runCalls env B calls (ofcdsInit startup world)).rollbacking = false :=
    runCalls_rollbacking env B calls rfl
  generalize runCalls env B calls (ofcdsInit startup world) = srv at *
  obtain ⟨doc, w, rfl⟩ := exec_change_rollback env B hc ht hrb hx
  have hr : (setGds (storeRollback (srv.gds t) t { srv with world := w }) t doc).rollback =
      ⟨srv.gds t, t⟩ := by
    simp [storeRollback]
  have hrb' : (setGds (storeRollback (srv.gds t) t { srv with world := w }) t doc).rollbacking =
      false := by
    simpa [storeRollback] using hrb
  have hroll := ofcdsRollback_local hl B ht hrb' hr
  constructor
  · intro h
    cases hres : restored env (srv.gds t) with
    | none =>
      have hs := h.succeeds
      simp [hroll, hres] at hs
    | some d => exact absentOrRooted_of_restored hl hres
  · intro h
    obtain ⟨d, hres, hcontent⟩ := restored_of_absentOrRooted hl h
    rw [hres] at hroll
    -- the second rollback starts from the same copy and stores the same document
    have hagain : ofcdsRollback env B
        (setGds (storeRollback (srv.gds t) t { srv with world := w }) t d) = _ :=
      ofcdsRollback_local hl B ht (by simpa using hrb') (by simpa using hr)
    rw [hres] at hagain
    refine ⟨by rw [hroll], by simp [hroll, ht, hcontent], by simp [hroll, ht], ?_⟩
    simp only [hroll, setGds_setGds, hagain]

/-! ### A run that cannot be rolled back -/

/-- A printer and a parser that keep the name of the root element. The
text `delete` is a request to delete the capable-switch. -/
def rootNameSetup : Setup where
  read s :=
    if s = "delete" then
      some [.node (.element "capable-switch" none [⟨some ncNsBase10, "operation", "delete"⟩]) []]
    else
      match s.toList with
      | '+' :: name => some [elem (String.ofList name) none []]
      | _ => none
  dump d :=
    match rootElement d with
    | none => "-"
    | some root => String.ofList ('+' :: root.label.name.toList)
  mode := .explicit
  noneCast := none
  fuel := 4

/-- The element content `rootNameSetup` keeps. -/
def rootName (d : Doc) : Option String :=
  (rootElement d).map (fun root => root.label.name)

theorem rootNameSetup_laws : XmlLaws rootNameSetup rootName where
  dump_ne_empty d := by
    show (match rootElement d with
      | none => "-"
      | some root => String.ofList ('+' :: root.label.name.toList)) ≠ ""
    cases rootElement d <;> simp
  read_dump d hd := by
    obtain ⟨root, hroot⟩ := Option.isSome_iff_exists.mp hd
    have hne : String.ofList ('+' :: root.label.name.toList) ≠ "delete" := by
      intro h
      have h' := congrArg String.toList h
      simp at h'
    refine ⟨[elem root.label.name none []], ?_, by rw [rootName, rootName, hroot]; rfl⟩
    simp only [rootNameSetup, hroot, if_neg hne, String.toList_ofList, String.ofList_toList]
  read_dump_rootless d hd := by
    simp [rootNameSetup, hd]

/-- A backend without a state: the runs below do not touch the running
datastore. -/
def idleBackend : Backend Unit where
  exec _ s := (.success, s)
  delAll s := (.success, s)
  checkBridgeQueue _ _ _ := .linked
  getConfigData _ := (.text "", ())
  txnInit s := s
  txnAbort s := s
  txnCommit s := (.success, s)
  postPorts _ s := (.success, s)

/-- A request that fills the startup datastore. -/
def fillStartup : Call := .editconfig .startup "+capable-switch" .merge

/-- Fill the empty startup datastore, then undo it. -/
theorem rollback_undoes_first_edit :
    RollbackUndoes rootNameSetup idleBackend rootName .startup (ofcdsInit none ())
      (fillStartup.exec rootNameSetup idleBackend (ofcdsInit none ())).2 := by
  have hx : fillStartup.exec rootNameSetup idleBackend (ofcdsInit none ()) =
      (.success, (fillStartup.exec rootNameSetup idleBackend (ofcdsInit none ())).2) :=
    Prod.ext (by decide +kernel) rfl
  refine (rollback_undoes_iff rootNameSetup_laws idleBackend none () [] fillStartup rfl rfl
    hx).mpr ?_
  intro d hd
  simp [runCalls, ofcdsInit, Server.gds] at hd

/-- Fill the startup datastore and delete its root: the document stays,
without a root. Filling it again succeeds, and the rollback of that
fails. -/
theorem rollback_fails_after_rootless :
    let srv := runCalls rootNameSetup idleBackend
      [fillStartup, .editconfig .startup "delete" .merge] (ofcdsInit none ())
    srv.gds .startup = some [] ∧
    (fillStartup.exec rootNameSetup idleBackend srv).1 = .success ∧
    (ofcdsRollback rootNameSetup idleBackend
      (fillStartup.exec rootNameSetup idleBackend srv).2).1 = .failure none := by
  decide +kernel

end OfConfig.Proofs
