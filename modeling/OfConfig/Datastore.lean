import OfConfig.Edit.Engine
import OfConfig.Xml.Text

/-!
# `OfConfig.Datastore`: the datastore functions of the server

`ofconfig-datastore.c`: the two local datastores with the rollback copy,
the locks, and the functions libnetconf calls. The running datastore is
the backend (`ovs-data.c`).

`Setup` holds what comes from outside: libxml2's parser and printer, the
with-defaults mode and the enumeration values of libnetconf, and how
many rounds the model gives to a loop of `edit_operations`. A function
takes the server state and returns it together with the outcome; the
state is returned after a failure too, because what a failed call leaves
behind is part of its behaviour.
-/

set_option autoImplicit false

namespace OfConfig

open OfConfig.Lib OfConfig.Xml OfConfig.Edit

/-- What the server takes from outside. -/
structure Setup where
  /-- `xmlReadMemory` with the options of the server -/
  read : String → Option Doc
  /-- `xmlDocDumpMemory` -/
  dump : Doc → String
  /-- `ncdflt_get_basic_mode` -/
  mode : WdMode
  /-- the operation with the number of `NC_EDIT_DEFOP_NONE` -/
  noneCast : Option EditOp
  /-- the rounds for each loop of `edit_operations` -/
  fuel : Nat

/-- A setup whose parser accepts the XML texts of some documents and nothing else. The
numbers of the enumerations are those of libnetconf, where `NC_EDIT_DEFOP_NONE` and
`NC_EDIT_OP_CREATE` are both 3. -/
def Setup.ofDocs (docs : List Doc) : Setup where
  read s := docs.find? (fun d => xmlText d = s)
  dump := xmlText
  mode := .explicit
  noneCast := some .create
  fuel := 20

/-- The text of the first document is read back as that document. -/
theorem Setup.read_ofDocs (d : Doc) (docs : List Doc) :
    (Setup.ofDocs (d :: docs)).read (xmlText d) = some d := by
  simp [Setup.ofDocs]

/-- `struct rollback_s` -/
structure Rollback where
  doc : Option Doc
  type : Datastore

/-- The lock of one datastore: the session that holds it. -/
structure Locks where
  running : Option String
  startup : Option String
  cand : Option String

/-- The state of the server. -/
structure Server (σ : Type) where
  gdsStartup : Option Doc
  gdsCand : Option Doc
  rollback : Rollback
  rollbacking : Bool
  locks : Locks
  world : σ

variable {σ : Type}

/-- The state after `ofcds_init`: the startup datastore is what
`startup.xml` holds, if that has a root element. -/
def ofcdsInit (startup : Option Doc) (world : σ) : Server σ :=
  { gdsStartup := startup.filter (fun d => (rootElement d).isSome)
    gdsCand := none
    rollback := ⟨none, .error⟩
    rollbacking := false
    locks := ⟨none, none, none⟩
    world := world }

/-- `store_rollback` -/
def storeRollback (doc : Option Doc) (type : Datastore) (srv : Server σ) : Server σ :=
  { srv with rollback := ⟨doc, type⟩ }

/-- The error for a target, source or configuration that is not valid. -/
def badElem (name : String) : NcErr := { tag := .badElem, badElem := some name }

/-! ### Locks -/

/-- The lock of a datastore. -/
def Locks.get (l : Locks) : Datastore → Option String
  | .running => l.running
  | .startup => l.startup
  | .candidate => l.cand
  | _ => none

/-- Set the lock of a datastore. -/
def Locks.set (l : Locks) (target : Datastore) (sid : Option String) : Locks :=
  match target with
  | .running => { l with running := sid }
  | .startup => { l with startup := sid }
  | .candidate => { l with cand := sid }
  | _ => l

/-- Is the datastore one of the three that can be locked? -/
def Datastore.lockable : Datastore → Bool
  | .running | .startup | .candidate => true
  | _ => false

/-- `ofcds_lock` -/
def ofcdsLock (target : Datastore) (sid : String) (srv : Server σ) : Outcome × Server σ :=
  if !target.lockable then (.failure none, srv)
  else
    match srv.locks.get target with
    | some holder => (.failure (some { tag := .lockDenied, sid := some holder }), srv)
    | none => (.success, { srv with locks := srv.locks.set target (some sid) })

/-- `ofcds_unlock` -/
def ofcdsUnlock (target : Datastore) (sid : String) (srv : Server σ) : Outcome × Server σ :=
  if !target.lockable then (.failure none, srv)
  else
    match srv.locks.get target with
    | some holder =>
      if holder = sid then (.success, { srv with locks := srv.locks.set target none })
      else
        (.failure (some { tag := .lockDenied, sid := some holder,
                          msg := some "Target datastore is locked by another session." }), srv)
    | none =>
      (.failure (some { tag := .opFailed, msg := some "Target datastore is not locked." }), srv)

/-! ### Reading and deleting -/

/-- The text of a local datastore: empty when there is none. -/
def dumpLocal (env : Setup) : Option Doc → String
  | none => ""
  | some d => env.dump d

/-- `ofcds_getconfig`: the text, null on an error. -/
def ofcdsGetconfig (env : Setup) (B : Backend σ) (target : Datastore) (srv : Server σ) :
    (ConfigData × Option NcErr) × Server σ :=
  match target with
  | .running =>
    let r := B.getConfigData srv.world
    ((r.1, none), { srv with world := r.2 })
  | .startup => ((.text (dumpLocal env srv.gdsStartup), none), srv)
  | .candidate => ((.text (dumpLocal env srv.gdsCand), none), srv)
  | _ => ((.null, some (badElem "source")), srv)

/-- `ofcds_deleteconfig`: the document itself becomes the rollback copy. -/
def ofcdsDeleteconfig (target : Datastore) (srv : Server σ) : Outcome × Server σ :=
  match target with
  | .running =>
    (.failure (some { tag := .opFailed, msg := some "Cannot delete a running datastore." }), srv)
  | .startup =>
    (.success, { storeRollback srv.gdsStartup .startup srv with gdsStartup := none })
  | .candidate =>
    (.success, { storeRollback srv.gdsCand .candidate srv with gdsCand := none })
  | _ => (.failure (some (badElem "target")), srv)

/-! ### Editing -/

/-- Is a parsed document accepted as `<edit-config>` data? -/
def validConfigRoot (cfg : Doc) : Bool :=
  match rootElement cfg with
  | some root => root.label.name = "capable-switch"
  | none => true

/-- The checks before anything is edited: keys, deletes, creates. -/
def checkRequest (env : Setup) (defop : DefOp) (cfgds : Option Doc) (cfg : Doc) : Outcome :=
  match checkKeys cfg with
  | .success =>
    match checkEditOps .delete defop env.mode cfgds cfg with
    | .success => checkEditOps .create defop env.mode cfgds cfg
    | o => o
  | o => o

/-- The part of `ofcds_editconfig` for a local datastore, on its
document: the checks, the compaction and the operations. The document is
edited in place. A datastore that did not exist is stored only on
success, and only when the new document has a node. -/
def editLocal (env : Setup) (B : Backend σ) (defop : DefOp) (cfgds : Option Doc) (cfg : Doc)
    (world : σ) : Outcome × Option Doc :=
  match checkRequest env defop cfgds cfg with
  | .success =>
    match compactEditOperations env.noneCast defop cfg with
    | none => (.crash, cfgds)
    | some edit =>
      let r := editOperations env.fuel false B defop ⟨cfgds.getD [], edit, world⟩
      match cfgds with
      | some _ => (r.1, some r.2.orig)
      | none =>
        match r.1 with
        | .success => (r.1, if r.2.orig.isEmpty then none else some r.2.orig)
        | o => (o, none)
  | o => (o, cfgds)

/-- The part of `ofcds_editconfig` for the running datastore. A failure
on the way aborts the transaction; after the commit `of_post_ports`
works on the copy of the edit document made at the start. -/
def editRunning (env : Setup) (B : Backend σ) (defop : DefOp) (cfgds : Option Doc) (cfg : Doc)
    (world : σ) : Outcome × σ :=
  match checkRequest env defop cfgds cfg with
  | .success =>
    let opened := B.txnInit world
    match compactEditOperations env.noneCast defop cfg with
    | none => (.crash, opened)
    | some edit =>
      let r := editOperations env.fuel true B defop ⟨cfgds.getD [], edit, opened⟩
      match r.1 with
      | .success =>
        match B.txnCommit r.2.world with
        | (.success, w) =>
          let p := B.postPorts (rootElement cfg) w
          (p.1.outcome, p.2)
        | (c, w) => (c.outcome, w)
      | .failure e => (.failure e, B.txnAbort r.2.world)
      | o => (o, r.2.world)
  | .failure e => (.failure e, B.txnAbort world)
  | o => (o, world)

/-- `ofcds_editconfig` -/
def ofcdsEditconfig (env : Setup) (B : Backend σ) (target : Datastore) (config : String)
    (defop : DefOp) (srv : Server σ) : Outcome × Server σ :=
  let defop := if defop = .notset then .merge else defop
  match (env.read config).filter validConfigRoot with
  | none => (.failure (some (badElem "config")), srv)
  | some cfg =>
    match target with
    | .running =>
      match B.getConfigData srv.world with
      | (.crash, world) => (.crash, { srv with world := world })
      | (.null, world) =>
        (.failure (some { tag := .opFailed }), { srv with world := B.txnAbort world })
      | (.text aux, world) =>
        let cfgds := env.read aux
        let srv := storeRollback cfgds .running srv
        let r := editRunning env B defop cfgds cfg world
        (r.1, { srv with world := r.2 })
    | .startup =>
      let srv := storeRollback srv.gdsStartup .startup srv
      let r := editLocal env B defop srv.gdsStartup cfg srv.world
      (r.1, { srv with gdsStartup := r.2 })
    | .candidate =>
      let srv := storeRollback srv.gdsCand .candidate srv
      let r := editLocal env B defop srv.gdsCand cfg srv.world
      (r.1, { srv with gdsCand := r.2 })
    | _ => (.failure (some (badElem "target")), srv)

/-- A request for the startup datastore that could be read. -/
theorem ofcdsEditconfig_startup {env : Setup} {config : String} {cfg : Doc}
    (h : (env.read config).filter validConfigRoot = some cfg) (B : Backend σ) (defop : DefOp)
    (srv : Server σ) :
    ofcdsEditconfig env B .startup config defop srv =
      let r := editLocal env B (if defop = .notset then .merge else defop) srv.gdsStartup cfg
        srv.world
      (r.1, { storeRollback srv.gdsStartup .startup srv with gdsStartup := r.2 }) := by
  simp only [ofcdsEditconfig, h, storeRollback]

/-- A request for the running datastore that could be read, as could the data. -/
theorem ofcdsEditconfig_running {env : Setup} {B : Backend σ} {config aux : String} {cfg : Doc}
    {srv : Server σ} {world : σ} (h : (env.read config).filter validConfigRoot = some cfg)
    (haux : B.getConfigData srv.world = (.text aux, world)) (defop : DefOp) :
    ofcdsEditconfig env B .running config defop srv =
      let r := editRunning env B (if defop = .notset then .merge else defop) (env.read aux)
        cfg world
      (r.1, { storeRollback (env.read aux) .running srv with world := r.2 }) := by
  simp only [ofcdsEditconfig, h, haux]

/-! ### Copying -/

/-- Why `ofcds_copyconfig` ends without a source. -/
inductive NoSource where
  | failure (e : Option NcErr)
  | crash

/-- How the call ends. -/
def NoSource.outcome : NoSource → Outcome
  | .failure e => .failure e
  | .crash => .crash

/-- It does not end well. -/
theorem NoSource.outcome_ne_success (n : NoSource) : n.outcome ≠ .success := by
  cases n <;> nofun

/-- The source of `ofcds_copyconfig`: the document, which may be absent,
or why there is none. -/
def copySource (env : Setup) (B : Backend σ) (source : Datastore) (config : Option String)
    (srv : Server σ) : Except NoSource (Option Doc) :=
  match source with
  | .running =>
    match (B.getConfigData srv.world).1 with
    | .crash => .error .crash
    | .null => .error (.failure none)
    | .text s =>
      match env.read s with
      | none =>
        .error (.failure
          (some { tag := .opFailed, badElem := some "invalid running source data" }))
      | some d => .ok (some d)
  | .startup => .ok srv.gdsStartup
  | .candidate => .ok srv.gdsCand
  | .config =>
    match config with
    | none => .error (.failure (some (badElem "config")))
    | some c =>
      if c = "" then .ok none
      else
        match env.read c with
        | none => .error (.failure (some (badElem "config")))
        | some d => .ok (some d)
  | _ => .error (.failure (some (badElem "source")))

/-- The state after the source was read: reading the running configuration
brings the copy of the database up to date. -/
def afterSource (B : Backend σ) (source : Datastore) (srv : Server σ) : Server σ :=
  if source = .running then { srv with world := (B.getConfigData srv.world).2 } else srv

section

variable (B : Backend σ) (source : Datastore) (srv : Server σ)

@[simp] theorem afterSource_config : afterSource B .config srv = srv := rfl

@[simp] theorem gdsStartup_afterSource :
    (afterSource B source srv).gdsStartup = srv.gdsStartup := by
  unfold afterSource; split <;> rfl

@[simp] theorem gdsCand_afterSource : (afterSource B source srv).gdsCand = srv.gdsCand := by
  unfold afterSource; split <;> rfl

@[simp] theorem rollback_afterSource : (afterSource B source srv).rollback = srv.rollback := by
  unfold afterSource; split <;> rfl

@[simp] theorem rollbacking_afterSource :
    (afterSource B source srv).rollbacking = srv.rollbacking := by
  unfold afterSource; split <;> rfl

@[simp] theorem locks_afterSource : (afterSource B source srv).locks = srv.locks := by
  unfold afterSource; split <;> rfl

end

/-- Remember the old document for a rollback, unless one is going on. -/
def keepRollback (doc : Option Doc) (type : Datastore) (srv : Server σ) : Server σ :=
  if srv.rollbacking then srv else storeRollback doc type srv

/-- The transaction of `ofcds_copyconfig` on the running datastore. -/
def copyRunning (B : Backend σ) (dst : Doc) (root : Option Node) (world : σ) : Outcome × σ :=
  let opened := B.txnInit world
  let r : Outcome × σ :=
    match root with
    | none => editReplaceEmpty B dst opened
    | some n =>
      let e := editReplace true B n [] dst opened
      (e.out, e.world)
  match r.1 with
  | .success =>
    let c := B.txnCommit r.2
    (c.1.outcome, c.2)
  | .failure e => (.failure e, B.txnAbort r.2)
  | o => (o, r.2)

/-- `ofcds_copyconfig` -/
def ofcdsCopyconfig (env : Setup) (B : Backend σ) (target source : Datastore)
    (config : Option String) (srv : Server σ) : Outcome × Server σ :=
  match copySource env B source config srv with
  | .error n => (n.outcome, afterSource B source srv)
  | .ok src =>
    let srv := afterSource B source srv
    match target with
    | .running =>
      match B.getConfigData srv.world with
      | (.crash, world) => (.crash, { srv with world := world })
      | (.null, world) => (.failure none, { srv with world := world })
      | (.text s, world) =>
        let dst := (env.read s).getD []
        let srv := keepRollback (some dst) .running srv
        let r := copyRunning B dst (src.bind rootElement) world
        (r.1, { srv with world := r.2 })
    | .startup =>
      (.success, { keepRollback srv.gdsStartup .startup srv with gdsStartup := src })
    | .candidate =>
      (.success, { keepRollback srv.gdsCand .candidate srv with gdsCand := src })
    | _ => (.failure (some (badElem "source")), srv)

/-- The error structure is freed. -/
def dropError : Outcome → Outcome
  | .failure _ => .failure none
  | o => o

/-- `ofcds_rollback`: the rollback copy goes through print, parse and
copy-config. -/
def ofcdsRollback (env : Setup) (B : Backend σ) (srv : Server σ) : Outcome × Server σ :=
  if srv.rollback.type = .error then (.failure none, srv)
  else
    let data := dumpLocal env srv.rollback.doc
    let r := ofcdsCopyconfig env B srv.rollback.type .config (some data)
      { srv with rollbacking := true }
    (dropError r.1, { r.2 with rollbacking := false })

/-! ### Runs -/

/-- The calls of libnetconf. -/
inductive Call where
  | lock (target : Datastore) (sid : String)
  | unlock (target : Datastore) (sid : String)
  | editconfig (target : Datastore) (config : String) (defop : DefOp)
  | copyconfig (target source : Datastore) (config : Option String)
  | deleteconfig (target : Datastore)
  | rollback

/-- One call. -/
def Call.exec (env : Setup) (B : Backend σ) : Call → Server σ → Outcome × Server σ
  | .lock t sid, srv => ofcdsLock t sid srv
  | .unlock t sid, srv => ofcdsUnlock t sid srv
  | .editconfig t c d, srv => ofcdsEditconfig env B t c d srv
  | .copyconfig t s c, srv => ofcdsCopyconfig env B t s c srv
  | .deleteconfig t, srv => ofcdsDeleteconfig t srv
  | .rollback, srv => ofcdsRollback env B srv

/-- The state after a sequence of calls. -/
def runCalls (env : Setup) (B : Backend σ) : List Call → Server σ → Server σ
  | [], srv => srv
  | c :: cs, srv => runCalls env B cs (c.exec env B srv).2

/-- The document of a local datastore. -/
def Server.gds (srv : Server σ) : Datastore → Option Doc
  | .startup => srv.gdsStartup
  | .candidate => srv.gdsCand
  | _ => none

/-- The default operation that `ofcds_editconfig` works with. -/
def effectiveDefop (defop : DefOp) : DefOp := if defop = .notset then .merge else defop

/-- Is the datastore kept by the server itself? -/
def Datastore.isLocal : Datastore → Bool
  | .startup | .candidate => true
  | _ => false

/-- The other one of the two local datastores. -/
def Datastore.other : Datastore → Datastore
  | .startup => .candidate
  | .candidate => .startup
  | d => d

end OfConfig
