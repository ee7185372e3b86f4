import OfConfig.Proofs.Simulation
import OfConfig.Ovs.Backend

/-!
# `OfConfig.Proofs.Transactions`: one transaction at a time

The OVSDB library allows one open transaction, updates its copy of the
database only while none is open, and inserts rows only into an open one;
it ends the process when a caller breaks that. `watched` is `ovs-data.c`
with a log of such misuses. `one_transaction_at_a_time`: whatever the
calls of libnetconf are and however they end, the log stays empty, and a
call that returns has closed its transaction.
-/

set_option autoImplicit false

namespace OfConfig.Proofs

open OfConfig.Lib OfConfig.Xml OfConfig.Edit OfConfig.Ovs

/-! ### The watched backend -/

/-- What the OVSDB library does not allow. -/
inductive Misuse where
  /-- `ovsdb_idl_txn_create` with a transaction open -/
  | initWhileOpen
  /-- `ovsdb_idl_run` with a transaction open -/
  | updateWhileOpen
  /-- an insertion without an open transaction -/
  | insertWithoutTxn
deriving DecidableEq, Repr

/-- The state of `ovs-data.c` with the misuses so far. -/
structure Watched where
  world : World
  log : List Misuse

/-- The log after a call that must not find a transaction open. -/
def logOpen (m : Misuse) (w : World) (log : List Misuse) : List Misuse :=
  if w.txn.isSome then log ++ [m] else log

/-- Were rows inserted without a transaction? Every new row takes a fresh
identifier. -/
def insertedOutside (w w' : World) : Bool := w.txn.isNone && w'.next != w.next

/-- A call that may insert rows. A misuse ends the process. -/
def watchInserts (s : Watched) (r : Reply × World) : Reply × Watched :=
  if insertedOutside s.world r.2 then (.crash, ⟨r.2, s.log ++ [.insertWithoutTxn]⟩)
  else (r.1, ⟨r.2, s.log⟩)

/-- `txn_del_all`, whose `txn_init` comes after a commit. -/
def watchDelAll (env : Env) (s : Watched) : Reply × Watched :=
  let r := (ovsBackend env).delAll s.world
  match txnCommit env { s.world with idl := delRoots s.world.idl } with
  | (.ok _, between) =>
    if between.txn.isSome then (.crash, ⟨r.2, s.log ++ [.initWhileOpen]⟩) else (r.1, ⟨r.2, s.log⟩)
  | (.error _, _) => (r.1, ⟨r.2, s.log⟩)

/-- `ovs-data.c` under watch. -/
def watched (env : Env) : Backend Watched where
  exec op s := watchInserts s ((ovsBackend env).exec op s.world)
  delAll := watchDelAll env
  checkBridgeQueue br queue s := (ovsBackend env).checkBridgeQueue br queue s.world
  getConfigData s :=
    let r := (ovsBackend env).getConfigData s.world
    (r.1, ⟨r.2, logOpen .updateWhileOpen s.world s.log⟩)
  txnInit s := ⟨txnInit s.world, logOpen .initWhileOpen s.world s.log⟩
  txnAbort s := ⟨txnAbort s.world, s.log⟩
  txnCommit s :=
    let r := (ovsBackend env).txnCommit s.world
    (r.1, ⟨r.2, s.log⟩)
  postPorts root s := watchInserts s ((ovsBackend env).postPorts root s.world)

/-- A state without a misuse. -/
def watch (w : World) : Watched := ⟨w, []⟩

/-- The server with a watched backend. -/
def watchServer (srv : Server World) : Server Watched where
  gdsStartup := srv.gdsStartup
  gdsCand := srv.gdsCand
  rollback := srv.rollback
  rollbacking := srv.rollbacking
  locks := srv.locks
  world := watch srv.world

/-! ### Calls inside a transaction -/

theorem keeps_ofcSetSwitchid (n : Option Node) : Prog.Keeps World.txn (ofcSetSwitchid n) := by
  unfold ofcSetSwitchid
  split
  · exact Prog.keeps_update (fun _ => rfl)
  · split
    · exact Prog.keeps_update (fun _ => rfl)
    · exact Prog.keeps_pure ()

/-- Calls for parts of the configuration neither open nor close a
transaction. -/
theorem exec_txn (env : Env) (op : TxnOp) (w : World) :
    ((ovsBackend env).exec op w).2.txn = w.txn := by
  rw [exec_snd]
  cases op with
  | setSwitchid m => exact keeps_ofcSetSwitchid m w
  | _ => rfl

theorem watchInserts_open {w : World} (h : w.txn.isSome = true) (r : Reply × World) :
    watchInserts (watch w) r = (r.1, watch r.2) := by
  have hin : insertedOutside w r.2 = false := by
    cases hw : w.txn with
    | none => simp [hw] at h
    | some base => simp [insertedOutside, hw]
  simp [watchInserts, watch, hin]

/-- A commit closes the transaction, however it ends. -/
theorem txn_txnCommit (env : Env) (w : World) : (txnCommit env w).2.txn = none := by
  unfold txnCommit txnAbort
  cases h : w.txn with
  | none => simpa using h
  | some base =>
    simp only
    split <;> rfl

/-- The commit inside `txn_del_all` leaves no transaction, so the next one
may be opened. -/
theorem watchDelAll_eq (env : Env) (w : World) :
    watchDelAll env (watch w) =
      (((ovsBackend env).delAll w).1, watch ((ovsBackend env).delAll w).2) := by
  have hclosed := txn_txnCommit env { w with idl := delRoots w.idl }
  simp only [watchDelAll, watch]
  cases hc : txnCommit env { w with idl := delRoots w.idl } with
  | mk r between =>
    rw [hc] at hclosed
    have hnone : between.txn.isSome = false := by
      rw [show between.txn = none from hclosed]
      rfl
    cases r with
    | ok _ => simp [hnone]
    | error _ => rfl

/-- `txn_del_all` ends in a transaction, unless the process ends. -/
theorem delAll_open (env : Env) (w : World) (h : ((ovsBackend env).delAll w).1 ≠ .crash) :
    ((ovsBackend env).delAll w).2.txn.isSome = true := by
  simp only [ovsBackend, snd_reply, txnDelAll_run] at h ⊢
  cases hc : txnCommit env { w with idl := delRoots w.idl } with
  | mk r w' =>
    cases r with
    | ok _ => rfl
    | error e => simp [hc, Global.reply] at h

/-- The states of the two backends inside a transaction. -/
def InTxn (w : World) (s : Watched) : Prop := s = watch w ∧ w.txn.isSome = true

/-- Watching changes nothing inside a transaction. -/
theorem simulates_watched (env : Env) :
    Simulates InTxn (fun w s => s = watch w) (ovsBackend env) (watched env) where
  weaken := fun w s h => h.1
  exec_reply := by
    rintro op w s ⟨rfl, h⟩
    exact (congrArg Prod.fst (watchInserts_open h _)).symm
  exec_rel := by
    rintro op w s ⟨rfl, h⟩
    refine ⟨congrArg Prod.snd (watchInserts_open h _), ?_⟩
    rw [exec_txn]
    exact h
  delAll_reply := by
    rintro w s ⟨rfl, -⟩
    exact (congrArg Prod.fst (watchDelAll_eq env w)).symm
  delAll_weak := by
    rintro w s ⟨rfl, -⟩
    exact congrArg Prod.snd (watchDelAll_eq env w)
  delAll_rel := by
    rintro w s ⟨rfl, -⟩ hgo
    exact ⟨congrArg Prod.snd (watchDelAll_eq env w), delAll_open env w hgo⟩
  queue := by
    rintro br q w s ⟨rfl, -⟩
    rfl

/-! ### After the commit -/

/-- Everything but the flags of the interfaces. -/
def besideFlags (w : Work) : Work := { w with flags := fun _ => none }

theorem keeps_devSetFlags (name : String) (flags : BitVec 32) :
    Prog.Keeps besideFlags (devSetFlags name flags) := by
  refine Prog.keeps_update ?_
  intro w
  split <;> rfl

theorem keeps_checkFlags (name : String) (up : Bool) :
    Prog.Keeps besideFlags (checkFlags name up) :=
  Prog.keeps_bind (Prog.keeps_read _)
    (fun _ => Prog.keeps_ite (Prog.keeps_pure ()) (Prog.keeps_stop _))

theorem keeps_txnModPortAdminState (portName value : Option String) :
    Prog.Keeps besideFlags (txnModPortAdminState portName value) := by
  have hset : ∀ name flags up,
      Prog.Keeps besideFlags (do devSetFlags name flags; checkFlags name up) :=
    fun name flags up => Prog.keeps_bind (keeps_devSetFlags name flags)
      (fun _ => keeps_checkFlags name up)
  refine Prog.keeps_bind (Prog.keeps_ofOption _ _) (fun name => ?_)
  refine Prog.keeps_bind (Prog.keeps_read _) (fun flags => ?_)
  cases value with
  | none => exact Prog.keeps_ite (Prog.keeps_pure ()) (hset _ _ _)
  | some v =>
    exact Prog.keeps_ite (hset _ _ _) (Prog.keeps_ite (hset _ _ _) (Prog.keeps_stop _))

theorem keeps_ofModPortCfg (env : Env) (portName : Option String) (node : String)
    (value : Option String) : Prog.Keeps besideFlags (ofModPortCfg env portName node value) := by
  refine Prog.keeps_bind (Prog.keeps_read _) (fun _ => ?_)
  refine Prog.keeps_ite (Prog.keeps_stop _) ?_
  refine Prog.keeps_bind (Prog.keeps_read _) (fun br => ?_)
  split
  · exact Prog.keeps_stop _
  · exact Prog.keeps_stop _
  · refine Prog.keeps_bind (Prog.keeps_ofOption _ _) (fun name => ?_)
    split
    · exact Prog.keeps_stop _
    · refine Prog.keeps_ite (keeps_txnModPortAdminState portName value) ?_
      split
      · exact Prog.keeps_stop _
      · split
        · exact Prog.keeps_pure ()
        · exact Prog.keeps_stop _

/-- `of_post_ports` changes flags of interfaces and nothing else. -/
theorem keeps_ofPostPorts (env : Env) (cfg : Option Node) :
    Prog.Keeps besideFlags (ofPostPorts env cfg) := by
  refine Prog.keeps_bind (Prog.keeps_read _) (fun added => ?_)
  cases cfg with
  | none => exact Prog.keeps_pure ()
  | some root =>
    refine Prog.keeps_ite (Prog.keeps_pure ()) (Prog.keeps_forEach (fun port _ => ?_))
    split
    · exact Prog.keeps_pure ()
    · exact Prog.keeps_forEach (fun c _ => keeps_ofModPortCfg env _ _ _)

/-- It inserts no rows, so it needs no transaction. -/
theorem watchInserts_postPorts (env : Env) (root : Option Node) (w : World) :
    watchInserts (watch w) ((ovsBackend env).postPorts root w) =
      (((ovsBackend env).postPorts root w).1, watch ((ovsBackend env).postPorts root w).2) := by
  have hnext : ((ovsBackend env).postPorts root w).2.next = w.next := by
    rw [show ((ovsBackend env).postPorts root w).2 = ((ofPostPorts env root).global w).2 from
      snd_reply _]
    have hbeside := keeps_ofPostPorts env root w.toWork
    exact (congrArg Work.next hbeside :)
  have hin : insertedOutside w ((ovsBackend env).postPorts root w).2 = false := by
    simp [insertedOutside, hnext]
  simp [watchInserts, watch, hin]

theorem txn_postPorts (env : Env) (root : Option Node) (w : World) :
    ((ovsBackend env).postPorts root w).2.txn = w.txn := by
  rw [show ((ovsBackend env).postPorts root w).2 = ((ofPostPorts env root).global w).2 from
    snd_reply _]
  rfl

/-! ### The transactions of the datastore functions -/

/-- The call came back: the process did not end and no loop ran on. -/
def returned : Outcome → Bool
  | .success | .failure _ => true
  | _ => false

/-- A call under watch ends like the call itself, without a misuse, and
has closed its transaction if it came back. -/
structure Tidy (r : Outcome × World) (r' : Outcome × Watched) : Prop where
  same : r' = (r.1, watch r.2)
  closed : returned r.1 = true → r.2.txn = none

theorem txn_txnAbort (w : World) : (txnAbort w).txn = none := by
  unfold txnAbort
  cases h : w.txn with
  | none => exact h
  | some base => rfl

/-- Opening a transaction when none is open. -/
theorem watched_txnInit (env : Env) {w : World} (h : w.txn = none) :
    (watched env).txnInit (watch w) = watch (txnInit w) := by
  simp [watched, watch, logOpen, h]

theorem ovsBackend_txnInit (env : Env) (w : World) : (ovsBackend env).txnInit w = txnInit w := rfl

theorem inTxn_txnInit (w : World) : InTxn (txnInit w) (watch (txnInit w)) := ⟨rfl, rfl⟩

/-- Watching changes nothing in `edit_operations`. -/
theorem editOperations_watched (fuel : Nat) (env : Env) (defop : DefOp) (D edit : Doc) {w : World}
    (h : InTxn w (watch w)) :
    editOperations fuel true (watched env) defop ⟨D, edit, watch w⟩ =
      let r := editOperations fuel true (ovsBackend env) defop ⟨D, edit, w⟩
      (r.1, ⟨r.2.orig, r.2.edit, watch r.2.world⟩) := by
  have hst : StateRel InTxn ⟨D, edit, w⟩ ⟨D, edit, watch w⟩ := ⟨rfl, rfl, h⟩
  have hops := editOperations_agree ((simulates_watched env).inStep true) fuel defop hst
  generalize editOperations fuel true (watched env) defop ⟨D, edit, watch w⟩ = b at hops ⊢
  generalize editOperations fuel true (ovsBackend env) defop ⟨D, edit, w⟩ = a at hops ⊢
  obtain ⟨o, D', edit', w'⟩ := a
  obtain ⟨o', D'', edit'', s'⟩ := b
  obtain ⟨rfl, rfl, rfl⟩ : o = o' ∧ D' = D'' ∧ edit' = edit'' := by simpa using hops.same
  obtain rfl : s' = watch w' := hops.weak
  rfl

theorem txn_commit (env : Env) (w : World) : ((ovsBackend env).txnCommit w).2.txn = none := by
  rw [show ((ovsBackend env).txnCommit w).2 = (txnCommit env w).2 from snd_reply _]
  exact txn_txnCommit env w

theorem editRunning_tidy (setup : Setup) (env : Env) (defop : DefOp) (cfgds : Option Doc)
    (cfg : Doc) {w : World} (h : w.txn = none) :
    Tidy (editRunning setup (ovsBackend env) defop cfgds cfg w)
      (editRunning setup (watched env) defop cfgds cfg (watch w)) := by
  unfold editRunning
  cases checkRequest setup defop cfgds cfg with
  | failure e => exact ⟨rfl, fun _ => txn_txnAbort w⟩
  | crash => exact ⟨rfl, nofun⟩
  | timeout => exact ⟨rfl, nofun⟩
  | success =>
    simp only
    rw [watched_txnInit env h, ovsBackend_txnInit]
    cases compactEditOperations setup.noneCast defop cfg with
    | none => exact ⟨rfl, nofun⟩
    | some edit =>
      simp only
      rw [editOperations_watched setup.fuel env defop _ edit (inTxn_txnInit w)]
      generalize editOperations setup.fuel true (ovsBackend env) defop
        ⟨cfgds.getD [], edit, txnInit w⟩ = a
      obtain ⟨o, D, edit, w⟩ := a
      cases o with
      | failure e => exact ⟨rfl, fun _ => txn_txnAbort w⟩
      | crash => exact ⟨rfl, nofun⟩
      | timeout => exact ⟨rfl, nofun⟩
      | success =>
        have hclosed := txn_commit env w
        have hcommit : (watched env).txnCommit (watch w) =
          (((ovsBackend env).txnCommit w).1, watch ((ovsBackend env).txnCommit w).2) := rfl
        simp only [hcommit]
        generalize (ovsBackend env).txnCommit w = c at hclosed
        obtain ⟨o, w⟩ := c
        cases o with
        | failure e => exact ⟨rfl, fun _ => hclosed⟩
        | crash => exact ⟨rfl, nofun⟩
        | success =>
          have hpost : (watched env).postPorts (rootElement cfg) (watch w) = _ :=
            watchInserts_postPorts env (rootElement cfg) w
          simp only [hpost]
          exact ⟨rfl, fun _ => (txn_postPorts env _ w).trans hclosed⟩

/-- The end of `ofcds_copyconfig`: commit or abort. -/
theorem tidy_close (env : Env) (o : Outcome) (w : World) :
    Tidy
      (match o with
        | .success =>
          (((ovsBackend env).txnCommit w).1.outcome, ((ovsBackend env).txnCommit w).2)
        | .failure e => (.failure e, (ovsBackend env).txnAbort w)
        | o => (o, w))
      (match o with
        | .success =>
          (((watched env).txnCommit (watch w)).1.outcome, ((watched env).txnCommit (watch w)).2)
        | .failure e => (.failure e, (watched env).txnAbort (watch w))
        | o => (o, watch w)) := by
  cases o with
  | success => exact ⟨rfl, fun _ => txn_commit env w⟩
  | failure e => exact ⟨rfl, fun _ => txn_txnAbort w⟩
  | crash => exact ⟨rfl, nofun⟩
  | timeout => exact ⟨rfl, nofun⟩

theorem copyRunning_tidy (env : Env) (dst : Doc) (root : Option Node) {w : World}
    (h : w.txn = none) :
    Tidy (copyRunning (ovsBackend env) dst root w)
      (copyRunning (watched env) dst root (watch w)) := by
  have hin := inTxn_txnInit w
  unfold copyRunning
  simp only
  rw [watched_txnInit env h, ovsBackend_txnInit]
  cases root with
  | none =>
    have hempty := editReplaceEmpty_agree (simulates_watched env) dst _ _ hin
    simp only
    rw [← hempty.same, hempty.weak]
    exact tidy_close env _ _
  | some n =>
    have hreplace := editReplace_agree ((simulates_watched env).inStep true) n [] dst _ _ hin
    simp only
    rw [← hreplace.out, hreplace.weak]
    exact tidy_close env _ _

/-! ### The calls -/

/-- The edits of a local datastore do not depend on the backend. -/
theorem editLocal_backend {σ τ : Type} (setup : Setup) (B : Backend σ) (B' : Backend τ)
    (defop : DefOp) (cfgds : Option Doc) (cfg : Doc) (s : σ) (t : τ) :
    editLocal setup B defop cfgds cfg s = editLocal setup B' defop cfgds cfg t := by
  have S : InStep false (fun _ _ => True) (fun _ _ => True) B B' := ⟨fun _ _ h => h, nofun⟩
  unfold editLocal
  cases checkRequest setup defop cfgds cfg with
  | success =>
    cases compactEditOperations setup.noneCast defop cfg with
    | none => rfl
    | some edit =>
      have hst : StateRel (fun (_ : σ) (_ : τ) => True) ⟨cfgds.getD [], edit, s⟩
        ⟨cfgds.getD [], edit, t⟩ := ⟨rfl, rfl, trivial⟩
      have hops := editOperations_agree S setup.fuel defop hst
      simp only [hops.out, hops.orig]
  | _ => rfl

/-- The ends of a call of the server and of the same call under watch. -/
structure TidyCall (r : Outcome × Server World) (r' : Outcome × Server Watched) : Prop where
  same : r' = (r.1, watchServer r.2)
  closed : returned r.1 = true → r.2.world.txn = none

theorem getConfigData_watched (env : Env) {w : World} (h : w.txn = none) :
    (watched env).getConfigData (watch w) =
      (((ovsBackend env).getConfigData w).1, watch ((ovsBackend env).getConfigData w).2) := by
  simp [watched, watch, logOpen, h]

section

variable (setup : Setup) (env : Env) {srv : Server World} (h : srv.world.txn = none)

include h

theorem editconfig_tidy (target : Datastore) (config : String) (defop : DefOp) :
    TidyCall (ofcdsEditconfig setup (ovsBackend env) target config defop srv)
      (ofcdsEditconfig setup (watched env) target config defop (watchServer srv)) := by
  unfold ofcdsEditconfig
  simp only
  cases (setup.read config).filter validConfigRoot with
  | none => exact ⟨rfl, fun _ => h⟩
  | some cfg =>
    cases target with
    | running =>
      have hdata := getConfigData_watched env h
      have hsnd := getConfigData_snd env srv.world
      simp only [watchServer, hdata]
      generalize (ovsBackend env).getConfigData srv.world = d at hsnd
      obtain ⟨data, w⟩ := d
      obtain rfl : w = srv.world := hsnd
      cases data with
      | crash => exact ⟨rfl, nofun⟩
      | null => exact ⟨rfl, fun _ => txn_txnAbort srv.world⟩
      | text aux =>
        have hedit := editRunning_tidy setup env
          (if defop = .notset then .merge else defop) (setup.read aux) cfg h
        refine ⟨?_, hedit.closed⟩
        simp only [hedit.same]
        rfl
    | startup =>
      refine ⟨?_, fun _ => h⟩
      simp only [storeRollback, watchServer,
        editLocal_backend setup (watched env) (ovsBackend env) _ _ _ _ srv.world]
    | candidate =>
      refine ⟨?_, fun _ => h⟩
      simp only [storeRollback, watchServer,
        editLocal_backend setup (watched env) (ovsBackend env) _ _ _ _ srv.world]
    | _ => exact ⟨rfl, fun _ => h⟩

theorem afterSource_watched (source : Datastore) :
    afterSource (watched env) source (watchServer srv) = watchServer srv := by
  unfold afterSource
  split
  · have hdata : (watched env).getConfigData (watchServer srv).world = _ :=
      getConfigData_watched env h
    rw [hdata, getConfigData_snd]
    rfl
  · rfl

omit h in
theorem copySource_watched (source : Datastore) (config : Option String) :
    copySource setup (watched env) source config (watchServer srv) =
      copySource setup (ovsBackend env) source config srv := by
  cases source <;> rfl

omit h in
theorem keepRollback_watched (doc : Option Doc) (type : Datastore) :
    keepRollback doc type (watchServer srv) = watchServer (keepRollback doc type srv) := by
  unfold keepRollback
  rw [show (watchServer srv).rollbacking = srv.rollbacking from rfl]
  split <;> rfl

omit h in
theorem world_keepRollback (doc : Option Doc) (type : Datastore) :
    (keepRollback doc type srv).world = srv.world := by
  unfold keepRollback
  split <;> rfl

theorem copyconfig_tidy (target source : Datastore) (config : Option String) :
    TidyCall (ofcdsCopyconfig setup (ovsBackend env) target source config srv)
      (ofcdsCopyconfig setup (watched env) target source config (watchServer srv)) := by
  unfold ofcdsCopyconfig
  simp only [afterSource_watched env h, afterSource_ovsBackend, copySource_watched]
  cases copySource setup (ovsBackend env) source config srv with
  | error n => exact ⟨rfl, fun _ => h⟩
  | ok src =>
    cases target with
    | running =>
      have hdata : (watched env).getConfigData (watchServer srv).world = _ :=
        getConfigData_watched env h
      have hsnd := getConfigData_snd env srv.world
      simp only [hdata, keepRollback_watched]
      generalize (ovsBackend env).getConfigData srv.world = d at hsnd
      obtain ⟨data, w⟩ := d
      obtain rfl : w = srv.world := hsnd
      cases data with
      | crash => exact ⟨rfl, nofun⟩
      | null => exact ⟨rfl, fun _ => h⟩
      | text s =>
        have hcopy := copyRunning_tidy env ((setup.read s).getD []) (src.bind rootElement) h
        refine ⟨?_, hcopy.closed⟩
        simp only [hcopy.same]
        rfl
    | startup =>
      refine ⟨?_, fun _ => (congrArg World.txn (world_keepRollback _ _)).trans h⟩
      simp only [keepRollback_watched]
      rfl
    | candidate =>
      refine ⟨?_, fun _ => (congrArg World.txn (world_keepRollback _ _)).trans h⟩
      simp only [keepRollback_watched]
      rfl
    | _ => exact ⟨rfl, fun _ => h⟩

omit h in
theorem returned_dropError (o : Outcome) : returned (dropError o) = returned o := by
  cases o <;> rfl

theorem rollback_tidy :
    TidyCall (ofcdsRollback setup (ovsBackend env) srv)
      (ofcdsRollback setup (watched env) (watchServer srv)) := by
  unfold ofcdsRollback
  by_cases hrb : srv.rollback.type = .error
  · have hrb' : (watchServer srv).rollback.type = .error := hrb
    rw [if_pos hrb, if_pos hrb']
    exact ⟨rfl, fun _ => h⟩
  · have hrb' : ¬ (watchServer srv).rollback.type = .error := hrb
    rw [if_neg hrb, if_neg hrb']
    have hsrv : ({ srv with rollbacking := true } : Server World).world.txn = none := h
    have hcopy := copyconfig_tidy setup env hsrv srv.rollback.type .config
      (some (dumpLocal setup srv.rollback.doc))
    have hsame : ofcdsCopyconfig setup (watched env) (watchServer srv).rollback.type .config
        (some (dumpLocal setup (watchServer srv).rollback.doc))
        { watchServer srv with rollbacking := true } = _ := hcopy.same
    refine ⟨?_, fun hret => hcopy.closed ((returned_dropError _).symm.trans hret)⟩
    simp only [hsame]
    rfl

omit h in
/-- A call that works on the server's own data only. -/
theorem tidy_of_world_eq (srv : Server World) {r : Outcome × Server World}
    {r' : Outcome × Server Watched}
    (hsame : r' = (r.1, watchServer r.2)) (hworld : r.2.world = srv.world)
    (h : srv.world.txn = none) : TidyCall r r' :=
  ⟨hsame, fun _ => (congrArg World.txn hworld).trans h⟩

/-- Every call is tidy. -/
theorem exec_tidy (c : Call) :
    TidyCall (c.exec setup (ovsBackend env) srv)
      (c.exec setup (watched env) (watchServer srv)) := by
  cases c with
  | lock t sid =>
    refine tidy_of_world_eq srv ?_ ?_ h <;> simp only [Call.exec, ofcdsLock]
    · rw [show (watchServer srv).locks = srv.locks from rfl]
      split
      · rfl
      · split <;> rfl
    · split
      · rfl
      · split <;> rfl
  | unlock t sid =>
    refine tidy_of_world_eq srv ?_ ?_ h <;> simp only [Call.exec, ofcdsUnlock]
    · rw [show (watchServer srv).locks = srv.locks from rfl]
      split
      · rfl
      · split
        · split <;> rfl
        · rfl
    · split
      · rfl
      · split
        · split <;> rfl
        · rfl
  | editconfig t config defop => exact editconfig_tidy setup env h t config defop
  | copyconfig t source config => exact copyconfig_tidy setup env h t source config
  | deleteconfig t => cases t <;> exact ⟨rfl, fun _ => h⟩
  | rollback => exact rollback_tidy setup env h

end

/-! ### Runs -/

/-- The functions of the datastore that libnetconf calls. -/
inductive StoreCall where
  | getconfig (target : Datastore)
  | call (c : Call)

/-- One of them: did it return, and the state after it. -/
def StoreCall.exec {σ : Type} (setup : Setup) (B : Backend σ) :
    StoreCall → Server σ → Bool × Server σ
  | .getconfig target, srv =>
    let r := ofcdsGetconfig setup B target srv
    (r.1.1 ≠ .crash, r.2)
  | .call c, srv =>
    let r := c.exec setup B srv
    (returned r.1, r.2)

/-- A sequence of calls, each after the one before has returned: did all
of them return, and the state at the end. -/
def runStore {σ : Type} (setup : Setup) (B : Backend σ) :
    List StoreCall → Server σ → Bool × Server σ
  | [], srv => (true, srv)
  | c :: cs, srv =>
    match c.exec setup B srv with
    | (true, srv') => runStore setup B cs srv'
    | r => r

/-- Every function is tidy. -/
theorem storeCall_tidy (setup : Setup) (env : Env) {srv : Server World}
    (h : srv.world.txn = none) (c : StoreCall) :
    c.exec setup (watched env) (watchServer srv) =
        ((c.exec setup (ovsBackend env) srv).1, watchServer (c.exec setup (ovsBackend env) srv).2) ∧
      ((c.exec setup (ovsBackend env) srv).1 = true →
        (c.exec setup (ovsBackend env) srv).2.world.txn = none) := by
  cases c with
  | call c =>
    have hc := exec_tidy setup env h c
    refine ⟨?_, hc.closed⟩
    simp only [StoreCall.exec, hc.same]
  | getconfig target =>
    cases target with
    | running =>
      have hdata : (watched env).getConfigData (watchServer srv).world = _ :=
        getConfigData_watched env h
      refine ⟨?_, fun _ => ?_⟩
      · simp only [StoreCall.exec, ofcdsGetconfig, hdata]
        rfl
      · show ((ovsBackend env).getConfigData srv.world).2.txn = none
        rw [getConfigData_snd]
        exact h
    | _ => exact ⟨rfl, fun _ => h⟩

/-- Whatever is called, in whatever order and with whatever result, a run
under watch is the run itself and its log is empty: no transaction is
opened and no update runs while one is open, and rows are inserted in an
open transaction only. When the calls have returned, no transaction is
open. -/
theorem one_transaction_at_a_time (setup : Setup) (env : Env) (srv : Server World)
    (h : srv.world.txn = none) (cs : List StoreCall) :
    runStore setup (watched env) cs (watchServer srv) =
        ((runStore setup (ovsBackend env) cs srv).1,
          watchServer (runStore setup (ovsBackend env) cs srv).2) ∧
      ((runStore setup (ovsBackend env) cs srv).1 = true →
        (runStore setup (ovsBackend env) cs srv).2.world.txn = none) := by
  induction cs generalizing srv with
  | nil => exact ⟨rfl, fun _ => h⟩
  | cons c cs ih =>
    obtain ⟨hsame, hclosed⟩ := storeCall_tidy setup env h c
    unfold runStore
    rw [hsame]
    generalize c.exec setup (ovsBackend env) srv = r at hclosed
    obtain ⟨ret, srv'⟩ := r
    cases ret with
    | true => exact ih srv' (hclosed rfl)
    | false => exact ⟨rfl, nofun⟩

/-- A switch with an id, as `ofc_get_config_data` writes it. -/
def idSwitch : Doc :=
  [elem "capable-switch" (some ofcNs) [elem "id" (some ofcNs) [txt "cs0"]]]

/-- A server on an OVSDB with one row. -/
def switchServer : Server World :=
  ofcdsInit none { idl := { openVswitch := [⟨0, false, true, {}⟩] }
                   stored := { openVswitch := [⟨0, false, true, {}⟩] }
                   csId := some "cs0" }

/-- Calls that open more than one transaction one after the other. -/
def switchCalls : List StoreCall :=
  [.call (.copyconfig .running .config (some (xmlText idSwitch))),
    .call (.editconfig .running (xmlText idSwitch) .merge), .call .rollback, .getconfig .running]

/-- A copy onto the running datastore, with `txn_del_all` on the way, an
edit and a rollback. -/
theorem one_transaction_at_a_time_rollback :
    (runStore (.ofDocs [idSwitch]) (ovsBackend grantingEnv) switchCalls switchServer).1 = true ∧
    (runStore (.ofDocs [idSwitch]) (ovsBackend grantingEnv) switchCalls
      switchServer).2.world.txn = none := by
  have hret : (runStore (.ofDocs [idSwitch]) (ovsBackend grantingEnv) switchCalls
      switchServer).1 = true := by decide +kernel
  exact ⟨hret, (one_transaction_at_a_time (.ofDocs [idSwitch]) grantingEnv switchServer rfl _).2
    hret⟩

end OfConfig.Proofs
