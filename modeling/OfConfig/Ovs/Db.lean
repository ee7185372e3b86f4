import Mathlib.Data.BitVec
import OfConfig.Edit.Running
import OfConfig.Lib.Prog
import OfConfig.Lib.Table

/-!
# `OfConfig.Ovs.Db`: the OVSDB and its transactions

The part of the OVSDB that `ovs-data.c` works on, as the IDL library
shows it: one table per kind of row, with the columns the code reads or
writes. A column that the code may find null is an `Option`; the rows the
code inserts start with null strings.

The IDL keeps a copy of the database (`idl`). A transaction works on that
copy; `txn_commit` asks the server (`Env.commit`) to store the result,
`txn_abort` goes back to the copy as it was. The column `target` of a
controller needs more care, because `txn_mod_contr_target` also writes
into the string of the copy itself: such a change is seen by later reads,
is never sent to the server, and survives an abort. `target` is that
string, `targetSet` the value set in the open transaction, if any.

Files, the flags and the advertised features of the system's interfaces
are the rest of what the functions work on. The content of the server and
the id of the switch are apart: most functions are programs on a `Work`,
so they cannot touch them.
-/

set_option autoImplicit false

namespace OfConfig.Ovs

open OfConfig.Lib OfConfig.Xml OfConfig.Edit

/-! ### Rows -/

/-- Identifier of a row. -/
abbrev Uuid := Nat

/-- Table `Interface`. -/
structure Interface where
  name : Option String := none
  type : Option String := none
  ofportRequest : Option Int := none
  options : Smap := []
  externalIds : Smap := []
  adminState : Option String := none
deriving DecidableEq, Repr

/-- Table `Port`. -/
structure Port where
  name : Option String := none
  interfaces : List Uuid := []
  qos : Option Uuid := none
deriving DecidableEq, Repr

/-- Table `QoS`. -/
structure Qos where
  type : Option String := none
  queues : List (Int × Uuid) := []
deriving DecidableEq, Repr

/-- Table `Queue`. -/
structure Queue where
  externalIds : Smap := []
  otherConfig : Smap := []
deriving DecidableEq, Repr

/-- Table `Controller`. -/
structure Controller where
  target : Option String := none
  targetSet : Option String := none
  localIp : Option String := none
  connectionMode : Option String := none
  externalIds : Smap := []
deriving DecidableEq, Repr

/-- `contr->target` as the code reads it. -/
def Controller.shown (c : Controller) : Option String := c.targetSet.or c.target

/-- Table `Flow_Table`. -/
structure FlowTable where
  name : Option String := none
  externalIds : Smap := []
deriving DecidableEq, Repr

/-- Table `Bridge`. The column `datapath_id` is written by the switch. -/
structure Bridge where
  name : Option String := none
  ports : List Uuid := []
  flowTables : List (Int × Uuid) := []
  controller : List Uuid := []
  failMode : Option String := none
  otherConfig : Smap := []
  datapathId : Option String := none
deriving DecidableEq, Repr

/-- Table `SSL`. -/
structure Ssl where
  certificate : Option String := none
  privateKey : Option String := none
  caCert : Option String := none
  externalIds : Smap := []
deriving DecidableEq, Repr

/-- Table `Open_vSwitch`. -/
structure OpenVswitch where
  bridges : List Uuid := []
  ssl : Option Uuid := none
deriving DecidableEq, Repr

/-- A call that sets a column of references: the row, and the array that was
passed. The copy then shows the references whose row is still there, but the
array is what goes into the transaction. -/
inductive RefWrite where
  | ports (bridge : Uuid) (refs : List Uuid)
  | flowTables (bridge : Uuid) (refs : List (Int × Uuid))
  | controller (bridge : Uuid) (refs : List Uuid)
  | bridges (openVswitch : Uuid) (refs : List Uuid)
  | queues (qos : Uuid) (refs : List (Int × Uuid))
deriving DecidableEq, Repr

/-- The database. -/
structure Db where
  openVswitch : Table OpenVswitch := []
  bridge : Table Bridge := []
  port : Table Port := []
  interface : Table Interface := []
  qos : Table Qos := []
  queue : Table Queue := []
  controller : Table Controller := []
  flowTable : Table FlowTable := []
  ssl : Table Ssl := []
  flowSampleCollectorSet : Table Unit := []
  /-- the arrays that the open transaction has set, in the order of the calls;
  the empty ones of `txn_del_all` are left out, as the copy shows them as they are -/
  written : List RefWrite := []
deriving DecidableEq, Repr

/-! ### The world around the code -/

/-- The bits of a port's OpenFlow configuration. -/
inductive PortBit where
  | noRecv
  | noFwd
  | noPacketIn
  | portDown
deriving DecidableEq, Repr

/-- What the server, the switch and the system answer. -/
structure Env where
  /-- The content after a commit of the given one, or the server's
  message. -/
  commit : Db → Except String Db
  /-- `dev_is_system` -/
  isSystem : String → Bool
  /-- Can the file be created and written? -/
  canWrite : String → Bool
  /-- The switch's answer to a port modification over OpenFlow: bridge,
  port, bit and value. -/
  portMod : String → String → PortBit → Bool → Option NcErr
  /-- The OpenFlow configuration of a port: bridge, port and bit; `none`
  when the port is not found over OpenFlow. -/
  ofPort : String → String → Option (PortBit → Bool)
  /-- `OFC_DATADIR` -/
  dataDir : String

/-- What the functions for the parts of the configuration work on: the
client's copy of the database and the system. -/
structure Work where
  /-- the client's copy, with the changes of the open transaction -/
  idl : Db := {}
  /-- the next identifier -/
  next : Uuid := 0
  /-- `ovsdb_handler->added_interface` -/
  addedInterface : Bool := false
  /-- files by path -/
  files : Smap := []
  /-- interface flags, where the interface exists -/
  flags : String → Option (BitVec 32) := fun _ => none
  /-- `ethtool_cmd.advertising` -/
  advertising : String → BitVec 32 := fun _ => 0

/-- Everything `ovs-data.c` reads and writes. -/
structure World extends Work where
  /-- the content of the database server -/
  stored : Db := {}
  /-- the copy as it was when the open transaction began -/
  txn : Option Db := none
  /-- `cs_id` -/
  csId : Option String := none

/-! ### Programs -/

/-- How a function of `ovs-data.c` ends when it does not return
`EXIT_SUCCESS`. -/
inductive Fail where
  | err (e : NcErr)
  | crash
deriving DecidableEq, Repr

/-- A function of `ovs-data.c` for a part of the configuration. -/
abbrev Txn (α : Type) := Prog Work Fail α

/-- A function of `ovs-data.c` that may also commit, or change the id of
the switch. -/
abbrev Global (α : Type) := Prog World Fail α

/-- A function for a part of the configuration leaves the rest alone. -/
def Txn.global {α : Type} (p : Txn α) : Global α := fun w =>
  ((p w.toWork).1, { w with toWork := (p w.toWork).2 })

/-- Return `EXIT_FAILURE` with an error. -/
def fail {α : Type} (e : NcErr) : Txn α := Prog.stop (.err e)

/-- Use a null pointer. -/
def crash {α : Type} : Txn α := Prog.stop .crash

/-- The error for a null argument. -/
def invalidInput : NcErr := { tag := .opFailed }

/-- An error about an element. -/
def badElem (elem msg : String) : NcErr :=
  { tag := .badElem, badElem := some elem, msg := some msg }

/-- An operation that failed, with a message. -/
def opFailed (msg : String) : NcErr := { tag := .opFailed, msg := some msg }

/-- A null check of an argument. -/
def argument {α : Type} (o : Option α) : Txn α := Prog.ofOption (.err invalidInput) o

/-- A pointer that the code uses without a check. -/
def deref {α : Type} (o : Option α) : Txn α := Prog.ofOption .crash o

/-- What the caller sees. -/
def Global.reply (r : Except Fail Unit × World) : Reply × World :=
  match r with
  | (.ok _, w) => (.success, w)
  | (.error (.err e), w) => (.failure (some e), w)
  | (.error .crash, w) => (.crash, w)

@[simp] theorem snd_reply (r : Except Fail Unit × World) : (Global.reply r).2 = r.2 := by
  obtain ⟨r, w⟩ := r
  rcases r with (e | _) | _ <;> rfl

/-- Change the client's copy. -/
def modifyDb (f : Db → Db) : Txn Unit := Prog.update (fun w => { w with idl := f w.idl })

/-- Read the client's copy. -/
def readDb {α : Type} (f : Db → α) : Txn α := Prog.read (fun w => f w.idl)

/-- The identifier of a new row. -/
def newUuid : Txn Uuid := do
  let u ← Prog.read Work.next
  Prog.update (fun w => { w with next := w.next + 1 })
  return u

/-! ### Transactions -/

/-- `txn_init` -/
def txnInit (w : World) : World :=
  { w with txn := some w.idl, addedInterface := false }

/-- The copy after an abort: as before the transaction, but for the
strings that were changed in place. -/
def rollbackTo (base idl : Db) : Db :=
  { base with controller := base.controller.map (fun r =>
      { r with val := { r.val with
          target := ((idl.controller.deref r.uuid).map Controller.target).getD r.val.target
          targetSet := none } }) }

/-- `txn_abort` -/
def txnAbort (w : World) : World :=
  match w.txn with
  | none => w
  | some base => { w with idl := rollbackTo base w.idl, txn := none }

/-- What the transaction asks the server to store. Of the targets of controllers
only those that were set are sent; the server keeps the others. The references
are in the rows as the copy shows them and in `written` as they were passed. -/
def pending (stored idl : Db) : Db where
  openVswitch := idl.openVswitch.settle
  bridge := idl.bridge.settle
  port := idl.port.settle
  interface := idl.interface.settle
  qos := idl.qos.settle
  queue := idl.queue.settle
  controller := idl.controller.settle.map (fun r =>
    { r with val := { r.val with
        target := r.val.targetSet.or ((stored.controller.deref r.uuid).bind Controller.target)
        targetSet := none } })
  flowTable := idl.flowTable.settle
  ssl := idl.ssl.settle
  flowSampleCollectorSet := idl.flowSampleCollectorSet.settle
  written := idl.written

/-- The copy after a commit: what the server stored. The server announces
changes only, so a string that was changed in place stays where the
server's did not change. -/
def afterCommit (stored db idl : Db) : Db :=
  { db with
      controller := db.controller.map (fun r =>
        match stored.controller.deref r.uuid, idl.controller.deref r.uuid with
        | some old, some c =>
          if old.target = r.val.target then { r with val := { r.val with target := c.target } }
          else r
        | _, _ => r)
      written := [] }

/-- `txn_commit` -/
def txnCommit (env : Env) : Global Unit := fun w =>
  match w.txn with
  | none => (.error .crash, w)
  | some _ =>
    match env.commit (pending w.stored w.idl) with
    | .ok db => (.ok (), { w with stored := db, idl := afterCommit w.stored db w.idl, txn := none })
    | .error msg => (.error (.err (opFailed msg)), txnAbort w)

/-- `ofc_set_switchid` -/
def ofcSetSwitchid (node : Option Node) : Global Unit :=
  match node with
  | none => Prog.update (fun w => { w with csId := none })
  | some n =>
    match n.children with
    | .node (.text id) _ :: _ => Prog.update (fun w => { w with csId := some id })
    -- the function fails, and its callers do not look
    | _ => pure ()

/-- What `txn_del_all` deletes before its commit. -/
def delRoots (db : Db) : Db :=
  { db with
      openVswitch := (db.openVswitch.updateAll (fun _ => ⟨[], none⟩)).deleteAll
      flowSampleCollectorSet := db.flowSampleCollectorSet.deleteAll }

/-- What `txn_del_all` deletes after its commit. -/
def delRest (db : Db) : Db :=
  { db with
      qos := (db.qos.updateAll (fun q => { q with queues := [] })).deleteAll
      queue := db.queue.deleteAll
      port := (db.port.updateAll (fun p => { p with qos := none })).deleteAll
      ssl := db.ssl.deleteAll }

/-- `txn_del_all`. The commit in the middle is called without a place for
its error, so it crashes when it fails. -/
def txnDelAll (env : Env) : Global Unit := do
  (modifyDb delRoots).global
  (fun w =>
    match txnCommit env w with
    | (.ok _, w') => (.ok (), txnInit w')
    | (.error _, w') => (.error .crash, w'))
  (modifyDb delRest).global
  ofcSetSwitchid none

/-- `txn_del_all`, step by step. -/
theorem txnDelAll_run (env : Env) (w : World) :
    txnDelAll env w =
      match txnCommit env { w with idl := delRoots w.idl } with
      | (.ok _, w') => (.ok (), { txnInit w' with idl := delRest w'.idl, csId := none })
      | (.error _, w') => (.error .crash, w') := by
  have hroots : (modifyDb delRoots).global w = (.ok (), { w with idl := delRoots w.idl }) := rfl
  unfold txnDelAll
  rw [Prog.bind_run, hroots]
  show Prog.andThen _ _ { w with idl := delRoots w.idl } = _
  cases hc : txnCommit env { w with idl := delRoots w.idl } with
  | mk r w' =>
    simp only [Prog.andThen, hc]
    cases r with
    | ok _ => rfl
    | error _ => rfl

end OfConfig.Ovs
