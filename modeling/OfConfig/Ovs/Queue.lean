import OfConfig.Ovs.Port

/-!
# `OfConfig.Ovs.Queue`: queues

The functions of `ovs-data.c` below `/capable-switch/resources/queue`. A
queue is a row of `Queue`; its port is the one whose `QoS` row refers to
it, under an integer key that repeats the queue's id.
-/

set_option autoImplicit false

namespace OfConfig.Ovs

open OfConfig.Lib OfConfig.Xml OfConfig.Edit

/-- `OFC_RESOURCE_ID` -/
def ofcResourceId : String := "ofc_resource_id"

/-- `QOS_TYPE` -/
def qosType : String := "linux-hfsc"

/-- The `resource-id` of a queue. -/
def Queue.rid (q : Queue) : Option String := q.externalIds.get ofcResourceId

/-- `find_queue` -/
def findQueue (rid : Option String) (db : Db) : Option (Row Queue) :=
  match rid with
  | none => none
  | some rid => db.queue.first (fun q => q.rid = some rid)

/-- Change a queue. -/
def updateQueue (u : Uuid) (f : Queue → Queue) : Txn Unit :=
  modifyDb (fun db => { db with queue := db.queue.update u f })

/-- `ovsrec_qos_set_queues` -/
def setQueues (u : Uuid) (qs : List (Int × Uuid)) : Txn Unit :=
  modifyDb (fun db => { db with
    qos := db.qos.update u (fun q => { q with queues := db.queue.keyedRefs qs })
    written := db.written ++ [.queues u qs] })

/-- Does the entry of a `QoS` row refer to the queue? -/
def refersTo (db : Db) (rid : String) (q : Int × Uuid) : Bool :=
  ((db.queue.deref q.2).bind Queue.rid) = some rid

/-- The queues of the `QoS` row of a port. -/
def portQueues (db : Db) (p : Port) : List (Int × Uuid) :=
  ((p.qos.bind db.qos.deref).map Qos.queues).getD []

/-- `find_queue_port` -/
def findQueuePort (rid : String) (db : Db) : Option (Row Port) :=
  db.port.first (fun p => (portQueues db p).any (refersTo db rid))

/-- The error for a queue that is not there. -/
def noSuchQueue : NcErr := opFailed "Queue to link with port not found."

/-- The error for a queue id that is not a number. -/
def badQueueId : NcErr := badElem "id" "Invalid queue's id value."

/-- `txn_add_queue_port` -/
def txnAddQueuePort (rid portName : Option String) : Txn Unit := do
  let _ ← argument rid
  let _ ← argument portName
  match ← readDb (findQueue rid) with
  | none => fail noSuchQueue
  | some queue =>
    match queue.val.externalIds.get "ofc_id" with
    | none => fail (opFailed "Internal inconsistency of the queue records.")
    | some id =>
      match ← readDb (findPort portName) with
      | none => fail (opFailed "Port to link with queue not found.")
      | some port =>
        match scanI64 id with
        | none => fail badQueueId
        | some qid =>
          match port.val.qos with
          | none => do
              let u ← newUuid
              modifyDb (fun db =>
                let qos : Qos := ⟨some qosType, db.queue.keyedRefs [(qid, queue.uuid)]⟩
                { db with
                  qos := db.qos.insert u qos
                  written := db.written ++ [.queues u [(qid, queue.uuid)]] })
              updatePort port.uuid (fun p => { p with qos := some u })
          | some q => do
              let qos ← deref (← readDb (fun db => db.qos.deref q))
              setQueues q (qos.queues ++ [(qid, queue.uuid)])

/-- The first `QoS` row that refers to a queue. -/
def findQos (rid : String) (db : Db) : Option (Row Qos) :=
  db.qos.first (fun q => q.queues.any (refersTo db rid))

/-- The position of the reference to a queue. -/
def queueIndex (db : Db) (rid : String) (qs : List (Int × Uuid)) : Nat :=
  qs.findIdx (refersTo db rid)

/-- `txn_mod_queue_id` -/
def txnModQueueId (rid qidS : Option String) : Txn Unit := do
  let r ← argument rid
  let s ← argument qidS
  match scanI64 s with
  | none => fail badQueueId
  | some qid =>
    match ← readDb (findQueue rid) with
    | none => fail noSuchQueue
    | some queue => do
        match ← readDb (findQos r) with
        | none => pure ()
        | some qos => do
            let i ← readDb (fun db => queueIndex db r qos.val.queues)
            setQueues qos.uuid (qos.val.queues.modify i (fun q => (qid, q.2)))
        updateQueue queue.uuid (fun q => { q with externalIds := q.externalIds.replace "ofc_id" s })

/-- The loop of `txn_del_qos_queue`: the entries from position `j` on are
copied behind the others, but for the one at position `i`. -/
def copyExcept {α : Type} (i : Nat) : Nat → List α → List α → List α
  | _, [], dst => dst
  | j, x :: xs, dst =>
    if j = i then copyExcept i (j + 1) xs dst else copyExcept i (j + 1) xs (dst ++ [x])

/-- Behind position `i` all entries are copied. -/
theorem copyExcept_of_lt {α : Type} {i j : Nat} (hj : i < j) (xs dst : List α) :
    copyExcept i j xs dst = dst ++ xs := by
  induction xs generalizing j dst with
  | nil => exact (List.append_nil dst).symm
  | cons x xs ih =>
    rw [copyExcept, if_neg (by omega), ih (by omega), List.append_assoc]
    rfl

theorem copyExcept_of_le {α : Type} {i j : Nat} (hj : j ≤ i) (xs dst : List α) :
    copyExcept i j xs dst = dst ++ xs.eraseIdx (i - j) := by
  induction xs generalizing j dst with
  | nil => simp [copyExcept]
  | cons x xs ih =>
    rw [copyExcept]
    split_ifs with h
    · rw [copyExcept_of_lt (by omega), h, Nat.sub_self, List.eraseIdx_cons_zero]
    · obtain ⟨k, hk⟩ : ∃ k, i - j = k + 1 := ⟨i - j - 1, by omega⟩
      rw [ih (by omega), hk, List.eraseIdx_cons_succ, show i - (j + 1) = k by omega,
        List.append_assoc]
      rfl

/-- The loop leaves out one entry. -/
theorem copyExcept_eq {α : Type} (i : Nat) (xs : List α) :
    copyExcept i 0 xs [] = xs.eraseIdx i := copyExcept_of_le (Nat.zero_le i) xs []

/-- `txn_del_qos_queue` on the entry at a position: whether the row is
gone. The array for the copy has one place less than the entries, and the
loop writes behind its end if none of them is left out. -/
def txnDelQosQueue (u : Uuid) (qos : Qos) (i : Nat) : Txn Bool :=
  if qos.queues.length = 1 then do
    modifyDb (fun db => { db with qos := db.qos.delete u })
    return true
  else if i < qos.queues.length then do
    setQueues u (copyExcept i 0 qos.queues [])
    return false
  else crash

/-- `txn_del_queue_port` -/
def txnDelQueuePort (rid : Option String) : Txn Unit := do
  let r ← argument rid
  match ← readDb (findQueuePort r) with
  | none => fail invalidInput
  | some port => do
      let u ← deref port.val.qos
      let qos ← deref (← readDb (fun db => db.qos.deref u))
      let i ← readDb (fun db => queueIndex db r qos.queues)
      if ← txnDelQosQueue u qos i then updatePort port.uuid (fun p => { p with qos := none })
      else pure ()

/-- `txn_mod_queue_options` -/
def txnModQueueOptions (rid : Option String) (option : String) (edit : Option Node) :
    Txn Unit := do
  let _ ← argument rid
  match ← readDb (findQueue rid) with
  | none => fail (opFailed "Queue to set properties not found")
  | some queue =>
    match edit with
    | none =>
      updateQueue queue.uuid (fun q => { q with otherConfig := q.otherConfig.remove option })
    | some n =>
      match firstContent n with
      | none => fail (opFailed "Missing value of the queue property")
      | some v =>
        updateQueue queue.uuid (fun q =>
          { q with otherConfig := q.otherConfig.replace option v })

/-- The last element child of a name. -/
def lastChild (node : Node) (name : String) : Option Node :=
  node.children.reverse.find? (fun c => c.label.isElement && c.label.name = name)

/-- The content of the last element child of a name. -/
def lastContent (node : Node) (name : String) : Option String :=
  (lastChild node name).bind firstContent

/-- `txn_add_queue` -/
def txnAddQueue (node : Node) : Txn Unit :=
  match lastContent node "resource-id", lastContent node "id" with
  | some rid, some id => do
      let u ← newUuid
      modifyDb (fun db =>
        { db with queue := db.queue.insert u ⟨Smap.addOnce [] ofcResourceId rid, []⟩ })
      txnModQueueId (some rid) (some id)
      match lastContent node "port" with
      | none => pure ()
      | some port => txnAddQueuePort (some rid) (some port)
      match lastChild node "properties" with
      | none => pure ()
      | some prop =>
        Prog.forEach prop.children (fun c =>
          txnModQueueOptions (some rid) c.label.name (some c))
  | none, _ => fail (badElem "queue" "The list element misses key.")
  | some _, none => fail (badElem "queue" "Mandatory gueue id is missing.")

/-- `txn_del_queue` -/
def txnDelQueue (rid : Option String) : Txn Unit := do
  let r ← argument rid
  match ← readDb (findQueuePort r) with
  | some _ => txnDelQueuePort rid
  | none =>
    match ← readDb (findQos r) with
    | none => pure ()
    | some qos => do
        let i ← readDb (fun db => queueIndex db r qos.val.queues)
        let _ ← txnDelQosQueue qos.uuid qos.val i
        pure ()
  match ← readDb (findQueue rid) with
  | none => fail (badElem "resource-id" "Queue does not exist in OVSDB")
  | some queue => modifyDb (fun db => { db with queue := db.queue.delete queue.uuid })

end OfConfig.Ovs
