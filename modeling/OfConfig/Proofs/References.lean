import OfConfig.Ovs.Queue
import OfConfig.Ovs.Switch

/-!
# `OfConfig.Proofs.References`: removing one reference

Four functions take a reference off a column by copying the others into an
array with one place less. Three of them find out that there is nothing to
remove when the array is full too early; `txn_del_qos_queue` gets a position.
What they write is the array they pass to the library (`Db.written`); what the
copy then shows are the references in it whose row is still there, so that a row
that was deleted earlier in the transaction is missing from the copy only.

* `copyOthers_eq`, `keepOthers_eq_copy`: what the loops store, and that it fits.
* `RefRemoval`: the ways in which such a function may end.
* `reference_removal_exact`: the four functions end in these ways only.
-/

set_option autoImplicit false

namespace OfConfig.Ovs

open OfConfig.Lib

/-! ### The loops -/

section Copy

variable {α : Type} (remove : α → Bool)

/-- The loop stores the references it keeps, as many as there are places. -/
theorem copyOthers_eq {n : Nat} {dst : List α} (hdst : dst.length ≤ n) (xs : List α) :
    copyOthers remove n xs dst =
      (decide (n < (dst ++ xs.filter (fun x => !remove x)).length),
        (dst ++ xs.filter (fun x => !remove x)).take n) := by
  induction xs generalizing dst with
  | nil => simp [copyOthers, hdst]
  | cons x xs ih =>
    rw [copyOthers]
    by_cases hx : remove x = true
    · rw [if_pos hx, ih hdst, List.filter_cons_of_neg (by simp [hx])]
    · rw [if_neg hx, List.filter_cons_of_pos (by simpa using hx)]
      split_ifs with hfull
      · -- no place for `x`, and what is stored are the first `n`
        have hlt : n < (dst ++ x :: xs.filter (fun x => !remove x)).length := by
          rw [List.length_append, List.length_cons]
          omega
        rw [decide_eq_true hlt, ← hfull, List.take_left]
      · have hlen : (dst ++ [x]).length ≤ n := by
          rw [List.length_append, List.length_singleton]
          omega
        rw [ih hlen, List.append_assoc, List.singleton_append]

/-- The loop stores no more than there are places. -/
theorem length_copyOthers_le (n : Nat) (xs : List α) :
    (copyOthers remove n xs []).2.length ≤ n := by
  rw [copyOthers_eq remove (Nat.zero_le n)]
  exact List.length_take_le n _

/-- The end of the loop as the functions see it. -/
def Kept.ofCopy (n : Nat) : Bool × List α → Kept α
  | (true, _) => .full
  | (false, dst) => if dst.length = n then .rest dst else .garbage

theorem keepOthers_eq_copy {xs : List α} (hxs : xs ≠ []) :
    keepOthers remove xs =
      Kept.ofCopy (xs.length - 1) (copyOthers remove (xs.length - 1) xs []) := by
  have hpos := List.length_pos_iff.mpr hxs
  have hle := List.length_filter_le (fun x => !remove x) xs
  rw [copyOthers_eq remove (Nat.zero_le _), List.nil_append, keepOthers]
  generalize xs.filter (fun x => !remove x) = rest at hle ⊢
  by_cases hfull : rest.length = xs.length
  · rw [if_pos hfull, decide_eq_true (by omega)]
    rfl
  · rw [if_neg hfull, decide_eq_false (by omega), List.take_of_length_le (by omega)]
    rw [Kept.ofCopy]
    refine if_congr ?_ rfl rfl
    omega

/-- With one reference to remove at most, the loop ends in one of two ways. -/
theorem keepOthers_cases {xs : List α} (hone : xs.countP remove ≤ 1) :
    ((∀ x ∈ xs, remove x = false) ∧ keepOthers remove xs = .full) ∨
    ∃ x ys zs, xs = ys ++ x :: zs ∧ remove x = true ∧ (∀ y ∈ ys ++ zs, remove y = false) ∧
      keepOthers remove xs = .rest (ys ++ zs) := by
  by_cases hany : ∃ x ∈ xs, remove x = true
  · right
    obtain ⟨x, hx, hr⟩ := hany
    obtain ⟨ys, zs, rfl⟩ := List.append_of_mem hx
    have hothers : ∀ y ∈ ys ++ zs, remove y = false := by
      rw [List.countP_append, List.countP_cons_of_pos hr] at hone
      have hzero : (ys ++ zs).countP remove = 0 := by
        rw [List.countP_append]
        omega
      intro y hy
      exact Bool.not_eq_true _ ▸ List.countP_eq_zero.mp hzero y hy
    have hfilter : (ys ++ x :: zs).filter (fun x => !remove x) = ys ++ zs := by
      rw [List.filter_append, List.filter_cons_of_neg (by simp [hr]), ← List.filter_append]
      exact List.filter_eq_self.mpr (fun y hy => by rw [hothers y hy]; rfl)
    refine ⟨x, ys, zs, rfl, hr, hothers, ?_⟩
    rw [keepOthers, hfilter]
    simp only [List.length_append, List.length_cons]
    rw [if_neg (by omega), if_pos (by omega)]
  · left
    have hnone : ∀ x ∈ xs, remove x = false := by
      intro x hx
      exact Bool.not_eq_true _ ▸ fun hr => hany ⟨x, hx, hr⟩
    refine ⟨hnone, ?_⟩
    rw [keepOthers, List.filter_eq_self.mpr (fun x hx => by rw [hnone x hx]; rfl)]
    exact if_pos rfl

variable {remove}

/-- The first reference to remove. -/
theorem find?_middle {x : α} {ys zs : List α} (hx : remove x = true)
    (hys : ∀ y ∈ ys, remove y = false) : (ys ++ x :: zs).find? remove = some x := by
  have hnone : ys.find? remove = none :=
    List.find?_eq_none.mpr (fun y hy => by rw [hys y hy]; exact Bool.false_ne_true)
  rw [List.find?_append, hnone, Option.none_or, List.find?_cons_of_pos hx]

/-- Its position. -/
theorem findIdx_middle {x : α} {ys zs : List α} (hx : remove x = true)
    (hys : ∀ y ∈ ys, remove y = false) : (ys ++ x :: zs).findIdx remove = ys.length := by
  have hnone : ys.findIdx remove = ys.length := List.findIdx_eq_length.mpr hys
  rw [List.findIdx_append, hnone, if_neg (Nat.lt_irrefl _), List.findIdx_cons, hx, cond_true,
    Nat.zero_add]

end Copy

/-! ### The ways to end -/

/-- How a function that removes a reference may end. `old` is the column before,
`follow` says whether a reference leads to a row, `w` is the state before and
`written x new` the one after the column was set to `new`, without `x`. -/
inductive RefRemoval {α : Type} (follow remove : α → Bool) (old : List α) (w : Work)
    (written : α → List α → Work) : Except Fail Unit × Work → Prop where
  /-- it fails, and changes nothing; it crashes only over a reference to nothing -/
  | failed (e : Fail) (hcrash : e = .crash → ∃ x ∈ old, follow x = false) :
      RefRemoval follow remove old w written (.error e, w)
  /-- there is nothing to remove, and nothing changes -/
  | absent (hnone : ∀ x ∈ old, remove x = false) :
      RefRemoval follow remove old w written (.ok (), w)
  /-- one reference is removed, and the others stay in their order -/
  | removed (x : α) (ys zs : List α) (hold : old = ys ++ x :: zs) (hx : remove x = true)
      (hothers : ∀ y ∈ ys ++ zs, remove y = false) :
      RefRemoval follow remove old w written (.ok (), written x (ys ++ zs))

/-- Reading the references fails over one that leads to nothing, or with an
error; it changes nothing. -/
def Reads {α : Type} (follow : α → Bool) (old : List α) (check : Txn Unit) (w : Work) : Prop :=
  check w = (.ok (), w) ∨
    ∃ e, check w = (.error e, w) ∧ (e = .crash → ∃ x ∈ old, follow x = false)

/-- How the loop of such a function ends, with the references it reads. -/
theorem loop_cases {α : Type} {follow remove : α → Bool} {old : List α} {w : Work}
    {check : Txn Unit} (hone : old.countP remove ≤ 1) (hcheck : Reads follow old check w) :
    (∃ e, check w = (.error e, w) ∧ (e = .crash → ∃ x ∈ old, follow x = false)) ∨
    (check w = (.ok (), w) ∧ (∀ x ∈ old, remove x = false) ∧ keepOthers remove old = .full) ∨
    (check w = (.ok (), w) ∧ ∃ x ys zs, old = ys ++ x :: zs ∧ remove x = true ∧
      (∀ y ∈ ys ++ zs, remove y = false) ∧ keepOthers remove old = .rest (ys ++ zs)) := by
  rcases hcheck with hok | herr
  · rcases keepOthers_cases remove hone with hfull | hrest
    · exact .inr (.inl ⟨hok, hfull⟩)
    · exact .inr (.inr ⟨hok, hrest⟩)
  · exact .inl herr

/-- A loop over the references reads if its rounds do. -/
theorem reads_forEach {α : Type} {follow : α → Bool} {check : α → Txn Unit} {w : Work}
    (hround : ∀ x, Reads follow [x] (check x) w) (xs : List α) :
    Reads follow xs (Prog.forEach xs check) w := by
  have hkeep : ∀ x ∈ xs, (check x w).2 = w := by
    intro x _
    rcases hround x with hok | ⟨e, herr, -⟩
    · rw [hok]
    · rw [herr]
  rcases Prog.forEach_readOnly hkeep with hok | ⟨x, hx, e, he, herr⟩
  · exact .inl hok
  · refine .inr ⟨e, herr, fun hcrash => ⟨x, hx, ?_⟩⟩
    rcases hround x with hok | ⟨e', he', hfollow⟩
    · rw [hok] at he
      cases he
    · rw [he'] at he
      cases he
      obtain ⟨y, hy, hf⟩ := hfollow hcrash
      rwa [List.mem_singleton.mp hy] at hf

/-- A loop that follows the references. -/
theorem reads_deref {α β : Type} (f : α → Option β) (xs : List α) (w : Work) :
    Reads (fun x => (f x).isSome) xs (Prog.forEach xs (fun x => do let _ ← deref (f x))) w := by
  refine reads_forEach (fun x => ?_) xs
  cases hx : f x with
  | none =>
    exact .inr ⟨.crash, rfl, fun _ => ⟨x, List.mem_singleton_self x, congrArg Option.isSome hx⟩⟩
  | some b => exact .inl rfl

theorem flowTableId_run {db : Db} {u : Uuid} {ft : FlowTable} (hu : db.flowTable.deref u = some ft)
    (w : Work) : flowTableId db u w =
      (match ft.id with
        | none => .error (.err (opFailed "Flow-table with no table-id found in OVSDB"))
        | some tid => .ok tid, w) := by
  have hderef : deref (some ft) w = (.ok ft, w) := rfl
  unfold flowTableId
  rw [hu, Prog.bind_run_ok hderef]
  cases ft.id with
  | none => rfl
  | some tid => rfl

/-- The loop that reads the ids of the flow tables. -/
theorem reads_flowTableId (db : Db) (ts : List (Int × Uuid)) (w : Work) :
    Reads (fun t => (db.flowTable.deref t.2).isSome) ts
      (Prog.forEach ts (fun t => do let _ ← flowTableId db t.2)) w := by
  refine reads_forEach (fun t => ?_) ts
  cases ht : db.flowTable.deref t.2 with
  | none =>
    have hcrash : flowTableId db t.2 w = (.error .crash, w) := by
      unfold flowTableId
      rw [ht]
      rfl
    exact .inr ⟨.crash, Prog.bind_run_error hcrash,
      fun _ => ⟨t, List.mem_singleton_self t, congrArg Option.isSome ht⟩⟩
  | some ft =>
    have hrun := flowTableId_run ht w
    cases hid : ft.id with
    | none =>
      rw [hid] at hrun
      exact .inr ⟨_, Prog.bind_run_error hrun, nofun⟩
    | some tid =>
      rw [hid] at hrun
      exact .inl (Prog.bind_run_ok hrun)

/-! ### The functions -/

section Functions

variable {w : Work} {br : Row Bridge}

/-- The ports `ps` were written for the bridge; the copy shows those whose row is
there. -/
def withPorts (w : Work) (u : Uuid) (ps : List Uuid) : Work :=
  { w with idl := { w.idl with
      bridge := w.idl.bridge.update u (fun b => { b with ports := w.idl.port.refs ps })
      written := w.idl.written ++ [.ports u ps] } }

theorem txnDelBridgePort_removal {brName : Option String} (portName : String)
    (hbr : findBridge brName w.idl = some br)
    (hone : br.val.ports.countP
      (fun p => (w.idl.port.deref p).bind Port.name = some portName) ≤ 1) :
    RefRemoval (fun p => (w.idl.port.deref p).isSome)
      (fun p => (w.idl.port.deref p).bind Port.name = some portName)
      br.val.ports w (fun _ ps => withPorts w br.uuid ps) (txnDelBridgePort brName portName w) := by
  cases brName with
  | none => exact .failed _ nofun
  | some name =>
    have hargument : argument (some name) w = (.ok name, w) := rfl
    have hread : readDb (findBridge (some name)) w = (.ok (some br), w) :=
      Prog.read_ok.mpr ⟨hbr, rfl⟩
    have hdb : readDb id w = (.ok w.idl, w) := rfl
    unfold txnDelBridgePort
    rw [Prog.bind_run_ok hargument, Prog.bind_run_ok hread]
    dsimp only
    rw [Prog.bind_run_ok hdb]
    rcases loop_cases hone (reads_deref w.idl.port.deref _ w) with ⟨e, herr, hcrash⟩ |
      ⟨hok, hnone, hkept⟩ | ⟨hok, x, ys, zs, hold, hx, hothers, hkept⟩
    · rw [Prog.bind_run_error herr]
      exact .failed e hcrash
    · rw [Prog.bind_run_ok hok, hkept]
      exact .absent hnone
    · rw [Prog.bind_run_ok hok, hkept]
      exact .removed x ys zs hold hx hothers

/-- The flow tables `ts` were written for the bridge, under their keys. -/
def withFlowTables (w : Work) (u : Uuid) (ts : List (Int × Uuid)) : Work :=
  { w with idl := { w.idl with
      bridge := w.idl.bridge.update u (fun b =>
        { b with flowTables := w.idl.flowTable.keyedRefs ts })
      written := w.idl.written ++ [.flowTables u ts] } }

theorem txnDelBridgeFlowtable_removal {brName : Option String} (tableId : String)
    (hbr : findBridge brName w.idl = some br)
    (hone : br.val.flowTables.countP
      (fun t => (w.idl.flowTable.deref t.2).bind FlowTable.id = some tableId) ≤ 1) :
    RefRemoval (fun t => (w.idl.flowTable.deref t.2).isSome)
      (fun t => (w.idl.flowTable.deref t.2).bind FlowTable.id = some tableId)
      br.val.flowTables w (fun _ ts => withFlowTables w br.uuid ts)
        (txnDelBridgeFlowtable brName tableId w) := by
  cases brName with
  | none => exact .failed _ nofun
  | some name =>
    have hargument : argument (some name) w = (.ok name, w) := rfl
    have hread : readDb (findBridge (some name)) w = (.ok (some br), w) :=
      Prog.read_ok.mpr ⟨hbr, rfl⟩
    have hdb : readDb id w = (.ok w.idl, w) := rfl
    unfold txnDelBridgeFlowtable
    rw [Prog.bind_run_ok hargument, Prog.bind_run_ok hread]
    dsimp only
    rw [Prog.bind_run_ok hdb]
    rcases loop_cases hone (reads_flowTableId w.idl _ w) with ⟨e, herr, hcrash⟩ |
      ⟨hok, hnone, hkept⟩ | ⟨hok, x, ys, zs, hold, hx, hothers, hkept⟩
    · rw [Prog.bind_run_error herr]
      exact .failed e hcrash
    · rw [Prog.bind_run_ok hok, hkept]
      exact .absent hnone
    · rw [Prog.bind_run_ok hok, hkept]
      exact .removed x ys zs hold hx hothers

/-- The bridges `bs` were written for the switch, and the row of `b` was deleted
after that. -/
def withBridges (w : Work) (o b : Uuid) (bs : List Uuid) : Work :=
  { w with idl := { w.idl with
      openVswitch := w.idl.openVswitch.update o (fun v =>
        { v with bridges := w.idl.bridge.refs bs })
      bridge := w.idl.bridge.delete b
      written := w.idl.written ++ [.bridges o bs] } }

theorem txnDelBridge_removal {o : Row OpenVswitch} (brName : Option String)
    (ho : w.idl.openVswitch.first (fun _ => true) = some o)
    (hone : o.val.bridges.countP (fun b => (w.idl.bridge.deref b).bind Bridge.name = brName) ≤ 1) :
    RefRemoval (fun b => (w.idl.bridge.deref b).isSome)
      (fun b => (w.idl.bridge.deref b).bind Bridge.name = brName)
      o.val.bridges w (fun b bs => withBridges w o.uuid b bs) (txnDelBridge brName w) := by
  cases brName with
  | none => exact .failed _ nofun
  | some name =>
    have hargument : argument (some name) w = (.ok name, w) := rfl
    have hrow : openVswitchRow w = (.ok (o.uuid, o.val), w) := by
      have hread : readDb (fun db => db.openVswitch.first (fun _ => true)) w =
          (.ok (some o), w) := Prog.read_ok.mpr ⟨ho, rfl⟩
      unfold openVswitchRow
      rw [Prog.bind_run_ok hread]
      rfl
    have hdb : readDb id w = (.ok w.idl, w) := rfl
    unfold txnDelBridge
    rw [Prog.bind_run_ok hargument, Prog.bind_run_ok hrow]
    dsimp only
    rw [Prog.bind_run_ok hdb]
    rcases loop_cases hone (reads_deref w.idl.bridge.deref _ w) with ⟨e, herr, hcrash⟩ |
      ⟨hok, hnone, hkept⟩ | ⟨hok, b, ys, zs, hold, hb, hothers, hkept⟩
    · rw [Prog.bind_run_error herr]
      exact .failed e hcrash
    · have hfind : o.val.bridges.find?
          (fun b => (w.idl.bridge.deref b).bind Bridge.name = some name) = none :=
        List.find?_eq_none.mpr (fun b hb => by rw [hnone b hb]; exact Bool.false_ne_true)
      rw [Prog.bind_run_ok hok, hfind, hkept]
      dsimp only
      by_cases hempty : o.val.bridges.isEmpty = true
      · rw [if_pos hempty]
        exact .absent hnone
      · rw [if_neg hempty]
        exact .failed _ nofun
    · have hfind : o.val.bridges.find?
          (fun b => (w.idl.bridge.deref b).bind Bridge.name = some name) = some b := by
        rw [hold]
        exact find?_middle hb (fun y hy => hothers y (List.mem_append_left _ hy))
      rw [Prog.bind_run_ok hok, hfind, hkept]
      exact .removed b ys zs hold hb hothers

/-- Without a row of `Open_vSwitch` there is no bridge; `txn_del_bridge` adds an
empty row. -/
theorem txnDelBridge_noRow (name : String)
    (ho : w.idl.openVswitch.first (fun _ => true) = none) :
    txnDelBridge (some name) w = (.ok (), { w with
      next := w.next + 1
      idl := { w.idl with openVswitch := w.idl.openVswitch.insert w.next {} } }) := by
  have hargument : argument (some name) w = (.ok name, w) := rfl
  have hrow : openVswitchRow w = (.ok (w.next, {}), { w with
      next := w.next + 1
      idl := { w.idl with openVswitch := w.idl.openVswitch.insert w.next {} } }) := by
    have hread : readDb (fun db => db.openVswitch.first (fun _ => true)) w = (.ok none, w) :=
      Prog.read_ok.mpr ⟨ho, rfl⟩
    unfold openVswitchRow
    rw [Prog.bind_run_ok hread]
    rfl
  unfold txnDelBridge
  rw [Prog.bind_run_ok hargument, Prog.bind_run_ok hrow]
  rfl

/-- The queues `qs` were written for the row of `QoS`, under their numbers. -/
def withQueues (w : Work) (u : Uuid) (qs : List (Int × Uuid)) : Work :=
  { w with idl := { w.idl with
      qos := w.idl.qos.update u (fun q => { q with queues := w.idl.queue.keyedRefs qs })
      written := w.idl.written ++ [.queues u qs] } }

/-- The row of `QoS` is gone. -/
def withoutQos (w : Work) (u : Uuid) : Work :=
  { w with idl := { w.idl with qos := w.idl.qos.delete u } }

/-- With one entry the row is deleted. -/
theorem txnDelQosQueue_single (u : Uuid) {qos : Qos} (i : Nat) (hlen : qos.queues.length = 1) :
    txnDelQosQueue u qos i w = (.ok true, withoutQos w u) := by
  unfold txnDelQosQueue
  rw [if_pos hlen]
  rfl

/-- With several entries the one at the position of the queue is left out. -/
theorem txnDelQosQueue_several (u : Uuid) {qos : Qos} {rid : String}
    (hlen : qos.queues.length ≠ 1) (hmatch : qos.queues.any (refersTo w.idl rid) = true)
    (hone : qos.queues.countP (refersTo w.idl rid) ≤ 1) :
    ∃ x ys zs, qos.queues = ys ++ x :: zs ∧ refersTo w.idl rid x = true ∧
      (∀ y ∈ ys ++ zs, refersTo w.idl rid y = false) ∧
      copyExcept (queueIndex w.idl rid qos.queues) 0 qos.queues [] = ys ++ zs ∧
      txnDelQosQueue u qos (queueIndex w.idl rid qos.queues) w =
        (.ok false, withQueues w u (ys ++ zs)) := by
  obtain ⟨e, he, href⟩ := List.any_eq_true.mp hmatch
  have hindex : queueIndex w.idl rid qos.queues < qos.queues.length :=
    List.findIdx_lt_length_of_exists ⟨e, he, href⟩
  rcases keepOthers_cases _ hone with ⟨hnone, -⟩ | ⟨x, ys, zs, hold, hx, hothers, -⟩
  · rw [hnone e he] at href
    cases href
  · have hcopy : copyExcept (queueIndex w.idl rid qos.queues) 0 qos.queues [] = ys ++ zs := by
      have hfirst : queueIndex w.idl rid qos.queues = ys.length := by
        rw [queueIndex, hold]
        exact findIdx_middle hx (fun y hy => hothers y (List.mem_append_left _ hy))
      rw [copyExcept_eq, hfirst, hold, List.eraseIdx_append_of_length_le (Nat.le_refl _),
        Nat.sub_self, List.eraseIdx_cons_zero]
    refine ⟨x, ys, zs, hold, hx, hothers, hcopy, ?_⟩
    unfold txnDelQosQueue
    rw [if_neg hlen, if_pos hindex, hcopy]
    rfl

/-- No port has the queue: `txn_del_queue_port` fails before it removes anything. -/
theorem txnDelQueuePort_none {rid : String} (hnone : findQueuePort rid w.idl = none) :
    txnDelQueuePort (some rid) w = (.error (.err invalidInput), w) := by
  have hargument : argument (some rid) w = (.ok rid, w) := rfl
  have hread : readDb (findQueuePort rid) w = (.ok none, w) := Prog.read_ok.mpr ⟨hnone, rfl⟩
  unfold txnDelQueuePort
  rw [Prog.bind_run_ok hargument, Prog.bind_run_ok hread]
  rfl

end Functions

/-! ### All four -/

/-- What the removals of references do in a state, for columns in which one entry
at most is to be removed. -/
structure RemovesExactly (w : Work) : Prop where
  /-- the loop that looks for the entry stores one entry less than there are, at
  most, and what it leaves is what `keepOthers` says -/
  stored : ∀ (α : Type) (remove : α → Bool) (xs : List α),
    (copyOthers remove (xs.length - 1) xs []).2.length ≤ xs.length - 1 ∧
    (xs ≠ [] → keepOthers remove xs =
      Kept.ofCopy (xs.length - 1) (copyOthers remove (xs.length - 1) xs []))
  /-- `txn_del_bridge_port` -/
  bridgePort : ∀ (brName : Option String) (portName : String) (br : Row Bridge),
    findBridge brName w.idl = some br →
    br.val.ports.countP (fun p => (w.idl.port.deref p).bind Port.name = some portName) ≤ 1 →
    RefRemoval (fun p => (w.idl.port.deref p).isSome)
      (fun p => (w.idl.port.deref p).bind Port.name = some portName)
      br.val.ports w (fun _ ps => withPorts w br.uuid ps) (txnDelBridgePort brName portName w)
  /-- `txn_del_bridge_flowtable` -/
  bridgeFlowtable : ∀ (brName : Option String) (tableId : String) (br : Row Bridge),
    findBridge brName w.idl = some br →
    br.val.flowTables.countP
      (fun t => (w.idl.flowTable.deref t.2).bind FlowTable.id = some tableId) ≤ 1 →
    RefRemoval (fun t => (w.idl.flowTable.deref t.2).isSome)
      (fun t => (w.idl.flowTable.deref t.2).bind FlowTable.id = some tableId)
      br.val.flowTables w (fun _ ts => withFlowTables w br.uuid ts)
        (txnDelBridgeFlowtable brName tableId w)
  /-- `txn_del_bridge` -/
  bridge : ∀ (brName : Option String) (o : Row OpenVswitch),
    w.idl.openVswitch.first (fun _ => true) = some o →
    o.val.bridges.countP (fun b => (w.idl.bridge.deref b).bind Bridge.name = brName) ≤ 1 →
    RefRemoval (fun b => (w.idl.bridge.deref b).isSome)
      (fun b => (w.idl.bridge.deref b).bind Bridge.name = brName)
      o.val.bridges w (fun b bs => withBridges w o.uuid b bs) (txnDelBridge brName w)
  /-- `txn_del_bridge` without a row of `Open_vSwitch`: the new row has no bridges -/
  noSwitch : ∀ name : String, w.idl.openVswitch.first (fun _ => true) = none →
    txnDelBridge (some name) w = (.ok (), { w with
      next := w.next + 1
      idl := { w.idl with openVswitch := w.idl.openVswitch.insert w.next {} } })
  /-- `txn_del_qos_queue` on a single entry -/
  qosSingle : ∀ (u : Uuid) (qos : Qos) (i : Nat), qos.queues.length = 1 →
    txnDelQosQueue u qos i w = (.ok true, withoutQos w u)
  /-- `txn_del_qos_queue` on the position its callers found -/
  qosSeveral : ∀ (u : Uuid) (qos : Qos) (rid : String), qos.queues.length ≠ 1 →
    qos.queues.any (refersTo w.idl rid) = true →
    qos.queues.countP (refersTo w.idl rid) ≤ 1 →
    (copyExcept (queueIndex w.idl rid qos.queues) 0 qos.queues []).length =
      qos.queues.length - 1 ∧
    ∃ w', txnDelQosQueue u qos (queueIndex w.idl rid qos.queues) w = (.ok false, w') ∧
      RefRemoval (fun _ => true) (refersTo w.idl rid) qos.queues w
        (fun _ qs => withQueues w u qs) (.ok (), w')
  /-- the callers find a position in the row they hand over, or do not call -/
  qosCallers : ∀ rid : String,
    (∀ port, findQueuePort rid w.idl = some port →
      (portQueues w.idl port.val).any (refersTo w.idl rid) = true) ∧
    (∀ qos, findQos rid w.idl = some qos → qos.val.queues.any (refersTo w.idl rid) = true) ∧
    (findQueuePort rid w.idl = none →
      txnDelQueuePort (some rid) w = (.error (.err invalidInput), w))

/-- In every state, the four functions remove the one reference they are asked
for and keep the others in their order, or change nothing. -/
theorem reference_removal_exact (w : Work) : RemovesExactly w where
  stored α remove xs := ⟨length_copyOthers_le remove _ xs, keepOthers_eq_copy remove⟩
  bridgePort _ portName _ hbr hone := txnDelBridgePort_removal portName hbr hone
  bridgeFlowtable _ tableId _ hbr hone := txnDelBridgeFlowtable_removal tableId hbr hone
  bridge brName _ ho hone := txnDelBridge_removal brName ho hone
  noSwitch name ho := txnDelBridge_noRow name ho
  qosSingle u _ i hlen := txnDelQosQueue_single u i hlen
  qosSeveral u qos rid hlen hmatch hone := by
    obtain ⟨x, ys, zs, hold, hx, hothers, hcopy, hrun⟩ :=
      txnDelQosQueue_several u hlen hmatch hone
    refine ⟨?_, _, hrun, .removed x ys zs hold hx hothers⟩
    rw [hcopy, hold, List.length_append, List.length_append, List.length_cons]
    omega
  qosCallers rid := by
    refine ⟨fun port hport => ?_, fun qos hqos => ?_, txnDelQueuePort_none⟩
    · exact (Table.first_some hport).2
    · exact (Table.first_some hqos).2

/-- A bridge with three ports, of which the last was deleted before in the
transaction. -/
def threePorts : Work :=
  { idl := {
      bridge := [⟨10, false, true, { name := some "br0", ports := [1, 2, 3] }⟩]
      port := [⟨1, false, true, { name := some "p1" }⟩, ⟨2, false, true, { name := some "p2" }⟩,
        ⟨3, false, false, { name := some "p3" }⟩] } }

/-- The array that is written still has the third port, which the copy does not
show any more. -/
theorem reference_removal_exact_three :
    (txnDelBridgePort (some "br0") "p2" threePorts).2.idl.written = [.ports 10 [1, 3]] ∧
    (findBridge (some "br0") (txnDelBridgePort (some "br0") "p2" threePorts).2.idl).map
      (fun br => br.val.ports) = some [1] ∧
    RefRemoval (fun p => (threePorts.idl.port.deref p).isSome)
      (fun p => (threePorts.idl.port.deref p).bind Port.name = some "p2") [1, 2, 3] threePorts
      (fun _ ps => withPorts threePorts 10 ps) (txnDelBridgePort (some "br0") "p2" threePorts) :=
  ⟨by decide, by decide, (reference_removal_exact threePorts).bridgePort (some "br0") "p2"
    ⟨10, false, true, { name := some "br0", ports := [1, 2, 3] }⟩ (by decide)
    (by decide)⟩

end OfConfig.Ovs
