import OfConfig.Ovs.Backend
import OfConfig.Proofs.Queues

/-!
# `OfConfig.Proofs.Removal`: a port and its queues, removed in any order

`txn_del_queue` finds the entry of a queue through the port as long as the
port is there, and through a scan of the `QoS` rows afterwards; with the
last entry the `QoS` row goes. `txn_del_port` does not look at the `QoS`
row of the port.

`Removal` holds what is assumed of the tables. `Stage` describes them after
some of the calls: whether the port is there, and the entries that are left.
`Stage.delPort` and `Stage.delQueue` are the steps, `Stage.run` is the run
in any order, and `removal_commutes_iff` says when everything is gone
afterwards: if and only if the `QoS` row had an entry.
-/

set_option autoImplicit false

namespace OfConfig.Proofs

open OfConfig.Lib OfConfig.Xml OfConfig.Edit OfConfig.Ovs

variable {e : Int × Uuid} {es : List (Int × Uuid)} {t : Uuid} {y : Qos}

/-- A port with its interface and its `QoS` row, in tables without dangling
references where every queue has one entry at most. -/
structure Removal (db : Db) where
  name : String
  port : Uuid
  portRow : Port
  interface : Row Interface
  qos : Uuid
  qosRow : Qos
  distinctPorts : db.port.Distinct
  distinctQos : db.qos.Distinct
  distinctQueues : db.queue.Distinct
  /-- port names are distinct -/
  names : ∀ {u v a b n}, db.port.rowAt u = some a → db.port.rowAt v = some b →
    a.name = some n → b.name = some n → u = v
  /-- resource-ids of queues are distinct -/
  rids : ∀ {u v a b r}, db.queue.rowAt u = some a → db.queue.rowAt v = some b →
    a.rid = some r → b.rid = some r → u = v
  /-- references to `QoS` rows lead to rows -/
  qosThere : ∀ {u a t}, db.port.rowAt u = some a → a.qos = some t → ∃ y, db.qos.rowAt t = some y
  /-- references to queues lead to rows -/
  queueThere : ∀ {t y e}, db.qos.rowAt t = some y → e ∈ y.queues → ∃ q, db.queue.rowAt e.2 = some q
  /-- a queue has one entry at most -/
  once : ∀ {t t' y y' e e'}, db.qos.rowAt t = some y → db.qos.rowAt t' = some y' →
    e ∈ y.queues → e' ∈ y'.queues → e.2 = e'.2 → t = t' ∧ e = e'
  /-- a number has one entry at most in a row -/
  keys : ∀ {t y}, db.qos.rowAt t = some y → (y.queues.map Prod.fst).Nodup
  portAt : db.port.rowAt port = some portRow
  portName : portRow.name = some name
  interfaceAt : findInterface (some name) db = some interface
  portQos : portRow.qos = some qos
  qosAt : db.qos.rowAt qos = some qosRow
  /-- no other port uses the row -/
  alone : ∀ {u a}, db.port.rowAt u = some a → a.qos = some qos → u = port
  /-- the queues of the row have a resource-id -/
  named : ∀ {e q}, e ∈ qosRow.queues → db.queue.rowAt e.2 = some q → q.rid.isSome = true

variable {db : Db} (R : Removal db)

/-- The tables after some of the calls: is the port there, and which entries
are left? -/
structure Stage (there : Bool) (es : List (Int × Uuid)) (w : Work) : Prop where
  distinctPorts : w.idl.port.Distinct
  distinctQos : w.idl.qos.Distinct
  distinctQueues : w.idl.queue.Distinct
  sub : es.Sublist R.qosRow.queues
  portAt : w.idl.port.rowAt R.port = if there then
    some (if es = [] then { R.portRow with qos := none } else R.portRow) else none
  otherPort : ∀ v, v ≠ R.port → w.idl.port.rowAt v = db.port.rowAt v
  qosAt : w.idl.qos.rowAt R.qos = if es = [] then none else some { R.qosRow with queues := es }
  otherQos : ∀ v, v ≠ R.qos → w.idl.qos.rowAt v = db.qos.rowAt v
  queueAt : ∀ v, w.idl.queue.rowAt v =
    if v ∈ R.qosRow.queues.map Prod.snd ∧ v ∉ es.map Prod.snd then none else db.queue.rowAt v
  interfaceAt : w.idl.interface = if there then db.interface else
    db.interface.delete R.interface.uuid

/-- With all entries, if there is one, nothing has happened. -/
theorem Removal.start {w : Work} (hw : w.idl = db) (hne : R.qosRow.queues ≠ []) :
    Stage R true R.qosRow.queues w := by
  subst hw
  refine ⟨R.distinctPorts, R.distinctQos, R.distinctQueues, List.Sublist.refl _, ?_,
    fun _ _ => rfl, ?_, fun _ _ => rfl, fun v => ?_, rfl⟩
  · rw [if_pos rfl, if_neg hne]
    exact R.portAt
  · rw [if_neg hne]
    exact R.qosAt
  · rw [if_neg (fun h => h.2 h.1)]

/-- The `QoS` rows after the entries of the row were replaced. -/
def Removal.restQos (es : List (Int × Uuid)) (t : Table Qos) : Table Qos :=
  if es = [] then t.delete R.qos else t.update R.qos (fun q => { q with queues := es })

/-- The ports after that. -/
def Removal.restPort (there : Bool) (es : List (Int × Uuid)) (t : Table Port) : Table Port :=
  if there = true ∧ es = [] then t.update R.port (fun p => { p with qos := none }) else t

/-- The record of the call that replaced them; a row without entries is
deleted instead. -/
def Removal.restWritten (es : List (Int × Uuid)) (log : List RefWrite) : List RefWrite :=
  if es = [] then log else log ++ [.queues R.qos es]

/-- The database after the entries of the row were replaced. -/
def Removal.unlinked (there : Bool) (es : List (Int × Uuid)) (w : Work) : Work :=
  { w with idl := { w.idl with qos := R.restQos es w.idl.qos
                               port := R.restPort there es w.idl.port
                               written := R.restWritten es w.idl.written } }

theorem Removal.unlinked_false (es : List (Int × Uuid)) (w : Work) :
    R.unlinked false es w = { w with idl := { w.idl with
      qos := R.restQos es w.idl.qos, written := R.restWritten es w.idl.written } } := by
  unfold Removal.unlinked Removal.restPort
  rw [if_neg (fun hand => Bool.false_ne_true hand.1)]

namespace Stage

variable {R} {there : Bool} {es : List (Int × Uuid)} {w : Work} (h : Stage R there es w)

include h

theorem mem (he : e ∈ es) : e ∈ R.qosRow.queues := h.sub.subset he

/-- A queue with an entry that is left is there. -/
theorem queue_of_mem (he : e ∈ es) : w.idl.queue.rowAt e.2 = db.queue.rowAt e.2 := by
  rw [h.queueAt, if_neg (fun hno => hno.2 (List.mem_map_of_mem he))]

/-- The entries of the row that is left. -/
theorem row_of_mem (he : e ∈ es) : w.idl.qos.rowAt R.qos = some { R.qosRow with queues := es } := by
  rw [h.qosAt, if_neg (List.ne_nil_of_mem he)]

/-- An entry of any row leads to the queue it led to before the calls. -/
theorem deref_entry (hy : w.idl.qos.rowAt t = some y) (he : e ∈ y.queues) :
    ∃ y₀ q, db.qos.rowAt t = some y₀ ∧ e ∈ y₀.queues ∧
      (t = R.qos → e ∈ es) ∧ db.queue.rowAt e.2 = some q ∧ w.idl.queue.deref e.2 = some q := by
  by_cases ht : t = R.qos
  · subst ht
    have hne : es ≠ [] := by
      rintro rfl
      rw [h.qosAt, if_pos rfl] at hy
      cases hy
    rw [h.qosAt, if_neg hne] at hy
    obtain rfl := Option.some.inj hy
    obtain ⟨q, hq⟩ := R.queueThere R.qosAt (h.mem he)
    exact ⟨_, q, R.qosAt, h.mem he, fun _ => he, hq,
      h.distinctQueues.deref ((h.queue_of_mem he).trans hq)⟩
  · rw [h.otherQos t ht] at hy
    obtain ⟨q, hq⟩ := R.queueThere hy he
    have hold : w.idl.queue.rowAt e.2 = some q := by
      rw [h.queueAt, if_neg, hq]
      rintro ⟨hmem, -⟩
      obtain ⟨e', he', heq⟩ := List.mem_map.mp hmem
      exact ht (R.once hy R.qosAt he he' heq.symm).1
    exact ⟨y, q, hy, he, fun h' => absurd h' ht, hq, h.distinctQueues.deref hold⟩

/-- No entry is there twice. -/
theorem entries_nodup : es.Nodup := ((h.sub.map _).nodup (R.keys R.qosAt)).of_map

/-- Entries that are left are read as they were written. -/
theorem keyedRefs_eq (p : Int × Uuid → Bool) :
    w.idl.queue.keyedRefs (es.filter p) = es.filter p := by
  refine Table.keyedRefs_of_live _ (fun e he => ?_)
    (((List.filter_sublist.trans h.sub).map _).nodup (R.keys R.qosAt))
  have hmem := (List.mem_filter.mp he).1
  obtain ⟨q, hq⟩ := R.queueThere R.qosAt (h.mem hmem)
  exact (Table.isLive_iff _ _).mpr ⟨q, (h.queue_of_mem hmem).trans hq⟩

/-- The last entry is the only one. -/
theorem length_eq_one_iff (he : e ∈ es) : es.length = 1 ↔ es.filter (fun e' => e' ≠ e) = [] := by
  constructor
  · intro hlen
    obtain ⟨e', rfl⟩ := List.length_eq_one_iff.mp hlen
    obtain rfl := List.mem_singleton.mp he
    simp
  · intro hnil
    rw [List.filter_eq_nil_iff] at hnil
    have hall : ∀ e' ∈ es, e' = e := fun e' he' => by simpa using hnil e' he'
    have hnodup := h.entries_nodup
    rw [List.eq_replicate_of_mem hall] at hnodup ⊢
    have hle := List.nodup_replicate.mp hnodup
    have hpos := List.length_pos_of_mem he
    rw [List.length_replicate]
    omega

variable {e : Int × Uuid} {q : Queue} {r : String} (he : e ∈ es)
  (hq : db.queue.rowAt e.2 = some q) (hr : q.rid = some r)

include he hq hr

/-- The only entry that refers to a resource-id of the row. -/
theorem refersTo_iff (hy : w.idl.qos.rowAt t = some y) {e' : Int × Uuid} (he' : e' ∈ y.queues) :
    refersTo w.idl r e' = true ↔ t = R.qos ∧ e' = e := by
  obtain ⟨y₀, q', hy₀, hmem, -, hq', hderef⟩ := h.deref_entry hy he'
  rw [refersTo, hderef, Option.bind_some, decide_eq_true_iff]
  constructor
  · intro hr'
    exact R.once hy₀ R.qosAt hmem (h.mem he) (R.rids hq' hq hr' hr)
  · rintro ⟨-, rfl⟩
    obtain rfl : q' = q := Option.some.inj (hq'.symm.trans hq)
    exact hr

/-- The entries without the one of a queue. -/
theorem eraseIdx_eq : es.eraseIdx (queueIndex w.idl r es) = es.filter (fun e' => e' ≠ e) := by
  have hrow := h.row_of_mem he
  have hiff : ∀ e' ∈ es, refersTo w.idl r e' = true ↔ e' = e := fun e' he' =>
    (h.refersTo_iff he hq hr hrow he').trans (and_iff_right rfl)
  rw [queueIndex, eraseIdx_findIdx h.entries_nodup fun a ha b hb hra hrb =>
    ((hiff a ha).mp hra).trans ((hiff b hb).mp hrb).symm]
  refine List.filter_congr fun e' he' => ?_
  by_cases heq : e' = e
  · rw [(hiff e' he').mpr heq]
    simp [heq]
  · rw [Bool.eq_false_iff.mpr fun href => heq ((hiff e' he').mp href)]
    simp [heq]

/-- Only the port of the removal leads to the entry. -/
theorem port_of_entry {v : Uuid} {a : Port} (hv : w.idl.port.rowAt v = some a)
    (hany : (portQueues w.idl a).any (refersTo w.idl r) = true) :
    there = true ∧ v = R.port ∧ a = R.portRow := by
  by_cases hport : v = R.port
  · subst hport
    rw [h.portAt] at hv
    cases there with
    | false => cases hv
    | true =>
      rw [if_pos rfl, if_neg (List.ne_nil_of_mem he)] at hv
      exact ⟨rfl, rfl, (Option.some.inj hv).symm⟩
  · rw [h.otherPort v hport] at hv
    exfalso
    obtain ⟨e', he', href⟩ := List.any_eq_true.mp hany
    cases hqos : a.qos with
    | none => simp [portQueues, hqos] at he'
    | some t =>
      have ht : t ≠ R.qos := by
        rintro rfl
        exact hport (R.alone hv hqos)
      obtain ⟨y, hy⟩ := R.qosThere hv hqos
      have hy' : w.idl.qos.rowAt t = some y := (h.otherQos t ht).trans hy
      have hqueues : portQueues w.idl a = y.queues := by
        simp [portQueues, hqos, h.distinctQos.deref hy']
      rw [hqueues] at he'
      exact ht ((h.refersTo_iff he hq hr hy' he').mp href).1

/-- The entry is found at the port, as long as the port is there. -/
theorem findQueuePort_eq (hthere : there = true) :
    ∃ row, findQueuePort r w.idl = some row ∧ row.uuid = R.port ∧ row.val = R.portRow := by
  have hport : w.idl.port.rowAt R.port = some R.portRow := by
    rw [h.portAt, if_pos hthere, if_neg (List.ne_nil_of_mem he)]
  have hqueues : portQueues w.idl R.portRow = es := by
    simp [portQueues, R.portQos, h.distinctQos.deref (h.row_of_mem he)]
  cases hf : findQueuePort r w.idl with
  | none =>
    have hno := Table.first_none hf hport
    rw [hqueues, List.any_eq_false] at hno
    exact absurd ((h.refersTo_iff he hq hr (h.row_of_mem he) he).mpr ⟨rfl, rfl⟩) (hno e he)
  | some row =>
    obtain ⟨hrow, hany⟩ := h.distinctPorts.first hf
    obtain ⟨-, huuid, hval⟩ := h.port_of_entry he hq hr hrow hany
    exact ⟨row, rfl, huuid, hval⟩

theorem findQueuePort_none (hthere : there = false) : findQueuePort r w.idl = none := by
  cases hf : findQueuePort r w.idl with
  | none => rfl
  | some row =>
    obtain ⟨hrow, hany⟩ := h.distinctPorts.first hf
    obtain ⟨htrue, -⟩ := h.port_of_entry he hq hr hrow hany
    rw [hthere] at htrue
    cases htrue

/-- The scan of the rows finds the entry. -/
theorem findQos_eq : ∃ row, findQos r w.idl = some row ∧ row.uuid = R.qos ∧
    row.val = { R.qosRow with queues := es } := by
  have hrow := h.row_of_mem he
  cases hf : findQos r w.idl with
  | none =>
    have hno := Table.first_none hf hrow
    rw [List.any_eq_false] at hno
    exact absurd ((h.refersTo_iff he hq hr hrow he).mpr ⟨rfl, rfl⟩) (hno e he)
  | some row =>
    obtain ⟨hat, hany⟩ := h.distinctQos.first hf
    obtain ⟨e', he', href⟩ := List.any_eq_true.mp hany
    obtain ⟨huuid, -⟩ := (h.refersTo_iff he hq hr hat he').mp href
    rw [huuid, hrow] at hat
    exact ⟨row, rfl, huuid, (Option.some.inj hat).symm⟩

/-- `txn_del_qos_queue` takes the entry off, or the row with its last
entry. -/
theorem delQosQueue_run : txnDelQosQueue R.qos { R.qosRow with queues := es }
      (queueIndex w.idl r es) w =
    (.ok (decide (es.filter (fun e' => e' ≠ e) = [])), { w with idl := { w.idl with
      qos := R.restQos (es.filter (fun e' => e' ≠ e)) w.idl.qos
      written := R.restWritten (es.filter (fun e' => e' ≠ e)) w.idl.written } }) := by
  have hiff := h.length_eq_one_iff he
  have herase := h.eraseIdx_eq he hq hr
  have hkeyed := h.keyedRefs_eq (fun e' => e' ≠ e)
  have hindex : queueIndex w.idl r es < es.length :=
    List.findIdx_lt_length_of_exists
      ⟨e, he, (h.refersTo_iff he hq hr (h.row_of_mem he) he).mpr ⟨rfl, rfl⟩⟩
  generalize es.filter (fun e' => e' ≠ e) = rest at hiff herase hkeyed ⊢
  unfold txnDelQosQueue Removal.restQos Removal.restWritten
  by_cases hnil : rest = []
  · rw [if_pos (hiff.mpr hnil), if_pos hnil, if_pos hnil, decide_eq_true hnil]
    rfl
  · rw [if_neg (fun hlen => hnil (hiff.mp hlen)), if_pos hindex, if_neg hnil, if_neg hnil,
      decide_eq_false hnil, copyExcept_eq]
    have hset : setQueues R.qos (es.eraseIdx (queueIndex w.idl r es)) w =
        (.ok (), { w with idl := { w.idl with
          qos := w.idl.qos.update R.qos (fun q => { q with queues := rest })
          written := w.idl.written ++ [.queues R.qos rest] } }) := by
      have hset : setQueues R.qos rest w = (.ok (), { w with idl := { w.idl with
          qos := w.idl.qos.update R.qos (fun q =>
            { q with queues := w.idl.queue.keyedRefs rest })
          written := w.idl.written ++ [.queues R.qos rest] } }) := rfl
      rw [herase, hset, hkeyed]
    exact Prog.bind_run_ok hset

/-- `txn_del_queue_port` finds the entry at the port. -/
theorem delQueuePort_run (hthere : there = true) : txnDelQueuePort (some r) w =
    (.ok (), R.unlinked there (es.filter (fun e' => e' ≠ e)) w) := by
  obtain ⟨row, hfind, huuid, hval⟩ := h.findQueuePort_eq he hq hr hthere
  have hdel := h.delQosQueue_run he hq hr
  generalize es.filter (fun e' => e' ≠ e) = rest at hdel ⊢
  have hargument : argument (some r) w = (.ok r, w) := rfl
  have hread : readDb (findQueuePort r) w = (.ok (some row), w) := Prog.read_ok.mpr ⟨hfind, rfl⟩
  have hqos : deref row.val.qos w = (.ok R.qos, w) :=
    Prog.ofOption_ok.mpr ⟨hval ▸ R.portQos, rfl⟩
  have hrow : readDb (fun db => db.qos.deref R.qos) w =
      (.ok (some { R.qosRow with queues := es }), w) :=
    Prog.read_ok.mpr ⟨h.distinctQos.deref (h.row_of_mem he), rfl⟩
  have hderef : deref (some { R.qosRow with queues := es }) w =
      (.ok { R.qosRow with queues := es }, w) := rfl
  have hindex : readDb (fun db => queueIndex db r es) w = (.ok (queueIndex w.idl r es), w) := rfl
  unfold txnDelQueuePort
  rw [Prog.bind_run_ok hargument, Prog.bind_run_ok hread]
  dsimp only
  rw [Prog.bind_run_ok hqos, Prog.bind_run_ok hrow, Prog.bind_run_ok hderef,
    Prog.bind_run_ok hindex,
    Prog.bind_run_ok hdel]
  by_cases hnil : rest = []
  · rw [if_pos (decide_eq_true hnil), huuid]
    unfold Removal.unlinked Removal.restPort
    rw [if_pos ⟨hthere, hnil⟩]
    rfl
  · rw [if_neg (by simp [hnil])]
    unfold Removal.unlinked Removal.restPort
    rw [if_neg (fun hand => hnil hand.2)]
    rfl

/-- The queue is found in the table of queues. -/
theorem findQueue_eq : ∃ row, findQueue (some r) w.idl = some row ∧ row.uuid = e.2 := by
  have hat : w.idl.queue.rowAt e.2 = some q := (h.queue_of_mem he).trans hq
  cases hf : findQueue (some r) w.idl with
  | none =>
    have hfirst : w.idl.queue.first (fun q => q.rid = some r) = none := hf
    exact absurd hr (of_decide_eq_false (Table.first_none hfirst hat))
  | some row =>
    have hfirst : w.idl.queue.first (fun q => q.rid = some r) = some row := hf
    obtain ⟨hrow, hrid⟩ := h.distinctQueues.first hfirst
    refine ⟨row, rfl, ?_⟩
    rw [h.queueAt] at hrow
    split at hrow
    · cases hrow
    · exact R.rids hrow hq (of_decide_eq_true hrid) hr

/-- `txn_del_queue` unlinks the queue and deletes it, whether the port is
there or not. -/
theorem delQueue_run : txnDelQueue (some r) w = (.ok (),
    { R.unlinked there (es.filter (fun e' => e' ≠ e)) w with
      idl := { (R.unlinked there (es.filter (fun e' => e' ≠ e)) w).idl with
        queue := w.idl.queue.delete e.2 } }) := by
  obtain ⟨queue, hqueue, huuid⟩ := h.findQueue_eq he hq hr
  have hargument : argument (some r) w = (.ok r, w) := rfl
  have hfind : readDb (findQueue (some r)) (R.unlinked there (es.filter (fun e' => e' ≠ e)) w) =
      (.ok (some queue), R.unlinked there (es.filter (fun e' => e' ≠ e)) w) :=
    Prog.read_ok.mpr ⟨hqueue, rfl⟩
  unfold txnDelQueue
  rw [Prog.bind_run_ok hargument]
  cases there with
  | true =>
    obtain ⟨row, hport, -, -⟩ := h.findQueuePort_eq he hq hr rfl
    have hread : readDb (findQueuePort r) w = (.ok (some row), w) :=
      Prog.read_ok.mpr ⟨hport, rfl⟩
    rw [Prog.bind_run_ok hread]
    dsimp only
    rw [Prog.bind_run_ok (h.delQueuePort_run he hq hr rfl), Prog.bind_run_ok hfind]
    dsimp only
    rw [huuid]
    rfl
  | false =>
    have hread : readDb (findQueuePort r) w = (.ok none, w) :=
      Prog.read_ok.mpr ⟨h.findQueuePort_none he hq hr rfl, rfl⟩
    obtain ⟨row, hqos, hrowid, hrowval⟩ := h.findQos_eq he hq hr
    have hscan : readDb (findQos r) w = (.ok (some row), w) := Prog.read_ok.mpr ⟨hqos, rfl⟩
    have hdel := h.delQosQueue_run he hq hr
    have hindex : readDb (fun db => queueIndex db r row.val.queues) w =
        (.ok (queueIndex w.idl r es), w) := by rw [hrowval]; rfl
    rw [← hrowval, ← hrowid, ← R.unlinked_false] at hdel
    rw [Prog.bind_run_ok hread]
    dsimp only
    rw [Prog.bind_run_ok hscan]
    dsimp only
    rw [Prog.bind_run_ok hindex, Prog.bind_run_ok hdel, Prog.bind_run_ok hfind]
    dsimp only
    rw [huuid]
    rfl

omit hq hr in
/-- The queues that are left without an entry. -/
theorem not_mem_rest_iff (v : Uuid) :
    v ∉ (es.filter (fun e' => e' ≠ e)).map Prod.snd ↔ v = e.2 ∨ v ∉ es.map Prod.snd := by
  have hone : ∀ e' ∈ es, e'.2 = e.2 → e' = e := fun e' he' heq =>
    (R.once R.qosAt R.qosAt (h.mem he') (h.mem he) heq).2
  simp only [List.mem_map, List.mem_filter, decide_eq_true_eq, not_exists]
  constructor
  · intro hno
    by_cases hv : v = e.2
    · exact .inl hv
    · refine .inr fun e' hand => hno e' ⟨⟨hand.1, ?_⟩, hand.2⟩
      rintro rfl
      exact hv hand.2.symm
  · rintro (rfl | hno) e' ⟨⟨he', hne⟩, heq⟩
    · exact hne (hone e' he' heq)
    · exact hno e' ⟨he', heq⟩

/-- The step for a queue. -/
theorem delQueue : ∃ w', txnDelQueue (some r) w = (.ok (), w') ∧
    Stage R there (es.filter (fun e' => e' ≠ e)) w' := by
  refine ⟨_, h.delQueue_run he hq hr, ?_⟩
  have hrest := h.not_mem_rest_iff he
  have hsub : (es.filter (fun e' => e' ≠ e)).Sublist es := List.filter_sublist
  have hrow := h.row_of_mem he
  generalize es.filter (fun e' => e' ≠ e) = rest at hrest hsub ⊢
  have hes : es ≠ [] := List.ne_nil_of_mem he
  refine ⟨?_, ?_, h.distinctQueues.delete e.2, hsub.trans h.sub, ?_, fun v hv => ?_, ?_,
    fun v hv => ?_, fun v => ?_, h.interfaceAt⟩
  · show (R.restPort there rest w.idl.port).Distinct
    unfold Removal.restPort
    split
    · exact h.distinctPorts.update _ _
    · exact h.distinctPorts
  · show (R.restQos rest w.idl.qos).Distinct
    unfold Removal.restQos
    split
    · exact h.distinctQos.delete _
    · exact h.distinctQos.update _ _
  · show (R.restPort there rest w.idl.port).rowAt R.port = _
    unfold Removal.restPort
    by_cases hthere : there = true
    · by_cases hnil : rest = []
      · rw [if_pos ⟨hthere, hnil⟩, Table.rowAt_update, if_pos rfl, h.portAt, if_pos hthere,
          if_pos hthere, if_neg hes, if_pos hnil]
        rfl
      · rw [if_neg (fun hand => hnil hand.2), h.portAt, if_pos hthere, if_pos hthere, if_neg hes,
          if_neg hnil]
    · rw [if_neg (fun hand => hthere hand.1), h.portAt, if_neg hthere, if_neg hthere]
  · show (R.restPort there rest w.idl.port).rowAt v = _
    unfold Removal.restPort
    split
    · rw [Table.rowAt_update, if_neg hv, h.otherPort v hv]
    · exact h.otherPort v hv
  · show (R.restQos rest w.idl.qos).rowAt R.qos = _
    unfold Removal.restQos
    by_cases hnil : rest = []
    · rw [if_pos hnil, if_pos hnil, Table.rowAt_delete_self]
    · rw [if_neg hnil, if_neg hnil, Table.rowAt_update, if_pos rfl, hrow]
      rfl
  · show (R.restQos rest w.idl.qos).rowAt v = _
    unfold Removal.restQos
    split
    · rw [Table.rowAt_delete, if_neg hv, h.otherQos v hv]
    · rw [Table.rowAt_update, if_neg hv, h.otherQos v hv]
  · show (w.idl.queue.delete e.2).rowAt v = _
    rw [Table.rowAt_delete, h.queueAt]
    by_cases hv : v = e.2
    · rw [if_pos hv, if_pos ⟨hv ▸ List.mem_map_of_mem (h.mem he), (hrest v).mpr (.inl hv)⟩]
    · have hsame : v ∉ rest.map Prod.snd ↔ v ∉ es.map Prod.snd :=
        (hrest v).trans (or_iff_right hv)
      rw [if_neg hv]
      simp only [hsame]

omit he hq hr in
/-- The port is found by its name. -/
theorem findPort_eq (hthere : there = true) :
    ∃ row, findPort (some R.name) w.idl = some row ∧ row.uuid = R.port := by
  obtain ⟨a, hat, hname⟩ : ∃ a, w.idl.port.rowAt R.port = some a ∧ a.name = some R.name := by
    rw [h.portAt, if_pos hthere]
    split
    · exact ⟨_, rfl, R.portName⟩
    · exact ⟨_, rfl, R.portName⟩
  cases hf : findPort (some R.name) w.idl with
  | none => exact absurd hname.symm (of_decide_eq_false (Table.first_none hf hat))
  | some row =>
    obtain ⟨hrow, hrowName⟩ := h.distinctPorts.first hf
    refine ⟨row, rfl, ?_⟩
    by_contra hne
    rw [h.otherPort _ hne] at hrow
    exact hne (R.names hrow R.portAt (of_decide_eq_true hrowName).symm R.portName)

omit he hq hr in
/-- The step for the port. -/
theorem delPort (hthere : there = true) : ∃ w', txnDelPort (some R.name) w = (.ok (), w') ∧
    Stage R false es w' := by
  obtain ⟨row, hfind, huuid⟩ := h.findPort_eq hthere
  have hiface : findInterface (some R.name) w.idl = some R.interface := by
    unfold findInterface
    rw [h.interfaceAt, if_pos hthere]
    exact R.interfaceAt
  refine ⟨{ w with idl := { w.idl with port := w.idl.port.delete R.port
                                       interface := w.idl.interface.delete R.interface.uuid } },
    ?_, h.distinctPorts.delete _, h.distinctQos, h.distinctQueues, h.sub, ?_, fun v hv => ?_,
    h.qosAt, h.otherQos, h.queueAt, ?_⟩
  · have hargument : argument (some R.name) w = (.ok R.name, w) := rfl
    have hport : readDb (findPort (some R.name)) w = (.ok (some row), w) :=
      Prog.read_ok.mpr ⟨hfind, rfl⟩
    have hinterface : readDb (findInterface (some R.name)) w = (.ok (some R.interface), w) :=
      Prog.read_ok.mpr ⟨hiface, rfl⟩
    unfold txnDelPort
    rw [Prog.bind_run_ok hargument, Prog.bind_run_ok hport, Prog.bind_run_ok hinterface]
    dsimp only
    rw [huuid]
    rfl
  · exact Table.rowAt_delete_self _ _
  · exact (Table.rowAt_delete _ _ _).trans ((if_neg hv).trans (h.otherPort v hv))
  · show w.idl.interface.delete _ = _
    rw [h.interfaceAt, if_pos hthere, if_neg Bool.false_ne_true]

end Stage

/-! ### Runs -/

/-- The calls: `txn_del_port` for the port, `txn_del_queue` for a queue of
its row. -/
inductive DelCall where
  | port
  | queue (rid : String)

/-- The call. -/
def Removal.exec : DelCall → Txn Unit
  | .port => txnDelPort (some R.name)
  | .queue rid => txnDelQueue (some rid)

/-- The calls that are left. -/
def delCalls (db : Db) (there : Bool) (es : List (Int × Uuid)) : List DelCall :=
  (if there then [.port] else []) ++
    (es.filterMap (fun e => (db.queue.rowAt e.2).bind Queue.rid)).map .queue

/-- Everything is gone, and nothing else was changed. -/
structure Removal.Gone (w : Work) : Prop where
  port : ∀ v, w.idl.port.rowAt v = if v = R.port then none else db.port.rowAt v
  interface : ∀ v, w.idl.interface.rowAt v =
    if v = R.interface.uuid then none else db.interface.rowAt v
  qos : ∀ v, w.idl.qos.rowAt v = if v = R.qos then none else db.qos.rowAt v
  queue : ∀ v, w.idl.queue.rowAt v =
    if v ∈ R.qosRow.queues.map Prod.snd then none else db.queue.rowAt v

/-- A queue of the row, and its resource-id. -/
theorem Removal.queue_of_mem (he : e ∈ R.qosRow.queues) :
    ∃ q r, db.queue.rowAt e.2 = some q ∧ q.rid = some r := by
  obtain ⟨q, hq⟩ := R.queueThere R.qosAt he
  obtain ⟨r, hr⟩ := Option.isSome_iff_exists.mp (R.named he hq)
  exact ⟨q, r, hq, hr⟩

/-- One of the calls, and those that are left after it. -/
theorem delCalls_perm {there : Bool} (hn : es.Nodup) (he : e ∈ es) {q : Queue} {r : String}
    (hq : db.queue.rowAt e.2 = some q) (hr : q.rid = some r) :
    (delCalls db there es).Perm (.queue r :: delCalls db there (es.filter (fun e' => e' ≠ e))) := by
  have herase : es.erase e = es.filter (fun e' => e' ≠ e) := by
    rw [hn.erase_eq_filter]
    exact List.filter_congr fun b _ => by simp [bne, beq_eq_decide]
  have hperm := List.perm_cons_erase he
  rw [herase] at hperm
  have hrids := ((hperm.filterMap (fun e => (db.queue.rowAt e.2).bind Queue.rid)).map
    DelCall.queue).append_left (if there then [.port] else [])
  have hhead : (db.queue.rowAt e.2).bind Queue.rid = some r := by rw [hq, Option.bind_some, hr]
  have hcons : (e :: es.filter (fun e' => e' ≠ e)).filterMap
      (fun e => (db.queue.rowAt e.2).bind Queue.rid) =
      r :: (es.filter (fun e' => e' ≠ e)).filterMap
        (fun e => (db.queue.rowAt e.2).bind Queue.rid) :=
    List.filterMap_cons_some hhead
  rw [hcons, List.map_cons] at hrids
  exact hrids.trans List.perm_middle

namespace Stage

variable {R} {there : Bool} {es : List (Int × Uuid)} {w : Work}

/-- Without a call that is left, everything is gone. -/
theorem gone (h : Stage R there es w) (hnil : delCalls db there es = []) : R.Gone w := by
  obtain ⟨hport, hqueues⟩ := List.append_eq_nil_iff.mp hnil
  obtain rfl : there = false := by
    cases there with
    | false => rfl
    | true => cases hport
  obtain rfl : es = [] := by
    refine List.eq_nil_iff_forall_not_mem.mpr fun e he => ?_
    obtain ⟨q, r, hq, hr⟩ := R.queue_of_mem (h.mem he)
    rw [List.map_eq_nil_iff, List.filterMap_eq_nil_iff] at hqueues
    have hnone := hqueues e he
    rw [hq, Option.bind_some, hr] at hnone
    cases hnone
  refine ⟨fun v => ?_, fun v => ?_, fun v => ?_, fun v => ?_⟩
  · by_cases hv : v = R.port
    · rw [if_pos hv, hv, h.portAt, if_neg Bool.false_ne_true]
    · rw [if_neg hv, h.otherPort v hv]
  · rw [h.interfaceAt, if_neg Bool.false_ne_true, Table.rowAt_delete]
  · by_cases hv : v = R.qos
    · rw [if_pos hv, hv, h.qosAt, if_pos rfl]
    · rw [if_neg hv, h.otherQos v hv]
  · rw [h.queueAt]
    simp only [List.map_nil, List.not_mem_nil, not_false_eq_true, and_true]

/-- All orders of the calls that are left end alike. -/
theorem run {calls : List DelCall} (h : Stage R there es w)
    (hp : calls.Perm (delCalls db there es)) :
    ∃ w', Prog.forEach calls R.exec w = (.ok (), w') ∧ R.Gone w' := by
  induction calls generalizing there es w with
  | nil => exact ⟨w, rfl, h.gone (List.nil_perm.mp hp)⟩
  | cons c calls ih =>
    have hstep : ∃ w₁ there' es', R.exec c w = (.ok (), w₁) ∧ Stage R there' es' w₁ ∧
        calls.Perm (delCalls db there' es') := by
      rcases List.mem_append.mp (hp.subset List.mem_cons_self) with hport | hqueue
      · cases there with
        | false => cases hport
        | true =>
          obtain rfl := List.mem_singleton.mp hport
          obtain ⟨w₁, hrun, hstage⟩ := h.delPort rfl
          exact ⟨w₁, false, es, hrun, hstage, hp.cons_inv⟩
      · obtain ⟨r, hr, rfl⟩ := List.mem_map.mp hqueue
        obtain ⟨e, he, hrid⟩ := List.mem_filterMap.mp hr
        obtain ⟨q, hq, hr'⟩ := Option.bind_eq_some_iff.mp hrid
        obtain ⟨w₁, hrun, hstage⟩ := h.delQueue he hq hr'
        have hn : es.Nodup := ((h.sub.map _).nodup (R.keys R.qosAt)).of_map
        exact ⟨w₁, there, _, hrun, hstage, (hp.trans (delCalls_perm hn he hq hr')).cons_inv⟩
    obtain ⟨w₁, there', es', hrun, hstage, hp'⟩ := hstep
    obtain ⟨w', hrest, hgone⟩ := ih hstage hp'
    exact ⟨w', (Prog.bind_run_ok hrun).trans hrest, hgone⟩

end Stage

/-- The port and the queues of its `QoS` row can be removed in any order, and
everything is gone then, if and only if the row has an entry. -/
theorem removal_commutes_iff {w : Work} (R : Removal w.idl) :
    (∀ calls : List DelCall, calls.Perm (delCalls w.idl true R.qosRow.queues) →
      ∃ w', Prog.forEach calls R.exec w = (.ok (), w') ∧ R.Gone w') ↔ R.qosRow.queues ≠ [] := by
  constructor
  · intro hall hnil
    obtain ⟨w', hrun, hgone⟩ := hall [.port] (by rw [hnil]; exact List.Perm.refl _)
    obtain ⟨_, w₁, h₁, h₂⟩ := Prog.bind_ok.mp hrun
    obtain ⟨-, rfl⟩ := Prog.pure_ok.mp h₂
    obtain ⟨n, row, iface, -, -, rfl⟩ := delPort_ok h₁
    -- `txn_del_port` has left the row where it was
    have hrow : w.idl.qos.rowAt R.qos = none := (hgone.qos R.qos).trans (if_pos rfl)
    rw [R.qosAt] at hrow
    cases hrow
  · intro hne calls hp
    exact (R.start rfl hne).run hp

/-! ### A row with two queues, and one without -/

/-- A port, its interface and a `QoS` row with the given entries. -/
def portWithQos (es : List (Int × Uuid)) : Work where
  idl :=
    { port := [⟨0, false, true, { name := some "p", qos := some 2 }⟩]
      interface := [⟨1, false, true, { name := some "p" }⟩]
      qos := [⟨2, false, true, ⟨some qosType, es⟩⟩]
      queue := [⟨3, false, true, ⟨[(ofcResourceId, "a")], []⟩⟩,
        ⟨4, false, true, ⟨[(ofcResourceId, "b")], []⟩⟩] }

theorem portWithQos_port {u : Uuid} {a : Port} (h : (portWithQos es).idl.port.rowAt u = some a) :
    u = 0 ∧ a = { name := some "p", qos := some 2 } := by
  simp only [portWithQos, Table.rowAt_cons] at h
  grind [Table.rowAt, Table.live]

theorem portWithQos_qos (h : (portWithQos es).idl.qos.rowAt t = some y) :
    t = 2 ∧ y = ⟨some qosType, es⟩ := by
  simp only [portWithQos, Table.rowAt_cons] at h
  grind [Table.rowAt, Table.live]

theorem portWithQos_queue {u : Uuid} {q : Queue} (h : (portWithQos es).idl.queue.rowAt u = some q) :
    u = 3 ∧ q.rid = some "a" ∨ u = 4 ∧ q.rid = some "b" := by
  simp only [portWithQos, Table.rowAt_cons] at h
  split at h
  · next hu =>
      cases h
      exact .inl ⟨hu.2.symm, by decide⟩
  · split at h
    · next hu =>
        cases h
        exact .inr ⟨hu.2.symm, by decide⟩
    · cases h

/-- What is assumed of the tables holds there. -/
def portWithQosRemoval (es : List (Int × Uuid)) (hkeys : (es.map Prod.fst).Nodup)
    (hqueues : (es.map Prod.snd).Nodup) (hmem : ∀ e ∈ es, e.2 = 3 ∨ e.2 = 4) :
    Removal (portWithQos es).idl where
  name := "p"
  port := 0
  portRow := { name := some "p", qos := some 2 }
  interface := ⟨1, false, true, { name := some "p" }⟩
  qos := 2
  qosRow := ⟨some qosType, es⟩
  distinctPorts := by simp [Table.Distinct, portWithQos]
  distinctQos := by simp [Table.Distinct, portWithQos]
  distinctQueues := by simp [Table.Distinct, portWithQos]
  names ha hb _ _ := (portWithQos_port ha).1.trans (portWithQos_port hb).1.symm
  rids ha hb hr hr' := by
    have hab : "a" ≠ "b" := by decide
    rcases portWithQos_queue ha with ⟨rfl, hra⟩ | ⟨rfl, hra⟩ <;>
      rcases portWithQos_queue hb with ⟨rfl, hrb⟩ | ⟨rfl, hrb⟩ <;> simp_all
  qosThere ha ht := by
    obtain ⟨-, rfl⟩ := portWithQos_port ha
    obtain rfl := Option.some.inj ht
    exact ⟨⟨some qosType, es⟩, rfl⟩
  queueThere hy he := by
    obtain ⟨-, rfl⟩ := portWithQos_qos hy
    rcases hmem _ he with h3 | h4
    · rw [h3]
      exact ⟨_, rfl⟩
    · rw [h4]
      exact ⟨_, rfl⟩
  once hy hy' he he' heq := by
    obtain ⟨rfl, rfl⟩ := portWithQos_qos hy
    obtain ⟨rfl, rfl⟩ := portWithQos_qos hy'
    exact ⟨rfl, List.inj_on_of_nodup_map hqueues he he' heq⟩
  keys hy := by
    obtain ⟨-, rfl⟩ := portWithQos_qos hy
    exact hkeys
  portAt := rfl
  portName := rfl
  interfaceAt := rfl
  portQos := rfl
  qosAt := rfl
  alone ha _ := (portWithQos_port ha).1
  named _ hq := by
    rcases portWithQos_queue hq with ⟨-, hr⟩ | ⟨-, hr⟩ <;> rw [hr] <;> rfl

/-- Two queues and the port, in all six orders. -/
theorem removal_commutes_two :
    ∃ R : Removal (portWithQos [(1, 3), (2, 4)]).idl,
      delCalls (portWithQos [(1, 3), (2, 4)]).idl true R.qosRow.queues =
        [.port, .queue "a", .queue "b"] ∧
      ∀ calls : List DelCall, calls.Perm [.port, .queue "a", .queue "b"] →
        ∃ w', Prog.forEach calls R.exec (portWithQos [(1, 3), (2, 4)]) = (.ok (), w') ∧
          R.Gone w' := by
  refine ⟨portWithQosRemoval [(1, 3), (2, 4)] (by decide) (by decide) (by decide), rfl, ?_⟩
  exact (removal_commutes_iff
    (portWithQosRemoval [(1, 3), (2, 4)] (by decide) (by decide) (by decide))).mpr (by decide)

/-- A row without an entry stays when its port goes, and no call is left that
could remove it. -/
theorem empty_qos_stays :
    ∃ R : Removal (portWithQos []).idl,
      delCalls (portWithQos []).idl true R.qosRow.queues = [.port] ∧
      (R.exec .port (portWithQos [])).1 = .ok () ∧
      (R.exec .port (portWithQos [])).2.idl.port.live = [] ∧
      (R.exec .port (portWithQos [])).2.idl.qos.rowAt R.qos = some ⟨some qosType, []⟩ :=
  ⟨portWithQosRemoval [] (by decide) (by decide) (by decide), rfl, by decide,
    by decide, by decide⟩

end OfConfig.Proofs
