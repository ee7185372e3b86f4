import OfConfig.Proofs.Queues

/-!
# `OfConfig.Proofs.QueueRuns`: queues over whole runs

A run is a list of calls of the functions on queues, in one transaction or
in several. `linksAfter` follows the port each queue was linked to last.
The tables do not always hold these links: `txn_del_port` leaves the `QoS`
row of the port behind (`deleted_port_keeps_entry`), a second
`txn_add_queue_port` adds an entry and leaves the first, two queues of one
number share an entry, and a number of 2^63 or more is clamped. `Careful`
excludes these calls, and `queues_linked_of_careful` shows that then the
tables hold the links after every run.
-/

set_option autoImplicit false

namespace OfConfig.Proofs

open OfConfig.Lib OfConfig.Xml OfConfig.Edit OfConfig.Ovs

/-! ### Calls -/

/-- A call on queues, or the commit of the transaction. -/
inductive QueueCall where
  | addQueue (node : Node)
  | modQueueId (rid id : Option String)
  | addQueuePort (rid port : Option String)
  | delQueuePort (rid : Option String)
  | delQueue (rid : Option String)
  | delPort (name : Option String)
  | commit (stored : Db)

namespace QueueCall

/-- What the call does. -/
def exec : QueueCall → Txn Unit
  | addQueue node => txnAddQueue node
  | modQueueId rid id => txnModQueueId rid id
  | addQueuePort rid port => txnAddQueuePort rid port
  | delQueuePort rid => txnDelQueuePort rid
  | delQueue rid => txnDelQueue rid
  | delPort name => txnDelPort name
  | commit stored => modifyDb (pending stored)

/-- What a call that succeeds does to the links. -/
def relink (L : Links) : QueueCall → Links
  | addQueue node =>
    match lastContent node "resource-id" with
    | none => L
    | some r => Function.update L r (lastContent node "port")
  | addQueuePort (some r) (some p) => Function.update L r (some p)
  | delQueuePort (some r) => Function.update L r none
  | delQueue (some r) => Function.update L r none
  | delPort (some n) => dropLinks L n
  | _ => L

/-- The resource-ids of queues are distinct, and their ids are numbers of
64 bits. -/
def Proper (db : Db) : QueueCall → Prop
  | addQueue node =>
    (∀ r ∈ lastContent node "resource-id", findQueue (some r) db = none) ∧
      ∀ id ∈ lastContent node "id", IsUint64 id
  | modQueueId _ id => ∀ s ∈ id, IsUint64 s
  | _ => True

/-- The tables can hold the links after the call. -/
def Careful (db : Db) : QueueCall → Prop
  | addQueue node => ∀ id ∈ lastContent node "id", ∀ port ∈ lastContent node "port",
      CarefulNew db id port
  | modQueueId rid id => ∀ r ∈ rid, ∀ s ∈ id, CarefulId db r s
  | addQueuePort rid port => ∀ r ∈ rid, ∀ p ∈ port, CarefulLink db r p
  | delPort name => ∀ row ∈ findPort name db, row.val.qos = none
  | _ => True

instance (db : Db) : DecidablePred (Proper db)
  | addQueue _ => inferInstanceAs (Decidable (_ ∧ _))
  | modQueueId _ id => inferInstanceAs (Decidable (∀ s ∈ id, IsUint64 s))
  | addQueuePort _ _ | delQueuePort _ | delQueue _ | delPort _ | commit _ => .isTrue trivial

instance (db : Db) : DecidablePred (Careful db)
  | addQueue node => inferInstanceAs (Decidable (∀ id ∈ lastContent node "id",
      ∀ port ∈ lastContent node "port", CarefulNew db id port))
  | modQueueId rid id => inferInstanceAs (Decidable (∀ r ∈ rid, ∀ s ∈ id, CarefulId db r s))
  | addQueuePort rid port => inferInstanceAs (Decidable (∀ r ∈ rid, ∀ p ∈ port, CarefulLink db r p))
  | delPort name => inferInstanceAs (Decidable (∀ row ∈ findPort name db, row.val.qos = none))
  | delQueuePort _ | delQueue _ | commit _ => .isTrue trivial

end QueueCall

/-- A run of calls, if all of them succeed. -/
def runQueueCalls : List QueueCall → Work → Option Work
  | [], w => some w
  | c :: cs, w =>
    match c.exec w with
    | (.ok (), w') => runQueueCalls cs w'
    | (.error _, _) => none

/-- The links after the calls. -/
def linksAfter (cs : List QueueCall) (L : Links) : Links := cs.foldl QueueCall.relink L

/-- Every call of the run meets a condition. -/
def Along (P : Db → QueueCall → Prop) : List QueueCall → Work → Prop
  | [], _ => True
  | c :: cs, w => P w.idl c ∧ Along P cs (c.exec w).2

instance Along.decidable (P : Db → QueueCall → Prop) [∀ db, DecidablePred (P db)] :
    ∀ cs w, Decidable (Along P cs w)
  | [], _ => .isTrue trivial
  | _ :: cs, _ => @instDecidableAnd _ _ _ (Along.decidable P cs _)

/-! ### Runs of careful calls -/

section

variable {w w' : Work} {L : Links}

/-- A careful call keeps the tables in order, and they hold the new links. -/
theorem Holds.step (h : Holds w L) {c : QueueCall} (hrun : c.exec w = (.ok (), w'))
    (hp : c.Proper w.idl) (hc : c.Careful w.idl) : Holds w' (c.relink L) := by
  cases c with
  | addQueue node =>
    obtain ⟨r, hr, h'⟩ := h.addQueue hrun hp.1 hp.2 hc
    simp only [QueueCall.relink, hr]
    exact h'
  | modQueueId rid id =>
    obtain ⟨r, s, _, _, _, rfl, rfl, -⟩ := modQueueId_ok hrun
    exact h.modQueueId hrun (hp s rfl) (hc r rfl s rfl)
  | addQueuePort rid port =>
    obtain ⟨r, p, _, _, _, _, rfl, rfl, -⟩ := addQueuePort_ok hrun
    exact h.addQueuePort hrun (hc r rfl p rfl)
  | delQueuePort rid =>
    obtain ⟨r, _, _, _, rfl, -⟩ := delQueuePort_ok hrun
    exact h.delQueuePort hrun
  | delQueue rid =>
    cases rid with
    | none => cases hrun
    | some r => exact h.delQueue hrun
  | delPort name =>
    obtain ⟨n, _, _, rfl, -⟩ := delPort_ok hrun
    exact h.delPort hrun (fun row hrow => hc row hrow)
  | commit stored =>
    cases hrun
    exact h.commit stored

theorem Holds.run {cs : List QueueCall} (h : Holds w L) (hrun : runQueueCalls cs w = some w')
    (hp : Along QueueCall.Proper cs w) (hc : Along QueueCall.Careful cs w) :
    Holds w' (linksAfter cs L) := by
  induction cs generalizing w L with
  | nil =>
    cases hrun
    exact h
  | cons c cs ih =>
    obtain ⟨hp₁, hp⟩ := hp
    obtain ⟨hc₁, hc⟩ := hc
    unfold runQueueCalls at hrun
    rcases hstep : c.exec w with ⟨_ | _, w₁⟩
    · rw [hstep] at hrun
      cases hrun
    · rw [hstep] at hrun hp hc
      exact ih (h.step hstep hp₁ hc₁) hrun hp hc

end

/-! ### What the tables say -/

/-- The entries that refer to a queue: the `QoS` row and the number. -/
def entriesOf (db : Db) (u : Uuid) : List (Uuid × Int) :=
  db.qos.live.flatMap (fun row =>
    (row.val.queues.filter (fun e => e.2 = u)).map (fun e => (row.uuid, e.1)))

/-- The tables hold the links: a queue without a link has no entry; a queue
with a link has one, under its number, at the port it is linked to. -/
def HoldLinks (db : Db) (L : Links) : Prop :=
  ∀ u q, db.queue.rowAt u = some q → ∃ r id, q.rid = some r ∧
    q.externalIds.get "ofc_id" = some id ∧
      match L r with
      | none => entriesOf db u = [] ∧ findQueuePort r db = none
      | some n => ∃ row s, findPort (some n) db = some row ∧ findQueuePort r db = some row ∧
          row.val.qos = some s ∧ entriesOf db u = [(s, (decimal id : Int))]

/-- No queue and no `QoS` row is there yet. -/
structure NoQueues (w : Work) : Prop where
  queue : w.idl.queue = []
  qos : w.idl.qos = []
  ports : w.idl.port.Distinct
  names : ∀ {p p' a a' n}, w.idl.port.rowAt p = some a → w.idl.port.rowAt p' = some a' →
    a.name = some n → a'.name = some n → p = p'
  unlinked : ∀ {p a}, w.idl.port.rowAt p = some a → a.qos = none

theorem NoQueues.holds {w : Work} (h : NoQueues w) : Holds w (fun _ => none) := by
  have hqueue : ∀ u, w.idl.queue.rowAt u = none := fun u => by rw [h.queue]; rfl
  have hqos : ∀ s, w.idl.qos.rowAt s = none := fun s => by rw [h.qos]; rfl
  have hnone : ∀ u, (view w.idl).queue u = none := fun u => by simp [view, hqueue]
  have hempty : ∀ {p n es}, (view w.idl).port p = some (n, es) → es = [] := by
    intro p n es hp
    obtain ⟨a, ha, -, rfl⟩ := port_of_view hp
    exact portQueues_none (h.unlinked ha)
  constructor
  · refine ⟨h.ports, ?_, ?_, ?_, ?_, ?_, ?_, ?_, ?_⟩
    · rw [h.qos]
      exact List.nodup_nil
    · rw [h.queue]
      exact List.nodup_nil
    · simp [h.qos]
    · simp [h.queue]
    · intro u q hu
      rw [hqueue] at hu
      cases hu
    · intro p a s hp hs
      rw [h.unlinked hp] at hs
      cases hs
    · intro s x hx
      rw [hqos] at hx
      cases hx
    · intro p p' a a' s hp _ hs
      rw [h.unlinked hp] at hs
      cases hs
  · refine ⟨?_, ?_, ?_, ?_, ?_, ?_, ?_, ?_⟩
    · intro u u' r k k' hu
      rw [hnone] at hu
      cases hu
    · intro p p' n es es' hp hp'
      obtain ⟨a, ha, hn, -⟩ := port_of_view hp
      obtain ⟨a', ha', hn', -⟩ := port_of_view hp'
      exact h.names ha ha' hn hn'
    · intro p n e es hp he
      rw [hempty hp] at he
      cases he
    · intro p n es hp
      rw [hempty hp]
      exact List.nodup_nil
    · intro p n es hp
      rw [hempty hp]
      exact List.nodup_nil
    · intro p n es k u hp he
      rw [hempty hp] at he
      cases he
    · intro p p' n n' es es' k k' u hp _ he
      rw [hempty hp] at he
      cases he
    · intro u r k n hu
      rw [hnone] at hu
      cases hu

/-- Where one element of a list only counts. -/
theorem flatMap_eq_of_unique {α β : Type} {l : List α} {f : α → List β} {a : α} (hn : l.Nodup)
    (ha : a ∈ l) (h : ∀ b ∈ l, b ≠ a → f b = []) : l.flatMap f = f a := by
  induction l with
  | nil => cases ha
  | cons b l ih =>
    obtain ⟨hb, hn⟩ := List.nodup_cons.mp hn
    rw [List.flatMap_cons]
    rcases List.mem_cons.mp ha with rfl | ha
    · have hrest : l.flatMap f = [] := by
        refine List.flatMap_eq_nil_iff.mpr (fun c hc => h c (List.mem_cons_of_mem _ hc) ?_)
        rintro rfl
        exact hb hc
      rw [hrest, List.append_nil]
    · have hba : b ≠ a := by
        rintro rfl
        exact hb ha
      rw [h b List.mem_cons_self hba, List.nil_append]
      exact ih hn ha (fun c hc => h c (List.mem_cons_of_mem _ hc))

section

variable {w : Work} {L : Links} {u : Uuid}

/-- A queue has no entry in a row that is not its port's. -/
theorem filter_eq_nil (h : Holds w L) {row : Row Qos} (hrow : row ∈ w.idl.qos.live)
    (hno : ∀ p n es k, (view w.idl).port p = some (n, es) →
      (∃ a, w.idl.port.rowAt p = some a ∧ a.qos = some row.uuid) → (k, u) ∉ es) :
    row.val.queues.filter (fun e => e.2 = u) = [] := by
  refine List.filter_eq_nil_iff.mpr (fun e he heu => ?_)
  obtain rfl : e.2 = u := by simpa using heu
  have hx := h.rows.qos.rowAt hrow
  obtain ⟨p, a, hp, hs⟩ := h.rows.owner hx
  have hview := view_port hp
  rw [portQueues_some h.rows.qos hs hx] at hview
  exact hno _ _ _ e.1 hview ⟨a, hp, hs⟩ he

theorem entriesOf_eq_nil (h : Holds w L)
    (hno : ∀ p n es k, (view w.idl).port p = some (n, es) → (k, u) ∉ es) :
    entriesOf w.idl u = [] := by
  refine List.flatMap_eq_nil_iff.mpr (fun row hrow => ?_)
  rw [filter_eq_nil h hrow (fun p n es k hp _ => hno p n es k hp), List.map_nil]

theorem entriesOf_eq_singleton (h : Holds w L) {p : Uuid} {a : Port} {s : Uuid} {x : Qos} {k : Int}
    (hp : w.idl.port.rowAt p = some a) (hs : a.qos = some s) (hx : w.idl.qos.rowAt s = some x)
    (he : (k, u) ∈ x.queues) : entriesOf w.idl u = [(s, k)] := by
  have hview := view_port hp
  rw [portQueues_some h.rows.qos hs hx] at hview
  obtain ⟨row, hf, rfl⟩ := Option.map_eq_some_iff.mp hx
  have hrow : row ∈ w.idl.qos.live := List.mem_of_find?_eq_some hf
  obtain rfl : row.uuid = s := by simpa using List.find?_some hf
  have hnodup : w.idl.qos.live.Nodup := (h.rows.qos.of_map).filter _
  -- the row of the port is the only one that refers to the queue
  have honly : entriesOf w.idl u =
      (row.val.queues.filter (fun e => e.2 = u)).map (fun e => (row.uuid, e.1)) := by
    refine flatMap_eq_of_unique hnodup hrow (fun row' hrow' hne => ?_)
    rw [filter_eq_nil h hrow', List.map_nil]
    rintro p' n es k' hp' ⟨a', ha', hs'⟩ he'
    obtain rfl := h.links.once hp' hview he' he
    rw [hp] at ha'
    cases ha'
    rw [hs] at hs'
    have huuid : row.uuid = row'.uuid := Option.some.inj hs'
    exact hne (h.rows.qos.eq (List.mem_filter.mp hrow').1 (List.mem_filter.mp hrow).1 huuid.symm)
  -- and has one entry for it
  have hone : row.val.queues.filter (fun e => e.2 = u) = [(k, u)] := by
    have hiff : ∀ e ∈ row.val.queues, decide (e.2 = u) = (e == (k, u)) := by
      intro e hmem
      rw [beq_eq_decide, decide_eq_decide]
      constructor
      · intro heu
        exact List.inj_on_of_nodup_map (h.links.queues hview) hmem he heu
      · rintro rfl
        rfl
    rw [List.filter_congr hiff, List.filter_beq,
      List.count_eq_one_of_mem (nodup_entries h hview) he, List.replicate_one]
  rw [honly, hone, List.map_singleton]

/-- The port found by its name is the only one of the name. -/
theorem findPort_of_name (h : Holds w L) {p : Uuid} {es : List (Int × Uuid)} {n : String}
    (hp : (view w.idl).port p = some (some n, es)) {row : Row Port} (hrow : row ∈ w.idl.port.live)
    (hu : row.uuid = p) : findPort (some n) w.idl = some row := by
  obtain ⟨a, ha, hn, -⟩ := port_of_view hp
  cases hf : findPort (some n) w.idl with
  | none =>
    have hno := Table.first_none hf ha
    exact absurd hn.symm (by simpa using hno)
  | some row' =>
    obtain ⟨hrow', hn'⟩ := findPort_some h.rows hf
    have hview := view_port hrow'
    rw [hn'] at hview
    have hsame : row'.uuid = row.uuid := (h.links.name_inj hview hp).trans hu.symm
    have hmem : row' ∈ w.idl.port.live := (Table.first_some hf).1
    rw [h.rows.ports.eq (List.mem_filter.mp hmem).1 (List.mem_filter.mp hrow).1 hsame]

theorem Holds.holdLinks (h : Holds w L) : HoldLinks w.idl L := by
  intro u q hu
  obtain ⟨r, id, hr, hid, -⟩ := h.rows.ids hu
  have hq := view_queue hu hr hid
  refine ⟨r, id, hr, hid, ?_⟩
  cases hL : L r with
  | none =>
    have hno : ∀ p n es k, (view w.idl).port p = some (n, es) → (k, u) ∉ es :=
      fun p n es k hp => h.links.not_mem hq hL hp k
    refine ⟨entriesOf_eq_nil h hno, ?_⟩
    cases hf : findQueuePort r w.idl with
    | none => rfl
    | some row =>
      obtain ⟨hrow, e, he, hv⟩ := findQueuePort_some h hf
      obtain rfl := h.links.rid_inj hv hq
      exact absurd he (hno _ _ _ e.1 (view_port hrow))
  | some n =>
    obtain ⟨p, es, k, hp, he⟩ := (h.links.linked hq).mp hL
    -- the number of the entry is the queue's
    obtain ⟨r', hk⟩ := h.links.entry hp he
    obtain rfl : (decimal id : Int) = k := (Prod.mk.inj (Option.some.inj (hq.symm.trans hk))).2
    obtain ⟨row, hf, hrow, hval⟩ := findQueuePort_of_entry h hp hq he
    obtain ⟨a, ha, -, hes⟩ := port_of_view hp
    rw [ha] at hval
    obtain rfl := Option.some.inj hval
    have hfind := findPort_of_name h hp (Table.first_some hf).1 hrow
    cases hs : row.val.qos with
    | none =>
      rw [← hes, portQueues_none hs] at he
      cases he
    | some s =>
      obtain ⟨x, hx, -⟩ := h.rows.row ha hs
      rw [← hes, portQueues_some h.rows.qos hs hx] at he
      exact ⟨row, s, hfind, hf, hs, entriesOf_eq_singleton h ha hs hx he⟩

end

/-- After every run of careful calls, from tables without a queue, each
queue has one entry at most: at the port it was linked to last, under its
number. -/
theorem queues_linked_of_careful {cs : List QueueCall} {w w' : Work} (hw : NoQueues w)
    (hrun : runQueueCalls cs w = some w') (hp : Along QueueCall.Proper cs w)
    (hc : Along QueueCall.Careful cs w) : HoldLinks w'.idl (linksAfter cs (fun _ => none)) :=
  (hw.holds.run hrun hp hc).holdLinks

/-- Two ports, and nothing else. -/
def twoPorts : Work where
  idl :=
    { port := [⟨1, false, true, { name := some "p" }⟩, ⟨2, false, true, { name := some "q" }⟩]
      interface := [⟨3, false, true, { name := some "p" }⟩,
        ⟨4, false, true, { name := some "q" }⟩] }
  next := 5

/-- A queue of number 7 for a port. -/
def queueNode (port : String) : Node :=
  elem "queue" none [elem "resource-id" none [txt "a"], elem "id" none [txt "7"],
    elem "port" none [txt port]]

theorem noQueues_twoPorts : NoQueues twoPorts := by
  have hrow : ∀ {p a}, twoPorts.idl.port.rowAt p = some a →
      (p = 1 ∧ a = { name := some "p" }) ∨ (p = 2 ∧ a = { name := some "q" }) := by
    intro p a ha
    by_cases h1 : p = 1
    · subst h1
      exact .inl ⟨rfl, (Option.some.inj ha).symm⟩
    · by_cases h2 : p = 2
      · subst h2
        exact .inr ⟨rfl, (Option.some.inj ha).symm⟩
      · simp [twoPorts, Table.rowAt, Table.live, Ne.symm h1, Ne.symm h2] at ha
  refine ⟨rfl, rfl, ?_, ?_, ?_⟩
  · simp [Table.Distinct, twoPorts]
  · intro p p' a a' n ha ha' hn hn'
    have hne : "p" ≠ "q" := by decide
    rcases hrow ha with ⟨rfl, rfl⟩ | ⟨rfl, rfl⟩ <;> rcases hrow ha' with ⟨rfl, rfl⟩ | ⟨rfl, rfl⟩
    · rfl
    · exact absurd (Option.some.inj (hn.trans hn'.symm)) hne
    · exact absurd (Option.some.inj (hn'.trans hn.symm)) hne
    · rfl
  · intro p a ha
    rcases hrow ha with ⟨-, rfl⟩ | ⟨-, rfl⟩ <;> rfl

/-- A queue is added to a port, gets another number, and moves to another
port in a second transaction. -/
def moveQueue : List QueueCall :=
  [.addQueue (queueNode "p"), .modQueueId (some "a") (some "9"), .commit {},
    .delQueuePort (some "a"), .addQueuePort (some "a") (some "q")]

theorem queues_linked_of_careful_move :
    ∃ w', runQueueCalls moveQueue twoPorts = some w' ∧ entriesOf w'.idl 5 = [(7, 9)] ∧
      HoldLinks w'.idl (linksAfter moveQueue (fun _ => none)) := by
  obtain ⟨w', hrun, hentries⟩ : ∃ w', runQueueCalls moveQueue twoPorts = some w' ∧
      entriesOf w'.idl 5 = [(7, 9)] := by
    have hsome : (runQueueCalls moveQueue twoPorts).map (fun w => entriesOf w.idl 5) =
        some [(7, 9)] := by decide
    exact Option.map_eq_some_iff.mp hsome
  exact ⟨w', hrun, hentries, queues_linked_of_careful noQueues_twoPorts hrun (by decide)
    (by decide)⟩

/-- The port of a queue is deleted: the `QoS` row stays, and with it the
entry of the queue. -/
theorem deleted_port_keeps_entry :
    ∃ w', NoQueues twoPorts ∧
      runQueueCalls [.addQueue (queueNode "p"), .delPort (some "p")] twoPorts = some w' ∧
      Along QueueCall.Proper [.addQueue (queueNode "p"), .delPort (some "p")] twoPorts ∧
      linksAfter [.addQueue (queueNode "p"), .delPort (some "p")] (fun _ => none) "a" = none ∧
      entriesOf w'.idl 5 = [(6, 7)] ∧
      ¬ HoldLinks w'.idl
        (linksAfter [.addQueue (queueNode "p"), .delPort (some "p")] (fun _ => none)) := by
  obtain ⟨w', hrun, hview⟩ : ∃ w',
      runQueueCalls [.addQueue (queueNode "p"), .delPort (some "p")] twoPorts = some w' ∧
        (entriesOf w'.idl 5, (w'.idl.queue.rowAt 5).map Queue.rid) =
          ([(6, 7)], some (some "a")) := by
    have hsome : (runQueueCalls [.addQueue (queueNode "p"), .delPort (some "p")] twoPorts).map
        (fun w => (entriesOf w.idl 5, (w.idl.queue.rowAt 5).map Queue.rid)) =
          some ([(6, 7)], some (some "a")) := by decide
    exact Option.map_eq_some_iff.mp hsome
  obtain ⟨hentries, hqueue⟩ := Prod.mk.inj hview
  obtain ⟨q, hq, hrid⟩ := Option.map_eq_some_iff.mp hqueue
  have hnone : linksAfter [.addQueue (queueNode "p"), .delPort (some "p")] (fun _ => none) "a" =
      none := by decide
  refine ⟨w', noQueues_twoPorts, hrun, by decide, hnone, hentries, fun hlinks => ?_⟩
  obtain ⟨r, id, hr, -, hL⟩ := hlinks 5 q hq
  obtain rfl : "a" = r := Option.some.inj (hrid.symm.trans hr)
  rw [hnone] at hL
  rw [hentries] at hL
  cases hL.1

end OfConfig.Proofs
