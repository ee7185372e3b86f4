import OfConfig.Ovs.Queue
import OfConfig.Proofs.QueueModel

/-!
# `OfConfig.Proofs.Queues`: the queue model in the QoS tables

The tables `Port`, `QoS` and `Queue` as a `QueueModel` (`view`), and what
each function on queues does to it. `Rows` says that the rows fit
together: a `QoS` row belongs to one port and has an entry. `Holds` adds
that the entries are given links.

For each function there is one lemma on what a call that succeeds has done
(`addQueuePort_ok` and so on), and one on the links after it
(`Holds.addQueuePort` and so on). The latter need the conditions
`CarefulLink`, `CarefulId` and `CarefulNew`, which the code does not check.
Numbers are read by `sscanf`, which takes a leading zero for octal and
clamps what does not fit into a signed number (`scanI64_decimal`).
-/

set_option autoImplicit false

namespace OfConfig.Proofs

open OfConfig.Lib OfConfig.Xml OfConfig.Edit OfConfig.Ovs

variable {a : Port} {db : Db} {es : List (Int × Uuid)} {id r : String} {k : Int}
  {n rid : Option String} {p u : Uuid} {q : Queue}

/-! ### Numbers -/

/-- The value of a text of decimal digits. -/
def decimal (s : String) : Nat := s.toList.foldl (fun n c => 10 * n + (c.toNat - '0'.toNat)) 0

/-- A number as YANG writes a `uint64` in decimal: digits, the first of
them not zero unless it is the only one. -/
structure IsUint64 (s : String) : Prop where
  digits : s.toList.all Char.isDigit = true
  canonical : s.toList.head? = some '0' → s.toList = ['0']
  nonempty : s.toList ≠ []
  small : decimal s < 2 ^ 64

instance (s : String) : Decidable (IsUint64 s) :=
  decidable_of_iff (s.toList.all Char.isDigit = true ∧
      (s.toList.head? = some '0' → s.toList = ['0']) ∧ s.toList ≠ [] ∧ decimal s < 2 ^ 64)
    ⟨fun h => ⟨h.1, h.2.1, h.2.2.1, h.2.2.2⟩, fun h => ⟨h.digits, h.canonical, h.nonempty, h.small⟩⟩

theorem digitOf_ten {c : Char} (h : c.isDigit = true) :
    digitOf 10 c = some (c.toNat - '0'.toNat) := by
  have hc : '0' ≤ c ∧ c ≤ '9' := by
    have hval : 48 ≤ c.val ∧ c.val ≤ 57 := by simpa [Char.isDigit] using h
    exact hval
  have h9 : c.toNat ≤ 57 := hc.2
  have hlt : c.toNat - 48 < 10 := by omega
  simpa [digitOf, hc] using hlt

/-- A digit is no white space and no sign. -/
theorem ne_of_isDigit {c d : Char} (h : c.isDigit = true) (hd : d.isDigit = false) : c ≠ d := by
  rintro rfl
  rw [h] at hd
  cases hd

theorem readDigits_ten {cs : List Char} (h : cs.all Char.isDigit = true) (acc : Nat) :
    readDigits 10 acc cs = cs.foldl (fun n c => 10 * n + (c.toNat - '0'.toNat)) acc := by
  induction cs generalizing acc with
  | nil => rfl
  | cons c cs ih =>
    obtain ⟨hc, hcs⟩ : c.isDigit = true ∧ cs.all Char.isDigit = true := by simpa using h
    rw [readDigits, digitOf_ten hc, List.foldl_cons]
    exact ih hcs _

/-- `sscanf` reads the value, or the largest number it can hold. -/
theorem scanI64_decimal {s : String} (h : IsUint64 s) :
    scanI64 s = some (clampI64 (decimal s)) := by
  cases hs : s.toList with
  | nil => exact absurd hs h.nonempty
  | cons c cs =>
    have hdigits : (c :: cs).all Char.isDigit = true := hs ▸ h.digits
    have hc : c.isDigit = true := by simp_all
    have hspace : isSpace c = false := by
      cases hsp : isSpace c with
      | false => rfl
      | true =>
        simp only [isSpace, Bool.or_eq_true, decide_eq_true_eq] at hsp
        rcases hsp with ((((rfl | rfl) | rfl) | rfl) | rfl) | rfl <;>
          exact absurd hc (by decide)
    have hsign : readSign (c :: cs) = (1, c :: cs) := by
      have h1 := ne_of_isDigit hc (d := '-') (by decide)
      have h2 := ne_of_isDigit hc (d := '+') (by decide)
      simp [readSign, h1, h2]
    by_cases h0 : c = '0'
    · -- a zero that is not alone would mean octal
      obtain rfl : cs = [] := by
        have hzero := h.canonical (by rw [hs, h0]; rfl)
        rw [hs] at hzero
        exact (List.cons.inj hzero).2
      subst h0
      simp [scanI64, hs, readSign, readBase, readDigits, decimal, isSpace]
    · have hbase : readBase (c :: cs) = (10, c :: cs, false) := by
        simp [readBase, h0]
      simp only [scanI64, hs, List.dropWhile_cons, hspace, Bool.false_eq_true, if_false, hsign,
        hbase, List.head?_cons, Option.bind_some, digitOf_ten hc, Option.isSome_some,
        Bool.or_true, if_true, one_mul, readDigits_ten hdigits, decimal]

/-! ### The tables as maps -/

/-- A queue's resource-id and number. -/
def queueView (q : Queue) : Option (String × Int) :=
  match q.rid, q.externalIds.get "ofc_id" with
  | some r, some id => some (r, decimal id)
  | _, _ => none

/-- What the tables say about queues and ports. -/
def view (db : Db) : QueueModel where
  queue u := (db.queue.rowAt u).bind queueView
  port p := (db.port.rowAt p).map (fun a => (a.name, portQueues db a))

/-- The rows fit together: every `QoS` row is the one of a port, and has an
entry. -/
structure Rows (w : Work) : Prop where
  ports : w.idl.port.Distinct
  qos : w.idl.qos.Distinct
  queues : w.idl.queue.Distinct
  fresh_qos : ∀ r ∈ w.idl.qos, r.uuid < w.next
  fresh_queue : ∀ r ∈ w.idl.queue, r.uuid < w.next
  ids : ∀ {u q}, w.idl.queue.rowAt u = some q →
    ∃ r id, q.rid = some r ∧ q.externalIds.get "ofc_id" = some id ∧ IsUint64 id
  row : ∀ {p a s}, w.idl.port.rowAt p = some a → a.qos = some s →
    ∃ x, w.idl.qos.rowAt s = some x ∧ x.queues ≠ []
  owner : ∀ {s x}, w.idl.qos.rowAt s = some x → ∃ p a, w.idl.port.rowAt p = some a ∧ a.qos = some s
  owner_inj : ∀ {p p' a a' s}, w.idl.port.rowAt p = some a → w.idl.port.rowAt p' = some a' →
    a.qos = some s → a'.qos = some s → p = p'

theorem portQueues_none (h : a.qos = none) : portQueues db a = [] := by
  simp [portQueues, h]

theorem portQueues_some (hd : db.qos.Distinct) {s : Uuid} {x : Qos} (hs : a.qos = some s)
    (hx : db.qos.rowAt s = some x) : portQueues db a = x.queues := by
  simp [portQueues, hs, hd.deref hx]

section

variable {w : Work} {p s : Uuid} {a : Port} {x : Qos}

/-- The rows do not depend on what the transaction has recorded. -/
theorem Rows.logged (h : Rows w) (log : List RefWrite) :
    Rows { w with idl := { w.idl with written := log } } :=
  ⟨h.ports, h.qos, h.queues, h.fresh_qos, h.fresh_queue, h.ids, h.row, h.owner, h.owner_inj⟩

theorem view_port (hp : w.idl.port.rowAt p = some a) :
    (view w.idl).port p = some (a.name, portQueues w.idl a) := by
  simp [view, hp]

/-- The view of a database in which only one port, or its row, is another
one. -/
theorem view_at (h : Rows w) {b : Port} (hqueue : db.queue = w.idl.queue) (hd : db.qos.Distinct)
    (hp : db.port.rowAt p = some b) (hb : (b.name, portQueues db b) = (n, es))
    (hports : ∀ p', p' ≠ p → db.port.rowAt p' = w.idl.port.rowAt p')
    (hrows : ∀ p' c s', p' ≠ p → w.idl.port.rowAt p' = some c → c.qos = some s' →
      db.qos.rowAt s' = w.idl.qos.rowAt s') :
    view db = ⟨(view w.idl).queue, Function.update (view w.idl).port p (some (n, es))⟩ := by
  have hportEq : (view db).port = Function.update (view w.idl).port p (some (n, es)) := by
    funext p'
    by_cases hpp : p' = p
    · subst hpp
      rw [Function.update_self, ← hb]
      simp [view, hp]
    · rw [Function.update_of_ne hpp]
      simp only [view, hports p' hpp]
      cases hp' : w.idl.port.rowAt p' with
      | none => rfl
      | some c =>
        rw [Option.map_some, Option.map_some]
        cases hc : c.qos with
        | none => rw [portQueues_none hc, portQueues_none hc]
        | some s' =>
          obtain ⟨y, hy, -⟩ := h.row hp' hc
          have hrow : db.qos.rowAt s' = some y := (hrows p' c s' hpp hp' hc).trans hy
          rw [portQueues_some hd hc hrow, portQueues_some h.qos hc hy]
  rw [← hportEq]
  simp only [view, hqueue]

/-- The entries in the row of a port are replaced. -/
theorem view_setQueues (h : Rows w) (hp : w.idl.port.rowAt p = some a) (hs : a.qos = some s)
    (es : List (Int × Uuid)) :
    view { w.idl with qos := w.idl.qos.update s (fun q => { q with queues := es }) } =
      ⟨(view w.idl).queue, Function.update (view w.idl).port p (some (a.name, es))⟩ := by
  obtain ⟨x, hx, -⟩ := h.row hp hs
  have hd := h.qos.update s (fun q : Qos => { q with queues := es })
  have hrow : (w.idl.qos.update s (fun q => { q with queues := es })).rowAt s =
      some { x with queues := es } := by
    rw [Table.rowAt_update, if_pos rfl, hx]
    rfl
  refine view_at h rfl hd hp ?_ (fun _ _ => rfl) ?_
  · rw [portQueues_some hd hs hrow]
  · intro p' c s' hne hp' hc
    have hne' : s' ≠ s := by
      rintro rfl
      exact hne (h.owner_inj hp' hp hc hs)
    rw [Table.rowAt_update, if_neg hne']

theorem Rows.setQueues (h : Rows w) (hes : es ≠ []) :
    Rows { w with idl := { w.idl with
      qos := w.idl.qos.update s (fun q => { q with queues := es }) } } where
  ports := h.ports
  qos := h.qos.update s (fun q => { q with queues := es })
  queues := h.queues
  fresh_qos := by
    intro r hr
    have hmem : r.uuid ∈ (w.idl.qos.update s (fun q => { q with queues := es })).map Row.uuid :=
      List.mem_map_of_mem hr
    rw [Table.map_uuid_update] at hmem
    obtain ⟨r', hr', heq⟩ := List.mem_map.mp hmem
    rw [← heq]
    exact h.fresh_qos r' hr'
  fresh_queue := h.fresh_queue
  ids := h.ids
  row {p' b s'} hp' hb := by
    obtain ⟨y, hy, hne⟩ := h.row hp' hb
    rw [Table.rowAt_update]
    by_cases hs : s' = s
    · subst hs
      exact ⟨_, by rw [if_pos rfl, hy]; rfl, hes⟩
    · exact ⟨y, by rw [if_neg hs, hy], hne⟩
  owner {s' y} hy := by
    rw [Table.rowAt_update] at hy
    by_cases hs : s' = s
    · subst hs
      rw [if_pos rfl] at hy
      obtain ⟨z, hz, -⟩ := Option.map_eq_some_iff.mp hy
      exact h.owner hz
    · rw [if_neg hs] at hy
      exact h.owner hy
  owner_inj := h.owner_inj

/-- A fresh identifier is no row's. -/
theorem rowAt_fresh {α : Type} {t : Table α} {n : Nat} (h : ∀ r ∈ t, r.uuid < n) :
    t.rowAt n = none := by
  cases hr : t.rowAt n with
  | none => rfl
  | some a =>
    obtain ⟨r, hf, -⟩ := Option.map_eq_some_iff.mp hr
    have hlt := h r (List.mem_filter.mp (List.mem_of_find?_eq_some hf)).1
    have heq : r.uuid = n := by simpa using List.find?_some hf
    omega

/-- A port without a row gets a new one. -/
theorem view_newQos (h : Rows w) (hp : w.idl.port.rowAt p = some a) (t : Option String)
    (es : List (Int × Uuid)) :
    view { w.idl with
        qos := w.idl.qos.insert w.next ⟨t, es⟩
        port := w.idl.port.update p (fun b => { b with qos := some w.next }) } =
      ⟨(view w.idl).queue, Function.update (view w.idl).port p (some (a.name, es))⟩ := by
  have hfresh := rowAt_fresh h.fresh_qos
  have hd : (w.idl.qos.insert w.next ⟨t, es⟩).Distinct :=
    h.qos.insert (fun r hr => Nat.ne_of_lt (h.fresh_qos r hr)) _
  have hrow : (w.idl.qos.insert w.next ⟨t, es⟩).rowAt w.next = some ⟨t, es⟩ := by
    rw [Table.rowAt_insert hfresh, if_pos rfl]
  have hport : (w.idl.port.update p (fun b => { b with qos := some w.next })).rowAt p =
      some { a with qos := some w.next } := by
    rw [Table.rowAt_update, if_pos rfl, hp]
    rfl
  refine view_at h rfl hd hport ?_ ?_ ?_
  · rw [portQueues_some hd rfl hrow]
  · intro p' hne
    rw [Table.rowAt_update, if_neg hne]
  · intro p' c s' _ hp' hc
    obtain ⟨y, hy, -⟩ := h.row hp' hc
    have hne' : s' ≠ w.next := by
      rintro rfl
      rw [hfresh] at hy
      cases hy
    rw [Table.rowAt_insert hfresh, if_neg hne']

theorem Rows.newQos (h : Rows w) (hp : w.idl.port.rowAt p = some a) (hs : a.qos = none)
    (t : Option String) (hes : es ≠ []) :
    Rows { w with next := w.next + 1, idl := { w.idl with
      qos := w.idl.qos.insert w.next ⟨t, es⟩
      port := w.idl.port.update p (fun b => { b with qos := some w.next }) } } := by
  have hfresh := rowAt_fresh h.fresh_qos
  have hport : ∀ {p' b}, (w.idl.port.update p (fun b => { b with qos := some w.next })).rowAt p' =
      some b → (p' = p ∧ b = { a with qos := some w.next }) ∨
        (p' ≠ p ∧ w.idl.port.rowAt p' = some b) := by
    intro p' b hb
    rw [Table.rowAt_update] at hb
    by_cases hpp : p' = p
    · rw [if_pos hpp, hp] at hb
      exact .inl ⟨hpp, (Option.some.inj hb).symm⟩
    · rw [if_neg hpp] at hb
      exact .inr ⟨hpp, hb⟩
  have hold : ∀ {p' b s'}, w.idl.port.rowAt p' = some b → b.qos = some s' → s' ≠ w.next := by
    rintro p' b s' hb hs' rfl
    obtain ⟨y, hy, -⟩ := h.row hb hs'
    rw [hfresh] at hy
    cases hy
  have hports := h.ports.update p (fun b : Port => { b with qos := some w.next })
  have hqos : (w.idl.qos.insert w.next ⟨t, es⟩).Distinct :=
    h.qos.insert (fun r hr => Nat.ne_of_lt (h.fresh_qos r hr)) _
  refine ⟨hports, hqos, h.queues, ?_, fun r hr => Nat.lt_succ_of_lt (h.fresh_queue r hr), h.ids,
    ?_, ?_, ?_⟩
  · intro r hr
    rcases List.mem_append.mp hr with hr | hr
    · exact Nat.lt_succ_of_lt (h.fresh_qos r hr)
    · rw [List.mem_singleton.mp hr]
      exact Nat.lt_succ_self w.next
  · intro p' b s' hb hs'
    show ∃ y, (w.idl.qos.insert w.next ⟨t, es⟩).rowAt s' = some y ∧ _
    rw [Table.rowAt_insert hfresh]
    rcases hport hb with ⟨-, rfl⟩ | ⟨-, hb⟩
    · obtain rfl : w.next = s' := Option.some.inj hs'
      exact ⟨⟨t, es⟩, if_pos rfl, hes⟩
    · obtain ⟨y, hy, hne⟩ := h.row hb hs'
      exact ⟨y, by rw [if_neg (hold hb hs'), hy], hne⟩
  · intro s' y hy
    have hy' : (w.idl.qos.insert w.next ⟨t, es⟩).rowAt s' = some y := hy
    rw [Table.rowAt_insert hfresh] at hy'
    by_cases hs' : s' = w.next
    · have hrow : (w.idl.port.update p (fun b => { b with qos := some w.next })).rowAt p =
          some { a with qos := some w.next } := by
        rw [Table.rowAt_update, if_pos rfl, hp]
        rfl
      exact ⟨p, _, hrow, by rw [hs']⟩
    · rw [if_neg hs'] at hy'
      obtain ⟨p', b, hb, hbs⟩ := h.owner hy'
      have hne : p' ≠ p := by
        rintro rfl
        rw [hp] at hb
        cases hb
        rw [hs] at hbs
        cases hbs
      have hrow : (w.idl.port.update p (fun b => { b with qos := some w.next })).rowAt p' =
          some b := by
        rw [Table.rowAt_update, if_neg hne, hb]
      exact ⟨p', b, hrow, hbs⟩
  · intro p₁ p₂ b₁ b₂ s' h₁ h₂ hs₁ hs₂
    rcases hport h₁ with ⟨rfl, rfl⟩ | ⟨hne₁, h₁'⟩ <;> rcases hport h₂ with ⟨rfl, rfl⟩ | ⟨hne₂, h₂'⟩
    · rfl
    · obtain rfl : w.next = s' := Option.some.inj hs₁
      exact absurd rfl (hold h₂' hs₂)
    · obtain rfl : w.next = s' := Option.some.inj hs₂
      exact absurd rfl (hold h₁' hs₁)
    · exact h.owner_inj h₁' h₂' hs₁ hs₂

/-- The row of a port is deleted, and the port knows. -/
theorem view_delQos (h : Rows w) (hp : w.idl.port.rowAt p = some a) (hs : a.qos = some s) :
    view { w.idl with
        qos := w.idl.qos.delete s
        port := w.idl.port.update p (fun b => { b with qos := none }) } =
      ⟨(view w.idl).queue, Function.update (view w.idl).port p (some (a.name, []))⟩ := by
  have hport : (w.idl.port.update p (fun b => { b with qos := none })).rowAt p =
      some { a with qos := none } := by
    rw [Table.rowAt_update, if_pos rfl, hp]
    rfl
  refine view_at h rfl (h.qos.delete s) hport ?_ ?_ ?_
  · rw [portQueues_none rfl]
  · intro p' hne
    rw [Table.rowAt_update, if_neg hne]
  · intro p' c s' hne hp' hc
    have hne' : s' ≠ s := by
      rintro rfl
      exact hne (h.owner_inj hp' hp hc hs)
    rw [Table.rowAt_delete, if_neg hne']

theorem Rows.delQos (h : Rows w) (hp : w.idl.port.rowAt p = some a) (hs : a.qos = some s) :
    Rows { w with idl := { w.idl with
      qos := w.idl.qos.delete s
      port := w.idl.port.update p (fun b => { b with qos := none }) } } := by
  have hport : ∀ {p' b s'}, (w.idl.port.update p (fun b => { b with qos := none })).rowAt p' =
      some b → b.qos = some s' → p' ≠ p ∧ w.idl.port.rowAt p' = some b := by
    intro p' b s' hb hs'
    rw [Table.rowAt_update] at hb
    by_cases hpp : p' = p
    · rw [if_pos hpp, hp] at hb
      cases hb
      cases hs'
    · rw [if_neg hpp] at hb
      exact ⟨hpp, hb⟩
  have hports := h.ports.update p (fun b : Port => { b with qos := none })
  refine ⟨hports, h.qos.delete s, h.queues, ?_, h.fresh_queue, h.ids, ?_, ?_, ?_⟩
  · intro r hr
    have hmem := (Table.map_uuid_delete w.idl.qos s).subset (List.mem_map_of_mem hr)
    obtain ⟨r', hr', heq⟩ := List.mem_map.mp hmem
    rw [← heq]
    exact h.fresh_qos r' hr'
  · intro p' b s' hb hs'
    obtain ⟨hne, hb'⟩ := hport hb hs'
    obtain ⟨y, hy, hy'⟩ := h.row hb' hs'
    have hne' : s' ≠ s := by
      rintro rfl
      exact hne (h.owner_inj hb' hp hs' hs)
    exact ⟨y, by rw [Table.rowAt_delete, if_neg hne', hy], hy'⟩
  · intro s' y hy
    have hy' : (w.idl.qos.delete s).rowAt s' = some y := hy
    rw [Table.rowAt_delete] at hy'
    by_cases hs' : s' = s
    · rw [if_pos hs'] at hy'
      cases hy'
    · rw [if_neg hs'] at hy'
      obtain ⟨p', b, hb, hbs⟩ := h.owner hy'
      have hne : p' ≠ p := by
        rintro rfl
        rw [hp] at hb
        cases hb
        rw [hs] at hbs
        exact hs' (Option.some.inj hbs).symm
      have hrow : (w.idl.port.update p (fun b => { b with qos := none })).rowAt p' = some b := by
        rw [Table.rowAt_update, if_neg hne, hb]
      exact ⟨p', b, hrow, hbs⟩
  · intro p₁ p₂ b₁ b₂ s' h₁ h₂ hs₁ hs₂
    exact h.owner_inj (hport h₁ hs₁).2 (hport h₂ hs₂).2 hs₁ hs₂

end

/-! ### Searches -/

/-- The tables are in order and hold the links. -/
structure Holds (w : Work) (L : Links) : Prop where
  rows : Rows w
  links : Represents (view w.idl) L

section

variable {w : Work} {L : Links} {r : String}

theorem view_queue (hu : w.idl.queue.rowAt u = some q) (hr : q.rid = some r)
    (hid : q.externalIds.get "ofc_id" = some id) :
    (view w.idl).queue u = some (r, (decimal id : Int)) := by
  simp [view, hu, queueView, hr, hid]

/-- A queue of the view is a row. -/
theorem row_of_view (hu : (view w.idl).queue u = some (r, k)) :
    ∃ q id, w.idl.queue.rowAt u = some q ∧ q.rid = some r ∧
      q.externalIds.get "ofc_id" = some id ∧ k = decimal id := by
  obtain ⟨q, hq, hv⟩ := Option.bind_eq_some_iff.mp hu
  unfold queueView at hv
  split at hv
  · next r' id hr hid =>
      cases hv
      exact ⟨q, id, hq, hr, hid, rfl⟩
  · cases hv

/-- A port of the view is a row. -/
theorem port_of_view (hp : (view w.idl).port p = some (n, es)) :
    ∃ a, w.idl.port.rowAt p = some a ∧ a.name = n ∧ portQueues w.idl a = es := by
  obtain ⟨a, ha, heq⟩ := Option.map_eq_some_iff.mp hp
  cases heq
  exact ⟨a, ha, rfl, rfl⟩

theorem findQueue_some (h : Rows w) {queue : Row Queue}
    (hq : findQueue (some r) w.idl = some queue) :
    w.idl.queue.rowAt queue.uuid = some queue.val ∧ queue.val.rid = some r := by
  have hfirst : w.idl.queue.first (fun q => q.rid = some r) = some queue := hq
  obtain ⟨hrow, hr⟩ := h.queues.first hfirst
  exact ⟨hrow, by simpa using hr⟩

theorem findPort_some (h : Rows w) {n : String} {row : Row Port}
    (hp : findPort (some n) w.idl = some row) :
    w.idl.port.rowAt row.uuid = some row.val ∧ row.val.name = some n := by
  obtain ⟨hrow, hn⟩ := h.ports.first hp
  exact ⟨hrow, (by simpa using hn : some n = row.val.name).symm⟩

/-- An entry refers to the queue whose resource-id is looked for. -/
theorem refersTo_iff (h : Holds w L) (hp : (view w.idl).port p = some (n, es)) {e : Int × Uuid}
    (he : e ∈ es) : refersTo w.idl r e = true ↔ (view w.idl).queue e.2 = some (r, e.1) := by
  obtain ⟨r', hv⟩ := h.links.entry hp he
  obtain ⟨q, id, hq, hr, -, -⟩ := row_of_view hv
  rw [hv]
  simp [refersTo, h.rows.queues.deref hq, hr]

theorem refersTo_iff_eq (h : Holds w L) (hp : (view w.idl).port p = some (n, es))
    (hu : (view w.idl).queue u = some (r, k)) {e : Int × Uuid} (he : e ∈ es) :
    refersTo w.idl r e = true ↔ e.2 = u := by
  rw [refersTo_iff h hp he]
  constructor
  · intro hv
    exact h.links.rid_inj hv hu
  · rintro rfl
    obtain ⟨r', hv⟩ := h.links.entry hp he
    rw [hu] at hv ⊢
    cases hv
    rfl

/-- There is one entry at most that refers to a queue. -/
theorem refersTo_unique (h : Holds w L) (hp : (view w.idl).port p = some (n, es)) :
    ∀ a ∈ es, ∀ b ∈ es, refersTo w.idl r a = true → refersTo w.idl r b = true → a = b := by
  intro a ha b hb hra hrb
  have hua := (refersTo_iff h hp ha).mp hra
  have hub := (refersTo_iff h hp hb).mp hrb
  exact List.inj_on_of_nodup_map (h.links.queues hp) ha hb (h.links.rid_inj hua hub)

theorem nodup_entries (h : Holds w L) (hp : (view w.idl).port p = some (n, es)) : es.Nodup :=
  (h.links.numbers hp).of_map

/-- The port `find_queue_port` finds has the queue's entry. -/
theorem findQueuePort_some (h : Holds w L) {row : Row Port}
    (hf : findQueuePort r w.idl = some row) :
    w.idl.port.rowAt row.uuid = some row.val ∧
      ∃ e ∈ portQueues w.idl row.val, (view w.idl).queue e.2 = some (r, e.1) := by
  obtain ⟨hrow, hany⟩ := h.rows.ports.first hf
  obtain ⟨e, he, href⟩ := List.any_eq_true.mp hany
  exact ⟨hrow, e, he, (refersTo_iff h (view_port hrow) he).mp href⟩

/-- A queue with an entry is found at the port of the entry. -/
theorem findQueuePort_of_entry (h : Holds w L) (hp : (view w.idl).port p = some (n, es)) {k' : Int}
    (hu : (view w.idl).queue u = some (r, k)) (he : (k', u) ∈ es) :
    ∃ row, findQueuePort r w.idl = some row ∧ row.uuid = p ∧
      w.idl.port.rowAt p = some row.val := by
  obtain ⟨a, ha, -, rfl⟩ := port_of_view hp
  have href : refersTo w.idl r (k', u) = true := by
    refine (refersTo_iff h hp he).mpr ?_
    obtain ⟨r', hv⟩ := h.links.entry hp he
    rw [hu] at hv
    cases hv
    exact hu
  cases hf : findQueuePort r w.idl with
  | none =>
    have hno := Table.first_none hf ha
    rw [List.any_eq_false] at hno
    exact absurd href (hno _ he)
  | some row =>
    obtain ⟨hrow, e, he', hv⟩ := findQueuePort_some h hf
    obtain rfl := h.links.rid_inj hv hu
    have hsame : row.uuid = p := h.links.once (view_port hrow) hp he' he
    exact ⟨row, rfl, hsame, hsame ▸ hrow⟩

/-- A queue that `find_queue_port` does not find has no entry. -/
theorem not_mem_of_findQueuePort (h : Holds w L) (hf : findQueuePort r w.idl = none)
    (hu : (view w.idl).queue u = some (r, k)) (k' : Int) (hp : (view w.idl).port p = some (n, es)) :
    (k', u) ∉ es := by
  intro he
  obtain ⟨row, hrow, -⟩ := findQueuePort_of_entry h hp hu he
  rw [hf] at hrow
  cases hrow

/-- The `QoS` row that is found for a queue is the one of its port. -/
theorem findQos_some (h : Holds w L) {qos : Row Qos} (hf : findQos r w.idl = some qos) :
    ∃ row e, findQueuePort r w.idl = some row ∧ w.idl.port.rowAt row.uuid = some row.val ∧
      row.val.qos = some qos.uuid ∧ portQueues w.idl row.val = qos.val.queues ∧
      e ∈ qos.val.queues ∧ (view w.idl).queue e.2 = some (r, e.1) := by
  obtain ⟨hqos, hany⟩ := h.rows.qos.first hf
  obtain ⟨e, he, href⟩ := List.any_eq_true.mp hany
  obtain ⟨p, a, hp, hs⟩ := h.rows.owner hqos
  have hes := portQueues_some h.rows.qos hs hqos
  have hview := view_port hp
  rw [hes] at hview
  have hu := (refersTo_iff h hview he).mp href
  obtain ⟨row, hrow, rfl, hval⟩ := findQueuePort_of_entry h hview hu he
  rw [hp] at hval
  cases hval
  exact ⟨row, e, hrow, hp, hs, hes, he, hu⟩

/-- A queue that no `QoS` row refers to has no entry. -/
theorem not_mem_of_findQos (h : Holds w L) (hf : findQos r w.idl = none)
    (hu : (view w.idl).queue u = some (r, k)) (k' : Int) (hp : (view w.idl).port p = some (n, es)) :
    (k', u) ∉ es := by
  intro he
  have href := (refersTo_iff_eq h hp hu he).mpr rfl
  obtain ⟨a, ha, -, rfl⟩ := port_of_view hp
  cases hs : a.qos with
  | none =>
    rw [portQueues_none hs] at he
    cases he
  | some s =>
    obtain ⟨x, hx, -⟩ := h.rows.row ha hs
    rw [portQueues_some h.rows.qos hs hx] at he
    have hno := Table.first_none hf hx
    rw [List.any_eq_false] at hno
    exact hno _ he href

end

/-! ### What a call that succeeds has done -/

variable {w w' : Work}

/-- Link a queue to a port: a new `QoS` row, or a new entry in the one the
port has. -/
theorem addQueuePort_ok {port : Option String} (h : txnAddQueuePort rid port w = (.ok (), w')) :
    ∃ r p queue id row qid, rid = some r ∧ port = some p ∧
      findQueue (some r) w.idl = some queue ∧ queue.val.externalIds.get "ofc_id" = some id ∧
      findPort (some p) w.idl = some row ∧ scanI64 id = some qid ∧
      ((row.val.qos = none ∧ w' = { w with next := w.next + 1, idl := { w.idl with
          qos := w.idl.qos.insert w.next
            ⟨some qosType, w.idl.queue.keyedRefs [(qid, queue.uuid)]⟩
          port := w.idl.port.update row.uuid (fun p => { p with qos := some w.next })
          written := w.idl.written ++ [.queues w.next [(qid, queue.uuid)]] } }) ∨
       ∃ s qos, row.val.qos = some s ∧ w.idl.qos.deref s = some qos ∧
         w' = { w with idl := { w.idl with
           qos := w.idl.qos.update s (fun q => { q with
             queues := w.idl.queue.keyedRefs (qos.queues ++ [(qid, queue.uuid)]) })
           written := w.idl.written ++ [.queues s (qos.queues ++ [(qid, queue.uuid)])] } }) := by
  unfold txnAddQueuePort at h
  simp only [Prog.bind_ok, argument, Prog.ofOption_ok, readDb, Prog.read_ok] at h
  obtain ⟨r, _, ⟨rfl, rfl⟩, p, _, ⟨rfl, rfl⟩, found, _, ⟨rfl, rfl⟩, h⟩ := h
  cases hq : findQueue (some r) w.idl with
  | none => simp [hq, fail] at h
  | some queue =>
    simp only [hq] at h
    cases hid : queue.val.externalIds.get "ofc_id" with
    | none => simp [hid, fail] at h
    | some id =>
      simp only [hid, Prog.bind_ok, Prog.read_ok] at h
      obtain ⟨found, _, ⟨rfl, rfl⟩, h⟩ := h
      cases hp : findPort (some p) w.idl with
      | none => simp [hp, fail] at h
      | some row =>
        simp only [hp] at h
        cases hn : scanI64 id with
        | none => simp [hn, fail] at h
        | some qid =>
          simp only [hn] at h
          refine ⟨r, p, queue, id, row, qid, rfl, rfl, hq, hid, hp, hn, ?_⟩
          cases hqos : row.val.qos with
          | none =>
            simp only [hqos, Prog.bind_ok, newUuid, modifyDb, updatePort, Prog.read_ok,
              Prog.update_ok, Prog.pure_ok] at h
            obtain ⟨u, _, ⟨_, _, ⟨rfl, rfl⟩, _, _, rfl, rfl, rfl⟩, _, _, rfl, rfl⟩ := h
            exact .inl ⟨rfl, rfl⟩
          | some s =>
            simp only [hqos, Prog.bind_ok, Prog.read_ok, deref, Prog.ofOption_ok,
              setQueues, modifyDb, Prog.update_ok] at h
            obtain ⟨_, _, ⟨rfl, rfl⟩, qos, _, ⟨hd, rfl⟩, rfl⟩ := h
            exact .inr ⟨s, qos, rfl, hd, rfl⟩

/-- The `QoS` table after the number of a queue was changed in the entry
that refers to it. -/
def renumbered (r : String) (qid : Int) (db : Db) : Table Qos :=
  match findQos r db with
  | none => db.qos
  | some qos =>
    let es := qos.val.queues.modify (queueIndex db r qos.val.queues) (fun e => (qid, e.2))
    db.qos.update qos.uuid (fun q => { q with queues := db.queue.keyedRefs es })

/-- A queue gets a number: in its entry, if there is one, and in its own
row. -/
theorem modQueueId_ok {qidS : Option String} (h : txnModQueueId rid qidS w = (.ok (), w')) :
    ∃ r s qid queue passed, rid = some r ∧ qidS = some s ∧ scanI64 s = some qid ∧
      findQueue (some r) w.idl = some queue ∧
      w' = { w with idl := { w.idl with
        qos := renumbered r qid w.idl
        queue := w.idl.queue.update queue.uuid
          (fun q => { q with externalIds := q.externalIds.replace "ofc_id" s })
        written := w.idl.written ++ passed } } := by
  unfold txnModQueueId at h
  simp only [Prog.bind_ok, argument, Prog.ofOption_ok] at h
  obtain ⟨r, _, ⟨rfl, rfl⟩, s, _, ⟨rfl, rfl⟩, h⟩ := h
  cases hn : scanI64 s with
  | none => simp [hn, fail] at h
  | some qid =>
    simp only [hn, Prog.bind_ok, readDb, Prog.read_ok] at h
    obtain ⟨found, _, ⟨rfl, rfl⟩, h⟩ := h
    cases hq : findQueue (some r) w.idl with
    | none => simp [hq, fail] at h
    | some queue =>
      simp only [hq, Prog.bind_ok, Prog.read_ok] at h
      obtain ⟨_, _, ⟨rfl, rfl⟩, h⟩ := h
      cases hs : findQos r w.idl with
      | none =>
        simp only [hs, updateQueue, modifyDb, Prog.update_ok] at h
        refine ⟨r, s, qid, queue, [], rfl, rfl, hn, hq, ?_⟩
        simp only [renumbered, hs, ← h, List.append_nil]
      | some qos =>
        simp only [hs, Prog.bind_ok, Prog.read_ok, setQueues, updateQueue, modifyDb,
          Prog.update_ok] at h
        obtain ⟨_, _, ⟨rfl, rfl⟩, _, _, rfl, rfl⟩ := h
        refine ⟨r, s, qid, queue, [.queues qos.uuid (qos.val.queues.modify
          (queueIndex w.idl r qos.val.queues) (fun e => (qid, e.2)))], rfl, rfl, hn, hq, ?_⟩
        simp only [renumbered, hs]

/-- The entries of a row without the one that refers to a queue. -/
def unlinked (r : String) (db : Db) (qos : Qos) : List (Int × Uuid) :=
  db.queue.keyedRefs (qos.queues.eraseIdx (queueIndex db r qos.queues))

/-- The entry of a queue is removed from the row of its port; with its last
entry the row goes. -/
theorem delQueuePort_ok (h : txnDelQueuePort rid w = (.ok (), w')) :
    ∃ r row s qos, rid = some r ∧ findQueuePort r w.idl = some row ∧ row.val.qos = some s ∧
      w.idl.qos.deref s = some qos ∧
      ((qos.queues.length = 1 ∧ w' = { w with idl := { w.idl with
          qos := w.idl.qos.delete s
          port := w.idl.port.update row.uuid (fun p => { p with qos := none }) } }) ∨
        (qos.queues.length ≠ 1 ∧ w' = { w with idl := { w.idl with
          qos := w.idl.qos.update s (fun q => { q with queues := unlinked r w.idl qos })
          written := w.idl.written ++
            [.queues s (qos.queues.eraseIdx (queueIndex w.idl r qos.queues))] } })) := by
  unfold txnDelQueuePort at h
  simp only [Prog.bind_ok, argument, Prog.ofOption_ok, readDb, Prog.read_ok] at h
  obtain ⟨r, _, ⟨rfl, rfl⟩, found, _, ⟨rfl, rfl⟩, h⟩ := h
  cases hf : findQueuePort r w.idl with
  | none => simp [hf, fail] at h
  | some row =>
    simp only [hf, Prog.bind_ok, Ovs.deref, Prog.ofOption_ok, Prog.read_ok] at h
    obtain ⟨s, _, ⟨hs, rfl⟩, _, _, ⟨rfl, rfl⟩, qos, _, ⟨hqos, rfl⟩, _, _, ⟨rfl, rfl⟩, gone, t, hdel,
      h⟩ := h
    refine ⟨r, row, s, qos, rfl, hf, hs, hqos, ?_⟩
    unfold txnDelQosQueue at hdel
    split_ifs at hdel with hlen
    · simp only [Prog.bind_ok, modifyDb, Prog.update_ok, Prog.pure_ok] at hdel
      obtain ⟨_, _, rfl, rfl, rfl⟩ := hdel
      simp only [if_true, updatePort, modifyDb, Prog.update_ok] at h
      exact .inl ⟨hlen, h.symm⟩
    · simp only [Prog.bind_ok, setQueues, modifyDb, Prog.update_ok, Prog.pure_ok,
        copyExcept_eq] at hdel
      obtain ⟨_, _, rfl, rfl, rfl⟩ := hdel
      simp only [Bool.false_eq_true, if_false, Prog.pure_ok, true_and] at h
      exact .inr ⟨hlen, h.symm⟩
    · simp [crash] at hdel

/-- A queue is deleted, after its entry. No `QoS` row may be without a
port. -/
theorem delQueue_ok (h : txnDelQueue rid w = (.ok (), w'))
    (hqos : ∀ r, findQueuePort r w.idl = none → findQos r w.idl = none) :
    ∃ r w₁ queue, rid = some r ∧
      (txnDelQueuePort (some r) w = (.ok (), w₁) ∨ findQueuePort r w.idl = none ∧ w₁ = w) ∧
      findQueue (some r) w₁.idl = some queue ∧
      w' = { w₁ with idl := { w₁.idl with queue := w₁.idl.queue.delete queue.uuid } } := by
  unfold txnDelQueue at h
  simp only [Prog.bind_ok, argument, Prog.ofOption_ok, readDb, Prog.read_ok] at h
  obtain ⟨r, _, ⟨rfl, rfl⟩, found, _, ⟨rfl, rfl⟩, h⟩ := h
  cases hf : findQueuePort r w.idl with
  | some row =>
    simp only [hf, Prog.bind_ok, Prog.read_ok] at h
    obtain ⟨_, w₁, hdel, found, _, ⟨rfl, rfl⟩, h⟩ := h
    cases hq : findQueue (some r) w₁.idl with
    | none => simp [hq, fail] at h
    | some queue =>
      simp only [hq, modifyDb, Prog.update_ok] at h
      exact ⟨r, w₁, queue, rfl, .inl hdel, hq, h.symm⟩
  | none =>
    simp only [hf, Prog.bind_ok, Prog.read_ok, hqos r hf] at h
    obtain ⟨_, _, ⟨rfl, rfl⟩, h⟩ := h
    simp only [Prog.bind_ok, Prog.read_ok] at h
    obtain ⟨found, _, ⟨rfl, rfl⟩, h⟩ := h
    cases hq : findQueue (some r) w.idl with
    | none => simp [hq, fail] at h
    | some queue =>
      simp only [hq, modifyDb, Prog.update_ok] at h
      exact ⟨r, w, queue, rfl, .inr ⟨hf, rfl⟩, hq, h.symm⟩

/-- A port is deleted, and its interface. -/
theorem delPort_ok {name : Option String} (h : txnDelPort name w = (.ok (), w')) :
    ∃ n row iface, name = some n ∧ findPort (some n) w.idl = some row ∧
      w' = { w with idl := { w.idl with
        port := w.idl.port.delete row.uuid
        interface := w.idl.interface.delete iface } } := by
  unfold txnDelPort at h
  simp only [Prog.bind_ok, argument, Prog.ofOption_ok, readDb, Prog.read_ok] at h
  obtain ⟨n, _, ⟨rfl, rfl⟩, port, _, ⟨rfl, rfl⟩, iface, _, ⟨rfl, rfl⟩, h⟩ := h
  cases hi : findInterface (some n) w.idl with
  | none => simp [hi, fail] at h
  | some i =>
    cases hp : findPort (some n) w.idl with
    | none => simp [hi, hp, fail] at h
    | some row =>
      simp only [hi, hp, modifyDb, Prog.update_ok] at h
      exact ⟨n, row, i.uuid, rfl, hp, h.symm⟩

/-- What the links of queues depend on. -/
def linkView (w : Work) : Table Port × Table Qos × Table Smap × Uuid :=
  (w.idl.port, w.idl.qos, w.idl.queue.mapVal Queue.externalIds, w.next)

/-- The properties of a queue are not among it. -/
theorem keeps_modQueueOptions (rid : Option String) (option : String) (edit : Option Node) :
    Prog.Keeps linkView (txnModQueueOptions rid option edit) := by
  have hset : ∀ (u : Uuid) (f : Smap → Smap), Prog.Keeps linkView
      (updateQueue u (fun q => { q with otherConfig := f q.otherConfig })) := by
    intro u f
    refine Prog.keeps_update (fun w => ?_)
    simp only [linkView, Prod.mk.injEq, true_and, and_true]
    have hkeep : ∀ q : Queue, Queue.externalIds { q with otherConfig := f q.otherConfig } =
        q.externalIds := fun _ => rfl
    exact Table.mapVal_update hkeep _ _
  refine Prog.keeps_bind (Prog.keeps_ofOption _ _) (fun _ => ?_)
  refine Prog.keeps_bind (Prog.keeps_read _) (fun found => ?_)
  cases found with
  | none => exact Prog.keeps_stop _
  | some queue =>
    cases edit with
    | none => exact hset _ (fun m => m.remove option)
    | some n =>
      cases hv : firstContent n with
      | none =>
        simp only [hv]
        exact Prog.keeps_stop _
      | some v =>
        simp only [hv]
        exact hset _ (fun m => m.replace option v)

theorem linkView_of_ok {p : Txn Unit} (hp : Prog.Keeps linkView p) (h : p w = (.ok (), w')) :
    linkView w' = linkView w := by
  have hview := hp w
  rwa [h] at hview

/-- A new queue: a row with the resource-id, then its number, then its
port, if there is one. -/
theorem addQueue_ok {node : Node} (h : txnAddQueue node w = (.ok (), w')) :
    ∃ r id w₁ w₂, lastContent node "resource-id" = some r ∧ lastContent node "id" = some id ∧
      txnModQueueId (some r) (some id) { w with next := w.next + 1, idl := { w.idl with
        queue := w.idl.queue.insert w.next ⟨Smap.addOnce [] ofcResourceId r, []⟩ } } =
          (.ok (), w₁) ∧
      ((lastContent node "port" = none ∧ w₂ = w₁) ∨
        ∃ port, lastContent node "port" = some port ∧
          txnAddQueuePort (some r) (some port) w₁ = (.ok (), w₂)) ∧
      linkView w' = linkView w₂ := by
  unfold txnAddQueue at h
  cases hr : lastContent node "resource-id" with
  | none => simp [hr, fail] at h
  | some r =>
    cases hid : lastContent node "id" with
    | none => simp [hr, hid, fail] at h
    | some id =>
      simp only [hr, hid, Prog.bind_ok, newUuid, Prog.read_ok, modifyDb, Prog.update_ok,
        Prog.pure_ok] at h
      obtain ⟨u, _, ⟨_, _, ⟨rfl, rfl⟩, _, _, rfl, rfl, rfl⟩, _, _, rfl, _, w₁, hmod, h⟩ := h
      refine ⟨r, id, w₁, ?_⟩
      have hprop : ∀ prop : Node, Prog.Keeps linkView (Prog.forEach prop.children (fun c =>
          txnModQueueOptions (some r) c.label.name (some c))) :=
        fun prop => Prog.keeps_forEach (fun c _ => keeps_modQueueOptions _ _ _)
      cases hp : lastContent node "port" with
      | none =>
        simp only [hp] at h
        refine ⟨w₁, rfl, rfl, hmod, .inl ⟨rfl, rfl⟩, linkView_of_ok ?_ h⟩
        cases lastChild node "properties" with
        | none => exact Prog.keeps_pure ()
        | some prop => exact hprop prop
      | some port =>
        simp only [hp, Prog.bind_ok] at h
        obtain ⟨_, w₂, hlink, h⟩ := h
        refine ⟨w₂, rfl, rfl, hmod, .inr ⟨port, rfl, hlink⟩, linkView_of_ok ?_ h⟩
        cases lastChild node "properties" with
        | none => exact Prog.keeps_pure ()
        | some prop => exact hprop prop

/-! ### Each call keeps the tables in order -/

section

variable {L : Links}

theorem map_uuid_mapVal {α β : Type} (f : α → β) (t : Table α) :
    (t.mapVal f).map Row.uuid = t.map Row.uuid := by
  rw [Table.mapVal, List.map_map]
  rfl

/-- Only the view counts. -/
theorem Holds.congr (h : Holds w L) (hv : linkView w' = linkView w) : Holds w' L := by
  simp only [linkView, Prod.mk.injEq] at hv
  obtain ⟨hport, hqos, hqueue, hnext⟩ := hv
  have huuid : w'.idl.queue.map Row.uuid = w.idl.queue.map Row.uuid := by
    rw [← map_uuid_mapVal Queue.externalIds, hqueue, map_uuid_mapVal]
  have hrow : ∀ u, (w'.idl.queue.rowAt u).map Queue.externalIds =
      (w.idl.queue.rowAt u).map Queue.externalIds := by
    intro u
    rw [← Table.rowAt_mapVal, hqueue, Table.rowAt_mapVal]
  have hids : ∀ {u q}, w'.idl.queue.rowAt u = some q →
      ∃ q', w.idl.queue.rowAt u = some q' ∧ q'.externalIds = q.externalIds := by
    intro u q hq
    have hmap := hrow u
    rw [hq, Option.map_some] at hmap
    obtain ⟨q', hq', heq⟩ := Option.map_eq_some_iff.mp hmap.symm
    exact ⟨q', hq', heq⟩
  have hfresh : ∀ r ∈ w'.idl.queue, r.uuid < w'.next := by
    intro r hr
    have hmem : r.uuid ∈ w'.idl.queue.map Row.uuid := List.mem_map_of_mem hr
    rw [huuid] at hmem
    obtain ⟨r', hr', heq⟩ := List.mem_map.mp hmem
    rw [← heq, hnext]
    exact h.rows.fresh_queue r' hr'
  have hview : view w'.idl = view w.idl := by
    have hq : (view w'.idl).queue = (view w.idl).queue := by
      funext u
      have hbind : ∀ o : Option Queue, o.bind queueView =
          (o.map Queue.externalIds).bind (fun m => queueView ⟨m, []⟩) := by
        intro o
        cases o <;> rfl
      simp only [view]
      rw [hbind, hrow u, ← hbind]
    have hp : (view w'.idl).port = (view w.idl).port := by
      simp only [view, portQueues, hport, hqos]
    exact congrArg₂ QueueModel.mk hq hp
  constructor
  · refine ⟨hport ▸ h.rows.ports, hqos ▸ h.rows.qos, ?_, ?_, hfresh, ?_, ?_, ?_, ?_⟩
    · rw [Table.Distinct, huuid]
      exact h.rows.queues
    · rw [hqos, hnext]
      exact h.rows.fresh_qos
    · intro u q hq
      obtain ⟨q', hq', heq⟩ := hids hq
      obtain ⟨r, id, hr, hid, hdec⟩ := h.rows.ids hq'
      exact ⟨r, id, by rw [Queue.rid, ← heq]; exact hr, by rw [← heq]; exact hid, hdec⟩
    · rw [hport, hqos]
      exact h.rows.row
    · rw [hport, hqos]
      exact h.rows.owner
    · rw [hport]
      exact h.rows.owner_inj
  · rw [hview]
    exact h.links

theorem Holds.of_view {M : QueueModel} (hrows : Rows w) (hview : view w.idl = M)
    (hlinks : Represents M L) : Holds w L :=
  ⟨hrows, hview ▸ hlinks⟩

/-- When a queue may be linked to a port: its number fits into 64 bits with
a sign, no other queue of the port has it, and the queue is not at another
port. -/
structure CarefulLink (db : Db) (r p : String) : Prop where
  fits : ∀ {queue id}, findQueue (some r) db = some queue →
    queue.val.externalIds.get "ofc_id" = some id → decimal id < 2 ^ 63
  free : ∀ {queue id row}, findQueue (some r) db = some queue →
    queue.val.externalIds.get "ofc_id" = some id → findPort (some p) db = some row →
    ∀ e ∈ portQueues db row.val, e.1 = decimal id → e.2 = queue.uuid
  here : ∀ {row row'}, findPort (some p) db = some row → findQueuePort r db = some row' →
    row'.uuid = row.uuid

instance (db : Db) (r p : String) : Decidable (CarefulLink db r p) :=
  decidable_of_iff
    ((∀ queue ∈ findQueue (some r) db, ∀ id ∈ queue.val.externalIds.get "ofc_id",
        decimal id < 2 ^ 63 ∧ ∀ row ∈ findPort (some p) db, ∀ e ∈ portQueues db row.val,
          e.1 = decimal id → e.2 = queue.uuid) ∧
      ∀ row ∈ findPort (some p) db, ∀ row' ∈ findQueuePort r db, row'.uuid = row.uuid)
    ⟨fun h => ⟨fun hq hid => (h.1 _ hq _ hid).1, fun hq hid => (h.1 _ hq _ hid).2 _,
        fun hp hf => h.2 _ hp _ hf⟩,
      fun h => ⟨fun _ hq _ hid => ⟨h.fits hq hid, fun _ hp => h.free hq hid hp⟩,
        fun _ hp _ hf => h.here hp hf⟩⟩

theorem clampI64_of_lt {n : Nat} (h : n < 2 ^ 63) : clampI64 n = n := by
  unfold clampI64
  omega

/-- Every entry refers to a queue that is there. -/
theorem entries_live (h : Holds w L) (hp : (view w.idl).port p = some (n, es)) :
    ∀ e ∈ es, w.idl.queue.isLive e.2 = true := by
  intro e he
  obtain ⟨r, hv⟩ := h.links.entry hp he
  obtain ⟨q, _, hq, -⟩ := row_of_view hv
  exact (Table.isLive_iff _ _).mpr ⟨q, hq⟩

theorem Holds.addQueuePort (h : Holds w L) {p : String}
    (hrun : txnAddQueuePort (some r) (some p) w = (.ok (), w')) (hc : CarefulLink w.idl r p) :
    Holds w' (Function.update L r (some p)) := by
  obtain ⟨r', p', queue, id, row, qid, hr', hp', hq, hid, hrow, hscan, hcases⟩ :=
    addQueuePort_ok hrun
  cases hr'
  cases hp'
  obtain ⟨hqrow, hqr⟩ := findQueue_some h.rows hq
  obtain ⟨hprow, hpname⟩ := findPort_some h.rows hrow
  have hu := view_queue hqrow hqr hid
  have hlive : w.idl.queue.isLive queue.uuid = true := (Table.isLive_iff _ _).mpr ⟨_, hqrow⟩
  -- the number that is read is the queue's
  obtain rfl : qid = decimal id := by
    obtain ⟨_, id', _, hid', hdec⟩ := h.rows.ids hqrow
    rw [hid] at hid'
    cases hid'
    rw [scanI64_decimal hdec, clampI64_of_lt (hc.fits hq hid)] at hscan
    exact (Option.some.inj hscan).symm
  have hview : (view w.idl).port row.uuid = some (some p, portQueues w.idl row.val) := by
    rw [view_port hprow, hpname]
  have hhere : ∀ p' m es₁ k', (view w.idl).port p' = some (m, es₁) → (k', queue.uuid) ∈ es₁ →
      p' = row.uuid := by
    intro p' m es₁ k' hp' he
    obtain ⟨row', hf, rfl, -⟩ := findQueuePort_of_entry h hp' hu he
    exact hc.here hrow hf
  have hlink := h.links.link hu hview (fun e he hk => hc.free hq hid hrow e he hk) hhere
  rcases hcases with ⟨hnone, rfl⟩ | ⟨s, qos, hs, hderef, rfl⟩
  · -- a new row
    rw [portQueues_none hnone] at hlink
    have hes : w.idl.queue.keyedRefs [((decimal id : Int), queue.uuid)] =
        [((decimal id : Int), queue.uuid)] :=
      Table.keyedRefs_of_live _ (by simpa using hlive) (by simp)
    rw [hes]
    refine .of_view ((h.rows.newQos hprow hnone _ (by simp)).logged _)
      (view_newQos h.rows hprow _ _) ?_
    rw [hpname]
    exact hlink
  · -- one more entry
    obtain ⟨x, hx, -⟩ := h.rows.row hprow hs
    obtain rfl : x = qos := Option.some.inj ((h.rows.qos.deref hx).symm.trans hderef)
    have hes := portQueues_some h.rows.qos hs hx
    rw [hes] at hview hlink
    rw [Table.keyedRefs_snoc _ (entries_live h hview) hlive (h.links.numbers hview)]
    refine .of_view ((h.rows.setQueues (by simp)).logged _) (view_setQueues h.rows hprow hs _) ?_
    rw [hpname]
    exact hlink

/-- The entries without those of a queue. -/
theorem unlinked_eq (h : Holds w L) {qos : Qos} (hp : (view w.idl).port p = some (n, qos.queues))
    (hu : (view w.idl).queue u = some (r, k)) :
    unlinked r w.idl qos = qos.queues.filter (fun e => e.2 ≠ u) := by
  have hfilter : qos.queues.eraseIdx (queueIndex w.idl r qos.queues) =
      qos.queues.filter (fun e => e.2 ≠ u) := by
    rw [queueIndex, eraseIdx_findIdx (nodup_entries h hp) (refersTo_unique h hp)]
    refine List.filter_congr (fun e he => ?_)
    have hiff := refersTo_iff_eq h hp hu he
    by_cases heu : e.2 = u
    · rw [hiff.mpr heu]
      simp [heu]
    · rw [Bool.eq_false_iff.mpr (fun href => heu (hiff.mp href))]
      simp [heu]
  have hsub := List.filter_sublist (p := fun e : Int × Uuid => e.2 ≠ u) (l := qos.queues)
  rw [unlinked, hfilter]
  exact Table.keyedRefs_of_live _ (fun e he => entries_live h hp e (hsub.subset he))
    ((hsub.map _).nodup (h.links.numbers hp))

theorem Holds.delQueuePort (h : Holds w L) (hrun : txnDelQueuePort (some r) w = (.ok (), w')) :
    Holds w' (Function.update L r none) := by
  obtain ⟨r', row, s, qos, hr', hf, hs, hderef, hcases⟩ := delQueuePort_ok hrun
  cases hr'
  obtain ⟨hprow, e, he, hu⟩ := findQueuePort_some h hf
  obtain ⟨x, hx, -⟩ := h.rows.row hprow hs
  obtain rfl : x = qos := Option.some.inj ((h.rows.qos.deref hx).symm.trans hderef)
  have hes := portQueues_some h.rows.qos hs hx
  rw [hes] at he
  have hview := view_port hprow
  rw [hes] at hview
  obtain ⟨n, hn⟩ := h.links.named hview he
  rw [hn] at hview
  have hunlink := h.links.unlink hu hview he
  rcases hcases with ⟨hlen, rfl⟩ | ⟨hlen, rfl⟩
  · -- the only entry
    obtain ⟨e', he'⟩ := List.length_eq_one_iff.mp hlen
    have hnil : x.queues.filter (fun y => y.2 ≠ e.2) = [] := by
      rw [he'] at he ⊢
      obtain rfl := List.mem_singleton.mp he
      simp
    rw [hnil, ← hn] at hunlink
    exact .of_view (h.rows.delQos hprow hs) (view_delQos h.rows hprow hs) hunlink
  · -- one of several
    rw [unlinked_eq h hview hu]
    have hne : x.queues.filter (fun y => y.2 ≠ e.2) ≠ [] := by
      intro hnil
      rw [List.filter_eq_nil_iff] at hnil
      have hnodup := h.links.queues hview
      match hxs : x.queues with
      | [] => rw [hxs] at he; cases he
      | [y] => exact hlen (by rw [hxs]; rfl)
      | y :: z :: es =>
        rw [hxs] at hnil hnodup
        have hy : y.2 = e.2 := by simpa using hnil y (by simp)
        have hz : z.2 = e.2 := by simpa using hnil z (by simp)
        exact (List.nodup_cons.mp hnodup).1 (by simp [hy, hz])
    rw [← hn] at hunlink
    exact .of_view ((h.rows.setQueues hne).logged _) (view_setQueues h.rows hprow hs _) hunlink

/-- The rows of other tables do not depend on the queues. -/
theorem Rows.withQueues (h : Rows w) {t : Table Queue} (hd : t.Distinct)
    (hf : ∀ r ∈ t, r.uuid < w.next)
    (hids : ∀ {u q}, t.rowAt u = some q →
      ∃ r id, q.rid = some r ∧ q.externalIds.get "ofc_id" = some id ∧ IsUint64 id) :
    Rows { w with idl := { w.idl with queue := t } } where
  ports := h.ports
  qos := h.qos
  queues := hd
  fresh_qos := h.fresh_qos
  fresh_queue := hf
  ids := hids
  row := h.row
  owner := h.owner
  owner_inj := h.owner_inj

/-- A queue with another number. -/
def withId (id : String) (q : Queue) : Queue :=
  { q with externalIds := q.externalIds.replace "ofc_id" id }

theorem rid_withId (id : String) (q : Queue) : (withId id q).rid = q.rid := by
  rw [Queue.rid, withId, Smap.get_replace, if_neg (by decide)]
  rfl

theorem get_withId (id : String) (q : Queue) :
    (withId id q).externalIds.get "ofc_id" = some id := by
  rw [withId, Smap.get_replace, if_pos rfl]

/-- The queues after one of them got a number. -/
theorem queues_withId {t : Table Queue} (id : String) (hu : t.rowAt u = some q)
    (hr : q.rid = some r) :
    (fun v => ((t.update u (withId id)).rowAt v).bind queueView) =
      Function.update (fun v => (t.rowAt v).bind queueView) u (some (r, (decimal id : Int))) := by
  funext v
  rw [Table.rowAt_update]
  by_cases hv : v = u
  · subst hv
    rw [if_pos rfl, Function.update_self, hu, Option.map_some, Option.bind_some, queueView,
      rid_withId, hr, get_withId]
  · rw [if_neg hv, Function.update_of_ne hv]

theorem Rows.setId (h : Rows w) (u : Uuid) (hid : IsUint64 id) :
    Rows { w with idl := { w.idl with queue := w.idl.queue.update u (withId id) } } := by
  refine h.withQueues (h.queues.update u _) ?_ ?_
  · intro x hx
    have hmem : x.uuid ∈ (w.idl.queue.update u (withId id)).map Row.uuid := List.mem_map_of_mem hx
    rw [Table.map_uuid_update] at hmem
    obtain ⟨y, hy, heq⟩ := List.mem_map.mp hmem
    rw [← heq]
    exact h.fresh_queue y hy
  · intro v q' hv
    rw [Table.rowAt_update] at hv
    by_cases hvu : v = u
    · rw [if_pos hvu] at hv
      obtain ⟨q₀, hq₀, rfl⟩ := Option.map_eq_some_iff.mp hv
      obtain ⟨r₀, -, hr₀, -⟩ := h.ids hq₀
      exact ⟨r₀, id, (rid_withId id q₀).trans hr₀, get_withId id q₀, hid⟩
    · rw [if_neg hvu] at hv
      exact h.ids hv

/-- The entries after the one of a queue got another number. -/
theorem modified_eq (h : Holds w L) {k' : Int} {f : Nat → Option (String × Int)}
    (hp : (view w.idl).port p = some (n, es)) (hu : (view w.idl).queue u = some (r, k))
    (hren : Represents ⟨f, Function.update (view w.idl).port p
      (some (n, es.map (fun e => if e.2 = u then (k', e.2) else e)))⟩ L) :
    w.idl.queue.keyedRefs (es.modify (queueIndex w.idl r es) (fun e => (k', e.2))) =
      es.map (fun e => if e.2 = u then (k', e.2) else e) := by
  have hmap : es.modify (queueIndex w.idl r es) (fun e => (k', e.2)) =
      es.map (fun e => if e.2 = u then (k', e.2) else e) := by
    rw [queueIndex, modify_findIdx (nodup_entries h hp) (refersTo_unique h hp)]
    refine List.map_congr_left (fun e he => ?_)
    exact if_congr (refersTo_iff_eq h hp hu he) rfl rfl
  rw [hmap]
  refine Table.keyedRefs_of_live _ ?_ (hren.numbers (Function.update_self _ _ _))
  intro x hx
  obtain ⟨e, he, rfl⟩ := List.mem_map.mp hx
  have hlive := entries_live h hp e he
  split <;> exact hlive

/-- When a queue may get a number: no port has it, or the number fits and
no other queue of its port has it. -/
def CarefulId (db : Db) (r id : String) : Prop :=
  ∀ row, findQueuePort r db = some row → decimal id < 2 ^ 63 ∧
    ∀ e ∈ portQueues db row.val, e.1 = decimal id → refersTo db r e = true

instance (db : Db) (r id : String) : Decidable (CarefulId db r id) :=
  inferInstanceAs (Decidable (∀ row ∈ findQueuePort r db, decimal id < 2 ^ 63 ∧
    ∀ e ∈ portQueues db row.val, e.1 = decimal id → refersTo db r e = true))

theorem Holds.modQueueId (h : Holds w L) (hrun : txnModQueueId (some r) (some id) w = (.ok (), w'))
    (hid : IsUint64 id) (hc : CarefulId w.idl r id) : Holds w' L := by
  obtain ⟨r', id', qid, queue, passed, hr', hid', hscan, hq, rfl⟩ := modQueueId_ok hrun
  cases hr'
  cases hid'
  obtain ⟨hqrow, hqr⟩ := findQueue_some h.rows hq
  obtain ⟨_, id₀, _, hid₀, -⟩ := h.rows.ids hqrow
  have hu := view_queue hqrow hqr hid₀
  have hqueues := queues_withId id hqrow hqr
  rw [scanI64_decimal hid] at hscan
  cases hs : findQos r w.idl with
  | none =>
    have hfree : ∀ p n es k, (view w.idl).port p = some (n, es) → (k, queue.uuid) ∉ es :=
      fun p n es k hp he => not_mem_of_findQos h hs hu k hp he
    have hsame : renumbered r qid w.idl = w.idl.qos := by simp only [renumbered, hs]
    rw [hsame]
    refine .of_view ((h.rows.setId queue.uuid hid).logged _) ?_
      (h.links.renumber_free hu (decimal id) hfree)
    exact congrArg₂ QueueModel.mk hqueues rfl
  | some qos =>
    obtain ⟨row, ⟨k₀, v⟩, hf, hprow, hqos, hes, he, hv⟩ := findQos_some h hs
    obtain ⟨hfits, hkey⟩ := hc row hf
    rw [clampI64_of_lt hfits] at hscan
    obtain rfl := Option.some.inj hscan
    obtain rfl : v = queue.uuid := h.links.rid_inj hv hu
    have hview := view_port hprow
    rw [hes] at hview hkey
    obtain ⟨n, hn⟩ := h.links.named hview he
    rw [hn] at hview
    have hren := h.links.renumber hu hview he (decimal id)
      (fun x hx hk => (refersTo_iff_eq h hview hu hx).mp (hkey x hx hk))
    have hes' := modified_eq h hview hu hren
    have hqosT : renumbered r (decimal id) w.idl = w.idl.qos.update qos.uuid (fun q => { q with
        queues := qos.val.queues.map (fun e =>
          if e.2 = queue.uuid then ((decimal id : Int), e.2) else e) }) := by
      simp only [renumbered, hs, hes']
    rw [hqosT]
    have hne : qos.val.queues.map (fun e =>
        if e.2 = queue.uuid then ((decimal id : Int), e.2) else e) ≠ [] := by
      intro hnil
      rw [List.map_eq_nil_iff.mp hnil] at he
      cases he
    have hrows := (h.rows.setId queue.uuid hid).setQueues (s := qos.uuid) hne
    refine .of_view (hrows.logged _) ?_ hren
    have hports := congrArg QueueModel.port (view_setQueues h.rows hprow hqos
      (qos.val.queues.map (fun e => if e.2 = queue.uuid then ((decimal id : Int), e.2) else e)))
    rw [hn] at hports
    exact congrArg₂ QueueModel.mk hqueues hports

/-- A queue that no port has is not linked. -/
theorem Holds.forget (h : Holds w L) (hf : findQueuePort r w.idl = none) :
    Holds w (Function.update L r none) := by
  refine ⟨h.rows, h.links.congr_links (fun u r' k hu => ?_)⟩
  by_cases hr : r' = r
  · subst hr
    rw [Function.update_self]
    cases hL : L r' with
    | none => rfl
    | some n =>
      obtain ⟨p, es, k', hp, he⟩ := (h.links.linked hu).mp hL
      exact absurd he (not_mem_of_findQueuePort h hf hu k' hp)
  · rw [Function.update_of_ne hr]

/-- A queue without a link is deleted. -/
theorem Holds.dropQueue (h : Holds w L) (hu : w.idl.queue.rowAt u = some q) (hr : q.rid = some r)
    (hL : L r = none) : Holds { w with idl := { w.idl with queue := w.idl.queue.delete u } } L := by
  obtain ⟨_, id, _, hid, -⟩ := h.rows.ids hu
  have hview := view_queue hu hr hid
  have hdrop := h.links.dropQueue (fun p n es k hp => h.links.not_mem hview hL hp k)
  have hrows : Rows { w with idl := { w.idl with queue := w.idl.queue.delete u } } := by
    refine h.rows.withQueues (h.rows.queues.delete u) ?_ ?_
    · intro x hx
      have hmem := (Table.map_uuid_delete w.idl.queue u).subset (List.mem_map_of_mem hx)
      obtain ⟨y, hy, heq⟩ := List.mem_map.mp hmem
      rw [← heq]
      exact h.rows.fresh_queue y hy
    · intro v q' hv
      rw [Table.rowAt_delete] at hv
      split at hv
      · cases hv
      · exact h.rows.ids hv
  refine .of_view hrows (congrArg₂ QueueModel.mk ?_ rfl) hdrop
  funext v
  rw [Table.rowAt_delete]
  by_cases hv : v = u
  · subst hv
    rw [if_pos rfl, Function.update_self]
    rfl
  · rw [if_neg hv, Function.update_of_ne hv]
    rfl

theorem Holds.delQueue (h : Holds w L) (hrun : txnDelQueue (some r) w = (.ok (), w')) :
    Holds w' (Function.update L r none) := by
  have hqos : ∀ r, findQueuePort r w.idl = none → findQos r w.idl = none := by
    intro r hf
    cases hs : findQos r w.idl with
    | none => rfl
    | some qos =>
      obtain ⟨row, _, hrow, -⟩ := findQos_some h hs
      rw [hf] at hrow
      cases hrow
  obtain ⟨r', w₁, queue, hr', hcases, hq, rfl⟩ := delQueue_ok hrun hqos
  cases hr'
  have h₁ : Holds w₁ (Function.update L r none) := by
    rcases hcases with hdel | ⟨hf, rfl⟩
    · exact h.delQueuePort hdel
    · exact h.forget hf
  obtain ⟨hqrow, hqr⟩ := findQueue_some h₁.rows hq
  exact h₁.dropQueue hqrow hqr (Function.update_self _ _ _)

/-- A port without a `QoS` row is deleted. -/
theorem Rows.delPort (h : Rows w) (hp : w.idl.port.rowAt p = some a) (hs : a.qos = none)
    (iface : Table Interface) :
    Rows { w with idl := { w.idl with
      port := w.idl.port.delete p
      interface := iface } } := by
  have hback : ∀ {p' b}, (w.idl.port.delete p).rowAt p' = some b →
      w.idl.port.rowAt p' = some b := by
    intro p' b hb
    rw [Table.rowAt_delete] at hb
    split at hb
    · cases hb
    · exact hb
  refine ⟨h.ports.delete p, h.qos, h.queues, h.fresh_qos, h.fresh_queue, h.ids,
    fun hb => h.row (hback hb), ?_, fun h₁ h₂ => h.owner_inj (hback h₁) (hback h₂)⟩
  intro s x hx
  obtain ⟨p', b, hb, hbs⟩ := h.owner hx
  have hne : p' ≠ p := by
    rintro rfl
    rw [hp] at hb
    cases hb
    rw [hs] at hbs
    cases hbs
  exact ⟨p', b, by rw [Table.rowAt_delete, if_neg hne, hb], hbs⟩

/-- The links after a port was deleted. -/
def dropLinks (L : Links) (n : String) : Links := fun r => if L r = some n then none else L r

theorem Holds.delPort (h : Holds w L) {n : String}
    (hrun : txnDelPort (some n) w = (.ok (), w'))
    (hc : ∀ row, findPort (some n) w.idl = some row → row.val.qos = none) :
    Holds w' (dropLinks L n) := by
  obtain ⟨n', row, iface, hn', hrow, rfl⟩ := delPort_ok hrun
  cases hn'
  obtain ⟨hprow, hname⟩ := findPort_some h.rows hrow
  have hnone := hc row hrow
  have hview : (view w.idl).port row.uuid = some (some n, []) := by
    rw [view_port hprow, hname, portQueues_none hnone]
  have hdrop := h.links.dropPort hview
  -- no queue was linked to the port
  have hsame : ∀ u r k, (view w.idl).queue u = some (r, k) → dropLinks L n r = L r := by
    intro u r k hu
    unfold dropLinks
    split
    · next hL =>
        obtain ⟨p, es, k', hp, he⟩ := (h.links.linked hu).mp hL
        obtain rfl := h.links.name_inj hp hview
        rw [hview] at hp
        cases hp
        cases he
    · rfl
  refine .of_view (h.rows.delPort hprow hnone _) (congrArg₂ QueueModel.mk rfl ?_)
    (hdrop.congr_links hsame)
  funext p
  simp only [Table.rowAt_delete]
  by_cases hp : p = row.uuid
  · rw [if_pos hp, hp, Function.update_self]
    rfl
  · rw [if_neg hp, Function.update_of_ne hp]
    rfl

/-- The resource-id is not in use. -/
def FreshRid (db : Db) (r : String) : Prop := ∀ u q, db.queue.rowAt u = some q → q.rid ≠ some r

/-- The row of a new queue. -/
def freshQueue (r : String) : Queue := ⟨Smap.addOnce [] ofcResourceId r, []⟩

theorem rid_freshQueue (r : String) : (freshQueue r).rid = some r := by
  simp [freshQueue, Queue.rid, Smap.addOnce, Smap.get]

section

variable {r id : String}

theorem rowAt_newQueue (h : Holds w L) (v : Uuid) :
    (w.idl.queue.insert w.next (freshQueue r)).rowAt v =
      if v = w.next then some (freshQueue r) else w.idl.queue.rowAt v :=
  Table.rowAt_insert (rowAt_fresh h.rows.fresh_queue) _ _

theorem distinct_newQueue (h : Holds w L) :
    (w.idl.queue.insert w.next (freshQueue r)).Distinct :=
  h.rows.queues.insert (fun x hx => Nat.ne_of_lt (h.rows.fresh_queue x hx)) _

/-- No entry refers to a queue that is new. -/
theorem findQos_newQueue (h : Holds w L) (hr : FreshRid w.idl r) :
    findQos r { w.idl with queue := w.idl.queue.insert w.next (freshQueue r) } = none := by
  cases hs : findQos r { w.idl with queue := w.idl.queue.insert w.next (freshQueue r) } with
  | none => rfl
  | some qos =>
    obtain ⟨hqos, hany⟩ := h.rows.qos.first hs
    obtain ⟨e, he, href⟩ := List.any_eq_true.mp hany
    obtain ⟨p, a, hp, hs⟩ := h.rows.owner hqos
    have hview := view_port hp
    rw [portQueues_some h.rows.qos hs hqos] at hview
    obtain ⟨r', hv⟩ := h.links.entry hview he
    obtain ⟨q, _, hq, -⟩ := row_of_view hv
    have hne : e.2 ≠ w.next := by
      intro heq
      rw [heq, rowAt_fresh h.rows.fresh_queue] at hq
      cases hq
    have hrow : (w.idl.queue.insert w.next (freshQueue r)).rowAt e.2 = some q := by
      rw [rowAt_newQueue h, if_neg hne, hq]
    have hrid : q.rid = some r := by
      simpa [refersTo, (distinct_newQueue h).deref hrow] using href
    exact absurd hrid (hr _ _ hq)

/-- The resource-id of a new queue is found at its row. -/
theorem findQueue_newQueue (h : Holds w L) (hr : FreshRid w.idl r) {queue : Row Queue}
    (hq : findQueue (some r) { w.idl with queue := w.idl.queue.insert w.next (freshQueue r) } =
      some queue) : queue.uuid = w.next := by
  have hfirst : (w.idl.queue.insert w.next (freshQueue r)).first (fun q => q.rid = some r) =
      some queue := hq
  obtain ⟨hrow, hrid⟩ := (distinct_newQueue h).first hfirst
  rw [rowAt_newQueue h] at hrow
  by_cases hu : queue.uuid = w.next
  · exact hu
  · rw [if_neg hu] at hrow
    exact absurd (by simpa using hrid) (hr _ _ hrow)

theorem Rows.newQueue (h : Holds w L) (hid : IsUint64 id) :
    Rows { w with next := w.next + 1, idl := { w.idl with
      queue := (w.idl.queue.insert w.next (freshQueue r)).update w.next (withId id) } } := by
  have hnext : Rows { w with next := w.next + 1 } :=
    { h.rows with
      fresh_qos := fun x hx => Nat.lt_succ_of_lt (h.rows.fresh_qos x hx)
      fresh_queue := fun x hx => Nat.lt_succ_of_lt (h.rows.fresh_queue x hx) }
  refine hnext.withQueues ((distinct_newQueue h).update _ _) ?_ ?_
  · intro x hx
    have hmem := List.mem_map_of_mem (f := Row.uuid) hx
    rw [Table.map_uuid_update] at hmem
    obtain ⟨y, hy, heq⟩ := List.mem_map.mp hmem
    rw [← heq]
    rcases List.mem_append.mp hy with hy | hy
    · exact Nat.lt_succ_of_lt (h.rows.fresh_queue y hy)
    · rw [List.mem_singleton.mp hy]
      exact Nat.lt_succ_self w.next
  · intro v q hv
    rw [Table.rowAt_update] at hv
    by_cases hvn : v = w.next
    · rw [if_pos hvn, rowAt_newQueue h, if_pos rfl] at hv
      obtain rfl := Option.some.inj hv
      exact ⟨r, id, (rid_withId id _).trans (rid_freshQueue r), get_withId id _, hid⟩
    · rw [if_neg hvn, rowAt_newQueue h, if_neg hvn] at hv
      exact h.rows.ids hv

/-- A queue with a resource-id and a number is in the table. -/
theorem Holds.newQueue (h : Holds w L) (hr : FreshRid w.idl r) (hid : IsUint64 id)
    (hrun : txnModQueueId (some r) (some id) { w with next := w.next + 1, idl := { w.idl with
      queue := w.idl.queue.insert w.next (freshQueue r) } } = (.ok (), w')) :
    Holds w' (Function.update L r none) ∧ w'.idl.port = w.idl.port ∧ w'.idl.qos = w.idl.qos ∧
      (view w'.idl).queue w.next = some (r, (decimal id : Int)) := by
  obtain ⟨r', id', qid, queue, passed, hr', hid', -, hq, rfl⟩ := modQueueId_ok hrun
  cases hr'
  cases hid'
  have hqos : renumbered r qid { w.idl with
      queue := w.idl.queue.insert w.next (freshQueue r) } = w.idl.qos := by
    simp only [renumbered, findQos_newQueue h hr]
  rw [hqos, findQueue_newQueue h hr hq]
  have hrow : (w.idl.queue.insert w.next (freshQueue r)).rowAt w.next =
      some (freshQueue r) := by
    rw [rowAt_newQueue h, if_pos rfl]
  have hqueues : (fun v => (((w.idl.queue.insert w.next (freshQueue r)).update w.next
      (withId id)).rowAt v).bind queueView) =
        Function.update (view w.idl).queue w.next (some (r, (decimal id : Int))) := by
    rw [queues_withId id hrow (rid_freshQueue r)]
    funext v
    by_cases hv : v = w.next
    · rw [hv, Function.update_self, Function.update_self]
    · rw [Function.update_of_ne hv, Function.update_of_ne hv, rowAt_newQueue h, if_neg hv]
      rfl
  have hnone : (view w.idl).queue w.next = none := by
    simp [view, rowAt_fresh h.rows.fresh_queue]
  have hother : ∀ u' k', (view w.idl).queue u' ≠ some (r, k') := by
    intro u' k' hu'
    obtain ⟨q, _, hq', hrid, -⟩ := row_of_view hu'
    exact hr _ _ hq' hrid
  refine ⟨.of_view ((Rows.newQueue h hid).logged _) (congrArg₂ QueueModel.mk hqueues rfl)
    (h.links.newQueue hnone _ hother), rfl, rfl, ?_⟩
  exact (congrFun hqueues w.next).trans (Function.update_self _ _ _)

/-- When a queue may be added with a port: its number fits into 64 bits
with a sign, and no queue of the port has it. -/
def CarefulNew (db : Db) (id port : String) : Prop :=
  decimal id < 2 ^ 63 ∧ ∀ row ∈ findPort (some port) db, ∀ e ∈ portQueues db row.val,
    e.1 ≠ decimal id

instance (db : Db) (id port : String) : Decidable (CarefulNew db id port) :=
  inferInstanceAs (Decidable (_ ∧ _))

theorem Holds.addQueue (h : Holds w L) {node : Node} (hrun : txnAddQueue node w = (.ok (), w'))
    (hr : ∀ r ∈ lastContent node "resource-id", findQueue (some r) w.idl = none)
    (hid : ∀ id ∈ lastContent node "id", IsUint64 id)
    (hc : ∀ id ∈ lastContent node "id", ∀ port ∈ lastContent node "port",
      CarefulNew w.idl id port) :
    ∃ r, lastContent node "resource-id" = some r ∧
      Holds w' (Function.update L r (lastContent node "port")) := by
  obtain ⟨r, id, w₁, w₂, hnr, hnid, hmod, hport, hview⟩ := addQueue_ok hrun
  have hfresh : FreshRid w.idl r := by
    intro u q hu hrid
    have hfirst : w.idl.queue.first (fun q => q.rid = some r) = none := hr r hnr
    have hno := Table.first_none hfirst hu
    exact absurd hrid (by simpa using hno)
  obtain ⟨h₁, hp₁, hq₁, hu₁⟩ := h.newQueue hfresh (hid id hnid) hmod
  refine ⟨r, hnr, ?_⟩
  rcases hport with ⟨hn, rfl⟩ | ⟨port, hn, hlink⟩
  · rw [hn]
    exact h₁.congr hview
  · obtain ⟨hfits, hfree⟩ := hc id hnid port hn
    -- the row that is found for the resource-id is the new one
    have hfound : ∀ {queue id'}, findQueue (some r) w₁.idl = some queue →
        queue.val.externalIds.get "ofc_id" = some id' → decimal id' = decimal id := by
      intro queue id' hq hid'
      obtain ⟨hrow, hrid⟩ := findQueue_some h₁.rows hq
      have hv := view_queue hrow hrid hid'
      rw [h₁.links.rid_inj hv hu₁, hu₁] at hv
      exact (Int.ofNat.inj (Prod.mk.inj (Option.some.inj hv)).2).symm
    have hcareful : CarefulLink w₁.idl r port := by
      refine ⟨fun hq hid' => hfound hq hid' ▸ hfits, ?_, ?_⟩
      · intro queue id' row hq hid' hrow e he hk
        have hrow' : findPort (some port) w.idl = some row := by
          rw [← hrow, findPort, findPort, hp₁]
        have he' : e ∈ portQueues w.idl row.val := by
          rwa [portQueues, hq₁] at he
        rw [hfound hq hid'] at hk
        exact absurd hk (hfree row hrow' e he')
      · intro row row' _ hf
        obtain ⟨hrow', e, he, hv⟩ := findQueuePort_some h₁ hf
        have hno := h₁.links.not_mem hv (Function.update_self _ _ _) (view_port hrow') e.1
        exact absurd he hno
    have h₂ := h₁.addQueuePort hlink hcareful
    rw [Function.update_idem] at h₂
    rw [hn]
    exact h₂.congr hview

end

/-- The tables are in order after a commit. -/
theorem Holds.commit (h : Holds w L) (stored : Db) :
    Holds { w with idl := pending stored w.idl } L := by
  have hview : view (pending stored w.idl) = view w.idl := by
    have hport : (view (pending stored w.idl)).port = (view w.idl).port := by
      funext p
      simp only [view, pending, Table.rowAt_settle]
      cases hp : w.idl.port.rowAt p with
      | none => rfl
      | some a =>
        rw [Option.map_some, Option.map_some]
        cases hs : a.qos with
        | none => rw [portQueues_none hs, portQueues_none hs]
        | some s =>
          obtain ⟨x, hx, -⟩ := h.rows.row hp hs
          rw [portQueues_some h.rows.qos.settle hs ((Table.rowAt_settle _ _).trans hx),
            portQueues_some h.rows.qos hs hx]
    have hqueue : (view (pending stored w.idl)).queue = (view w.idl).queue := by
      funext u
      simp only [view, pending, Table.rowAt_settle]
    exact congrArg₂ QueueModel.mk hqueue hport
  have hfresh : ∀ {α : Type} {t : Table α}, (∀ r ∈ t, r.uuid < w.next) →
      ∀ r ∈ t.settle, r.uuid < w.next := by
    intro α t ht r hr
    obtain ⟨y, hy, heq⟩ := List.mem_map.mp
      ((Table.map_uuid_settle t).subset (List.mem_map_of_mem hr))
    rw [← heq]
    exact ht y hy
  refine .of_view ?_ hview h.links
  refine ⟨h.rows.ports.settle, h.rows.qos.settle, h.rows.queues.settle, hfresh h.rows.fresh_qos,
    hfresh h.rows.fresh_queue, ?_, ?_, ?_, ?_⟩
  · intro u q hq
    exact h.rows.ids ((Table.rowAt_settle _ _).symm.trans hq)
  · intro p a s hp hs
    obtain ⟨x, hx, hne⟩ := h.rows.row ((Table.rowAt_settle _ _).symm.trans hp) hs
    exact ⟨x, (Table.rowAt_settle _ _).trans hx, hne⟩
  · intro s x hx
    obtain ⟨p, a, hp, hs⟩ := h.rows.owner ((Table.rowAt_settle _ _).symm.trans hx)
    exact ⟨p, a, (Table.rowAt_settle _ _).trans hp, hs⟩
  · intro p p' a a' s hp hp' hs hs'
    exact h.rows.owner_inj ((Table.rowAt_settle _ _).symm.trans hp)
      ((Table.rowAt_settle _ _).symm.trans hp') hs hs'

end

end OfConfig.Proofs
