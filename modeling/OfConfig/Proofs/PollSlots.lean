import OfConfig.Proofs.SocketSessions

/-!
# `OfConfig.Proofs.PollSlots`: the slots of the UNIX-socket server

`comm_loop` keeps a counter of connected agents, an array of polled
descriptors and a switch that turns listening off when the array is full.
`SlotsConsistent` relates the three. Hang-ups, requests to close and accepted
connections keep it; `comm_destroy` does not, because it resets the counter and
leaves the slots as they are.

* `poll_slots_consistent`: in every run the accepted connections are stored in
  free slots of the array, and in every run in which nothing breaks down while
  agents are connected the counter and the switch agree with the slots.
* `poll_failure_leaves_slots`: poll fails while one agent is connected.
-/

set_option autoImplicit false

namespace OfConfig.Proofs

open OfConfig.Comm OfConfig.Comm.Socket

/-! ### The invariant -/

/-- The counter is the number of slots in use, and the server listens unless
all slots are in use. -/
structure SlotsConsistent (st : Server) : Prop where
  length : st.slots.length = agentsQueue
  count : st.connectedAgents = st.slots.countP Option.isSome
  listening : st.listening = false ↔ ∀ s ∈ st.slots, s.isSome = true

section Steps

variable {st : Server} {i fd : Nat}

theorem slotsConsistent_init : SlotsConsistent commInit where
  length := rfl
  count := rfl
  listening := by decide

/-- All slots are in use when the counter says so. -/
theorem SlotsConsistent.full_iff (h : SlotsConsistent st) :
    (∀ s ∈ st.slots, s.isSome = true) ↔ st.connectedAgents = agentsQueue := by
  rw [h.count, ← List.countP_eq_length, h.length]
  exact Int.ofNat_inj.symm

theorem lt_of_getD_some (hslot : st.slots.getD i none = some fd) : i < st.slots.length := by
  by_contra hi
  rw [List.getD_eq_getElem?_getD, List.getElem?_eq_none (Nat.not_lt.mp hi)] at hslot
  cases hslot

/-- A slot in use becomes free. -/
theorem SlotsConsistent.freeSlot (h : SlotsConsistent st)
    (hslot : st.slots.getD i none = some fd) : SlotsConsistent (st.freeSlot i) := by
  have hi := lt_of_getD_some hslot
  have hget : st.slots[i] = some fd := by
    rwa [List.getD_eq_getElem?_getD, List.getElem?_eq_getElem hi] at hslot
  refine ⟨by simp only [Server.freeSlot, List.length_set, h.length], ?_, ?_⟩
  · simp only [Server.freeSlot, List.countP_set hi, hget, h.count]
    have hpos : 0 < st.slots.countP Option.isSome :=
      List.countP_pos_iff.mpr ⟨some fd, hget ▸ List.getElem_mem hi, rfl⟩
    simp
    omega
  · have hfree : none ∈ st.slots.set i none := List.mem_set hi none
    exact iff_of_false (by simp [Server.freeSlot]) (fun hall => by
      simpa using hall none hfree)

/-- The slot that the search finds is free. -/
theorem free_of_findIdx (hfree : st.slots.findIdx? Option.isNone = some i) :
    st.slots[i]? = some none := by
  obtain ⟨hi, hnone, -⟩ := List.findIdx?_eq_some_iff_getElem.mp hfree
  rw [List.getElem?_eq_getElem hi, Option.isNone_iff_eq_none.mp hnone]

/-- A free slot is taken. -/
theorem SlotsConsistent.fillSlot (h : SlotsConsistent st)
    (hfree : st.slots.findIdx? Option.isNone = some i) : SlotsConsistent (st.fillSlot i fd) := by
  obtain ⟨hi, hget⟩ := List.getElem?_eq_some_iff.mp (free_of_findIdx hfree)
  have hlisten : st.listening = true := by
    cases hl : st.listening with
    | true => rfl
    | false =>
      have := h.listening.mp hl none (hget ▸ List.getElem_mem hi)
      cases this
  have hlength : (st.slots.set i (some fd)).length = agentsQueue := by
    rw [List.length_set, h.length]
  have hcount : st.connectedAgents + 1 =
      ((st.slots.set i (some fd)).countP Option.isSome : Int) := by
    rw [List.countP_set hi, hget, h.count]
    simp
  refine ⟨hlength, hcount, ?_⟩
  have hfull : (∀ s ∈ st.slots.set i (some fd), s.isSome = true) ↔
      st.connectedAgents + 1 = agentsQueue := by
    rw [hcount, ← List.countP_eq_length, hlength]
    exact Int.ofNat_inj.symm
  simp only [Server.fillSlot, hlisten, Bool.true_and, hfull, decide_eq_false_iff_not, not_not]

/-- What a request does to the slots. -/
theorem SlotsConsistent.serve (h : SlotsConsistent st)
    (hslot : st.slots.getD i none = some fd) (conn : Nat) (req : Request) :
    SlotsConsistent (serve i fd conn req st).1 ∧
      (st.listening = true → (Socket.serve i fd conn req st).1.listening = true) := by
  cases req with
  | closeSession =>
    have hclosed : SlotsConsistent
        (({ st with agents := (closeSession fd st.agents).2 }).close fd) :=
      ⟨h.length, h.count, h.listening⟩
    exact ⟨hclosed.freeSlot hslot, fun _ => rfl⟩
  | genericop dump =>
    unfold Socket.serve
    dsimp only
    split
    · exact ⟨h, id⟩
    · exact ⟨h, id⟩
  | _ => exact ⟨⟨h.length, h.count, h.listening⟩, id⟩

/-- The loop over the slots. A server that listens goes on listening. -/
theorem SlotsConsistent.serveSlots (evs : List SlotEvent) (i : Nat) (ret : Int) {st : Server}
    (h : SlotsConsistent st) :
    SlotsConsistent (serveSlots i evs ret st).1.1 ∧
      (st.listening = true → (Socket.serveSlots i evs ret st).1.1.listening = true) := by
  induction evs generalizing i ret st with
  | nil => exact ⟨h, id⟩
  | cons ev evs ih =>
    unfold Socket.serveSlots
    split
    · split
      · next hslot =>
          obtain ⟨hc, hl⟩ := ih (i + 1) ret (h.freeSlot hslot)
          exact ⟨hc, fun _ => hl rfl⟩
      · next fd req hslot =>
          split
          · next req conn hconn =>
              obtain ⟨hc, hl⟩ := h.serve hslot conn req
              dsimp only
              split
              · exact ⟨hc, hl⟩
              · obtain ⟨hc', hl'⟩ := ih (i + 1) (ret - 1) hc
                exact ⟨hc', fun hst => hl' (hl hst)⟩
          · exact ih (i + 1) (ret - 1) h
      · exact ih (i + 1) ret h
    · exact ⟨h, id⟩

end Steps

/-- A slot in use keeps its descriptor. -/
def KeepsSlots (st st' : Server) : Prop :=
  ∀ i fd : Nat, st.slots[i]? = some (some fd) → st'.slots[i]? = some (some fd)

theorem keepsSlots_fillSlot {st : Server} {i : Nat}
    (hfree : st.slots.findIdx? Option.isNone = some i) (fd : Nat) :
    KeepsSlots st (st.fillSlot i fd) := by
  intro k fd' hk
  have hne : i ≠ k := by
    rintro rfl
    rw [free_of_findIdx hfree] at hk
    cases hk
  simpa only [Server.fillSlot, List.getElem?_set_ne hne] using hk

/-- While the server listens there is a free slot. -/
theorem SlotsConsistent.exists_free {st : Server} (h : SlotsConsistent st)
    (hlisten : st.listening = true) : ∃ i, st.slots.findIdx? Option.isNone = some i := by
  cases hfind : st.slots.findIdx? Option.isNone with
  | some i => exact ⟨i, rfl⟩
  | none =>
    have hall : ∀ s ∈ st.slots, s.isSome = true := by
      intro s hs
      have := List.findIdx?_eq_none_iff.mp hfind s hs
      simpa using this
    rw [h.listening.mpr hall] at hlisten
    cases hlisten

/-- The loop over accept never runs out of slots. -/
theorem SlotsConsistent.acceptLoop (fds : List Nat) {st : Server} (h : SlotsConsistent st)
    (hlisten : st.listening = true) :
    ∃ st' full, acceptLoop fds st = some (st', full) ∧ SlotsConsistent st' ∧ KeepsSlots st st' := by
  induction fds generalizing st with
  | nil => exact ⟨st, false, rfl, h, fun _ _ hk => hk⟩
  | cons fd fds ih =>
    obtain ⟨i, hi⟩ := h.exists_free hlisten
    have hfill : SlotsConsistent (st.fillSlot i fd) := h.fillSlot hi
    have hkeep := keepsSlots_fillSlot hi fd
    unfold Socket.acceptLoop
    rw [hi]
    dsimp only
    by_cases hfull : (st.fillSlot i fd).connectedAgents = agentsQueue
    · exact ⟨_, true, if_pos hfull, hfill, hkeep⟩
    · have hgo : (st.fillSlot i fd).listening = true := by
        cases hl : (st.fillSlot i fd).listening with
        | true => rfl
        | false => exact absurd (hfill.full_iff.mp (hfill.listening.mp hl)) hfull
      obtain ⟨st', full, hrun, hc, hk⟩ := ih hfill hgo
      exact ⟨st', full, by rw [if_neg hfull, hrun], hc,
        fun k fd' hslot => hk k fd' (hkeep k fd' hslot)⟩

/-! ### Rounds -/

/-- The server when a round comes to its loop over accept, with the
connections that are waiting; `none` when the round does not come there. -/
def acceptsFrom (poll : Poll) (st : Server) : Option (Server × List Nat) :=
  match poll with
  | .ready slots (.input accepted again) =>
    let r := serveSlots 0 slots (pollCount slots (.input accepted again) st) st
    if st.alive && st.listening && !r.2 then some (r.1.1, accepted) else none
  | _ => none

/-- Every connection that accept returns in the round is stored in a free slot
of the array. -/
structure StoresInFreeSlots (poll : Poll) (st : Server) : Prop where
  /-- no connection is written behind the last slot -/
  inside : (commLoop poll st).isSome = true
  /-- no slot in use is overwritten -/
  kept : ∀ st₁ accepted, acceptsFrom poll st = some (st₁, accepted) →
    ∃ st₂ full, acceptLoop accepted st₁ = some (st₂, full) ∧ KeepsSlots st₁ st₂

/-- Nothing breaks down while agents are connected: poll fails and the
listening socket reports an error only without an agent, and accept ends
with `EAGAIN`. -/
def NoBreakdown (st : Server) : Poll → Prop
  | .failed => st.connectedAgents = 0
  | .timeout => True
  | .ready _ .idle => True
  | .ready _ .error => st.connectedAgents = 0
  | .ready _ (.input _ again) => again = true

section Round

variable {st st' : Server} {poll : Poll} {evs : List Event}

/-- `comm_destroy` without connected agents leaves the slots consistent. -/
theorem SlotsConsistent.destroy (h : SlotsConsistent st) (hnone : st.connectedAgents = 0) :
    SlotsConsistent (commDestroy st) := by
  unfold commDestroy
  rw [if_neg (by omega)]
  exact ⟨h.length, h.count, h.listening⟩

/-- Without connected agents the loop over the slots does nothing. -/
theorem serveSlots_of_none (hnone : st.connectedAgents = 0) (evs : List SlotEvent) (i : Nat)
    (ret : Int) : (serveSlots i evs ret st).1.1 = st := by
  cases evs with
  | nil => rfl
  | cons ev evs =>
    unfold serveSlots
    rw [if_neg (by omega)]

/-- The server after `comm_destroy` does nothing any more. -/
theorem commLoop_of_dead (hdead : st.alive = false) (poll : Poll) :
    commLoop poll st = some (st, []) := by
  unfold commLoop
  rw [hdead]
  rfl

/-- What a round leaves: the slots are consistent, or the server is gone. In
a round without a breakdown they are consistent. -/
theorem SlotsConsistent.round (h : SlotsConsistent st) (hrun : commLoop poll st = some (st', evs)) :
    (SlotsConsistent st' ∨ st'.alive = false) ∧ (NoBreakdown st poll → SlotsConsistent st') := by
  have hdestroy : ∀ s : Server, (commDestroy s).alive = false := by
    intro s
    unfold commDestroy
    split <;> rfl
  have hok : ∀ {s : Server}, SlotsConsistent s →
      (SlotsConsistent s ∨ s.alive = false) ∧ (NoBreakdown st poll → SlotsConsistent s) :=
    fun hs => ⟨.inl hs, fun _ => hs⟩
  unfold commLoop at hrun
  split at hrun
  · cases hrun
    exact hok h
  · cases poll with
    | failed =>
      cases hrun
      exact ⟨.inr (hdestroy st), fun hno => h.destroy hno⟩
    | timeout =>
      cases hrun
      exact hok h
    | ready slots listen =>
      obtain ⟨hserve, hlisten⟩ := h.serveSlots slots 0 (pollCount slots listen st)
      dsimp only at hrun
      split at hrun
      · rw [Option.some.inj hrun] at hserve
        exact hok hserve
      · split at hrun
        · rw [Option.some.inj hrun] at hserve
          exact hok hserve
        · next hl =>
            cases listen with
            | idle =>
              rw [Option.some.inj hrun] at hserve
              exact hok hserve
            | error =>
              cases hrun
              refine ⟨.inr (hdestroy _), fun hno => ?_⟩
              rw [serveSlots_of_none hno]
              exact h.destroy hno
            | input accepted again =>
              obtain ⟨st₂, full, hacc, hc, -⟩ :=
                hserve.acceptLoop accepted (hlisten (by simpa using hl))
              dsimp only at hrun
              rw [hacc] at hrun
              cases hrun
              split
              · exact hok hc
              · next hend =>
                  refine ⟨.inr (hdestroy _), fun hno => ?_⟩
                  have hagain : again = true := hno
                  simp [hagain] at hend

/-- The loop over accept, as a round comes to it. -/
theorem SlotsConsistent.accepts (h : SlotsConsistent st) {st₁ : Server} {accepted : List Nat}
    (hfrom : acceptsFrom poll st = some (st₁, accepted)) :
    ∃ st₂ full, Socket.acceptLoop accepted st₁ = some (st₂, full) ∧ KeepsSlots st₁ st₂ := by
  unfold acceptsFrom at hfrom
  split at hfrom
  · next slots acc again =>
      obtain ⟨hserve, hlisten⟩ :=
        h.serveSlots slots 0 (pollCount slots (.input acc again) st)
      dsimp only at hfrom
      split at hfrom
      · next hgo =>
          have hl : st.listening = true := by
            rw [Bool.and_eq_true, Bool.and_eq_true] at hgo
            exact hgo.1.2
          cases hfrom
          obtain ⟨st₂, full, hacc, -, hkeep⟩ := hserve.acceptLoop accepted (hlisten hl)
          exact ⟨st₂, full, hacc, hkeep⟩
      · cases hfrom
  · cases hfrom

/-- A round does not write behind the last slot. -/
theorem SlotsConsistent.isSome_commLoop (h : SlotsConsistent st) (poll : Poll) :
    (commLoop poll st).isSome = true := by
  unfold commLoop
  split
  · rfl
  · cases poll with
    | failed => rfl
    | timeout => rfl
    | ready slots listen =>
      obtain ⟨hserve, hlisten⟩ := h.serveSlots slots 0 (pollCount slots listen st)
      dsimp only
      split
      · rfl
      · split
        · rfl
        · next hl =>
            cases listen with
            | idle => rfl
            | error => rfl
            | input accepted again =>
              obtain ⟨st₂, full, hacc, -⟩ :=
                hserve.acceptLoop accepted (hlisten (by simpa using hl))
              dsimp only
              rw [hacc]
              rfl

end Round

/-! ### Runs -/

/-- The states after calls of `comm_loop`, each of the given kind. -/
inductive RoundsTo (P : Server → Poll → Prop) : Server → Prop where
  | init : RoundsTo P commInit
  | round {st st' : Server} {poll : Poll} {evs : List Event} (hreach : RoundsTo P st)
      (hpoll : P st poll) (hrun : commLoop poll st = some (st', evs)) : RoundsTo P st'

/-- In every run the slots are consistent, until the server is gone. -/
theorem consistent_or_dead {P : Server → Poll → Prop} {st : Server} (hreach : RoundsTo P st) :
    SlotsConsistent st ∨ st.alive = false := by
  induction hreach with
  | init => exact .inl slotsConsistent_init
  | round _ _ hrun ih =>
    rcases ih with h | hdead
    · exact (h.round hrun).1
    · rw [commLoop_of_dead hdead] at hrun
      cases hrun
      exact .inr hdead

/-- As long as nothing breaks down, they stay consistent. -/
theorem consistent_of_noBreakdown {st : Server} (hreach : RoundsTo NoBreakdown st) :
    SlotsConsistent st := by
  induction hreach with
  | init => exact slotsConsistent_init
  | round _ hpoll hrun ih => exact (ih.round hrun).2 hpoll

/-- For every sequence of calls of `comm_loop` and all outcomes of poll, recv
and accept: accepted connections are stored in free slots of the array. If
nothing broke down while agents were connected, the counter is the number of
slots in use and the server listens unless all of them are. -/
theorem poll_slots_consistent (st : Server) (hreach : RoundsTo (fun _ _ => True) st) :
    (∀ poll, StoresInFreeSlots poll st) ∧ (RoundsTo NoBreakdown st → SlotsConsistent st) := by
  refine ⟨fun poll => ?_, fun hno => ?_⟩
  · rcases consistent_or_dead hreach with h | hdead
    · exact ⟨h.isSome_commLoop poll, fun _ _ hfrom => h.accepts hfrom⟩
    · refine ⟨by rw [commLoop_of_dead hdead]; rfl, fun st₁ accepted hfrom => ?_⟩
      unfold acceptsFrom at hfrom
      split at hfrom
      · dsimp only at hfrom
        rw [hdead, Bool.false_and, Bool.false_and, if_neg Bool.false_ne_true] at hfrom
        cases hfrom
      · cases hfrom
  · exact consistent_of_noBreakdown hno

/-- Poll reports one new connection, on descriptor 7. -/
def oneConnection : Poll := .ready [] (.input [7] true)

/-- The server after one connection. -/
def oneConnected : Server := commInit.fillSlot 0 7

theorem oneConnected_run : commLoop oneConnection commInit = some (oneConnected, []) := rfl

/-- A connection that is accepted and then idle. -/
theorem poll_slots_consistent_one :
    (∀ poll, StoresInFreeSlots poll oneConnected) ∧ SlotsConsistent oneConnected := by
  have hreach : ∀ {P : Server → Poll → Prop}, P commInit oneConnection → RoundsTo P oneConnected :=
    fun hp => .round .init hp oneConnected_run
  obtain ⟨hstore, hcons⟩ := poll_slots_consistent oneConnected (hreach trivial)
  exact ⟨hstore, hcons (hreach rfl)⟩

/-- When poll fails while an agent is connected, `comm_destroy` sets the counter
to zero and the slot keeps its descriptor. -/
theorem poll_failure_leaves_slots :
    RoundsTo (fun _ _ => True) (commDestroy oneConnected) ∧
    (commDestroy oneConnected).connectedAgents = 0 ∧
    (commDestroy oneConnected).slots[0]? = some (some 7) ∧
    ¬ SlotsConsistent (commDestroy oneConnected) := by
  refine ⟨.round (.round .init trivial oneConnected_run) trivial
    (rfl : commLoop .failed oneConnected = some (commDestroy oneConnected, [])), rfl, rfl, ?_⟩
  intro h
  exact absurd h.count (by decide)

end OfConfig.Proofs
