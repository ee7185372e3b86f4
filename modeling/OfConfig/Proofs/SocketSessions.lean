import OfConfig.Comm.Socket
import OfConfig.Proofs.KillSession

/-!
# `OfConfig.Proofs.SocketSessions`: whose session a request runs under

An agent's requests are served with the first record that has the text of
its descriptor as id. `step` is one thing that can happen to the server,
and `commLoop_run` says that a round of `comm_loop` is a sequence of such
steps.

`Sound` is the invariant: every record belongs to a connection that is
still open. A hang-up keeps it, because the descriptor is not closed then
and does not come back. A close keeps it only if it removes all records of
the connection, and it removes one. `requests_run_under_own_session` is
the result for runs in which that is enough.
-/

set_option autoImplicit false

namespace OfConfig.Proofs

open OfConfig.Comm OfConfig.Comm.Socket

variable {c fd : Nat} {r : Server × List Event} {st st' : Server}

/-! ### Steps -/

/-- What can happen to the server. -/
inductive Input where
  | accept (fd : Nat)
  | hangup (slot : Nat)
  | request (slot : Nat) (req : Request)

/-- One step; `none` stands for the write behind the last slot. -/
def step (st : Server) : Input → Option (Server × List Event)
  | .accept fd => (st.slots.findIdx? Option.isNone).map (fun i => (st.fillSlot i fd, []))
  | .hangup i => some (if (st.slots.getD i none).isSome then st.freeSlot i else st, [])
  | .request i req =>
    match (st.slots.getD i none).bind (fun fd => (st.conn fd).map (fd, ·)) with
    | none => some (st, [])
    | some (fd, conn) => some (serve i fd conn req st)

/-- A sequence of steps, with what was done. -/
def runSteps : List Input → Server → Option (Server × List Event)
  | [], st => some (st, [])
  | i :: is, st =>
    match step st i with
    | none => none
    | some r => (runSteps is r.1).map (fun q => (q.1, r.2 ++ q.2))

theorem runSteps_cons {i : Input} {is : List Input} (h : step st i = some r) :
    runSteps (i :: is) st = (runSteps is r.1).map (fun q => (q.1, r.2 ++ q.2)) := by
  simp only [runSteps, h]

theorem runSteps_append {is js : List Input} {st₁ st₂ : Server} {e₁ e₂ : List Event}
    (h₁ : runSteps is st = some (st₁, e₁)) (h₂ : runSteps js st₁ = some (st₂, e₂)) :
    runSteps (is ++ js) st = some (st₂, e₁ ++ e₂) := by
  induction is generalizing st e₁ with
  | nil =>
    obtain ⟨rfl, rfl⟩ : st = st₁ ∧ [] = e₁ := by simpa [runSteps] using h₁
    exact h₂
  | cons i is ih =>
    simp only [runSteps, List.cons_append] at h₁ ⊢
    split at h₁
    · simp at h₁
    · next r hstep =>
        obtain ⟨⟨s, e⟩, hr, heq⟩ := Option.map_eq_some_iff.mp h₁
        obtain ⟨rfl, rfl⟩ : s = st₁ ∧ r.2 ++ e = e₁ := by simpa using heq
        simp [ih hr]

/-! ### A round of `comm_loop` is a sequence of steps -/

theorem serveSlots_run (evs : List SlotEvent) (i : Nat) (ret : Int) (st : Server) :
    ∃ is, runSteps is st = some (serveSlots i evs ret st).1 := by
  induction evs generalizing i ret st with
  | nil => exact ⟨[], rfl⟩
  | cons ev evs ih =>
    unfold serveSlots
    split
    · split
      · next hslot =>
          have hstep : step st (.hangup i) = some (st.freeSlot i, []) := by
            simp only [step, hslot, Option.isSome_some, if_true]
          obtain ⟨is, his⟩ := ih (i + 1) ret (st.freeSlot i)
          exact ⟨.hangup i :: is, by rw [runSteps_cons hstep, his]; rfl⟩
      · next fd req hslot =>
          split
          · next req conn hconn =>
              have hstep : step st (.request i req) = some (serve i fd conn req st) := by
                simp only [step, hslot, Option.bind_some, hconn, Option.map_some]
              simp only
              split
              · exact ⟨[.request i req], by rw [runSteps_cons hstep]; simp [runSteps]⟩
              · obtain ⟨is, his⟩ := ih (i + 1) (ret - 1) (serve i fd conn req st).1
                exact ⟨.request i req :: is, by rw [runSteps_cons hstep, his]; rfl⟩
          · exact ih (i + 1) (ret - 1) st
      · exact ih (i + 1) ret st
    · exact ⟨[], rfl⟩

theorem acceptLoop_run {fds : List Nat} {full : Bool} (h : acceptLoop fds st = some (st', full)) :
    ∃ is, runSteps is st = some (st', []) := by
  induction fds generalizing st with
  | nil =>
    obtain ⟨rfl, -⟩ : st = st' ∧ false = full := by simpa [acceptLoop] using h
    exact ⟨[], rfl⟩
  | cons fd fds ih =>
    simp only [acceptLoop] at h
    split at h
    · simp at h
    · next i hi =>
        have hstep : step st (.accept fd) = some (st.fillSlot i fd, []) := by
          simp only [step, hi, Option.map_some]
        split at h
        · obtain ⟨rfl, -⟩ : st.fillSlot i fd = st' ∧ true = full := by simpa using h
          exact ⟨[.accept fd], by rw [runSteps_cons hstep]; rfl⟩
        · obtain ⟨is, his⟩ := ih h
          exact ⟨.accept fd :: is, by rw [runSteps_cons hstep, his]; rfl⟩

/-- A round of `comm_loop` is a sequence of steps, and possibly the end of
the server. -/
theorem commLoop_run {poll : Poll} {evs : List Event} (h : commLoop poll st = some (st', evs)) :
    ∃ is st₁, runSteps is st = some (st₁, evs) ∧ (st' = st₁ ∨ st' = commDestroy st₁) := by
  unfold commLoop at h
  split at h
  · cases h
    exact ⟨[], st, rfl, .inl rfl⟩
  · split at h
    · cases h
      exact ⟨[], st, rfl, .inr rfl⟩
    · cases h
      exact ⟨[], st, rfl, .inl rfl⟩
    · next slots listen =>
        obtain ⟨is, his⟩ := serveSlots_run slots 0 (pollCount slots listen st) st
        simp only at h
        split at h
        · exact ⟨is, st', his.trans h, .inl rfl⟩
        · split at h
          · exact ⟨is, st', his.trans h, .inl rfl⟩
          · split at h
            · exact ⟨is, st', his.trans h, .inl rfl⟩
            · cases h
              exact ⟨is, _, his, .inr rfl⟩
            · split at h
              · simp at h
              · next st₂ full hacc =>
                  obtain ⟨js, hjs⟩ := acceptLoop_run hacc
                  have hrun := runSteps_append his hjs
                  rw [List.append_nil] at hrun
                  cases h
                  refine ⟨is ++ js, st₂, hrun, ?_⟩
                  split
                  · exact .inl rfl
                  · exact .inr rfl

/-! ### Runs -/

/-- What the kernel promises: accept is called on the listening socket
and does not return a descriptor that is open. -/
def Input.Possible (st : Server) : Input → Prop
  | .accept fd => st.listening = true ∧ fd ∉ st.fds.map Prod.fst
  | _ => True

/-- A new descriptor fits into an agent id, and a close is asked for on a
connection with at most one record. -/
def Input.Careful (st : Server) : Input → Prop
  | .accept fd => fd < 100000
  | .request i .closeSession =>
    ∀ fd ∈ st.slots.getD i none, st.agents.countP (·.id = agentId fd) ≤ 1
  | _ => True

/-- Whether the kernel allows a step can be computed. -/
instance Input.decidablePossible (st : Server) : (i : Input) → Decidable (i.Possible st)
  | .accept fd => inferInstanceAs (Decidable (st.listening = true ∧ fd ∉ st.fds.map Prod.fst))
  | .hangup _ => inferInstanceAs (Decidable True)
  | .request _ _ => inferInstanceAs (Decidable True)

/-- Whether a step is careful can be computed. -/
instance Input.decidableCareful (st : Server) : (i : Input) → Decidable (i.Careful st)
  | .accept fd => inferInstanceAs (Decidable (fd < 100000))
  | .hangup _ => inferInstanceAs (Decidable True)
  | .request i .closeSession => inferInstanceAs
      (Decidable (∀ fd ∈ st.slots.getD i none, st.agents.countP (·.id = agentId fd) ≤ 1))
  | .request _ .getCpblts => inferInstanceAs (Decidable True)
  | .request _ (.setSession _) => inferInstanceAs (Decidable True)
  | .request _ (.killSession _) => inferInstanceAs (Decidable True)
  | .request _ (.genericop _) => inferInstanceAs (Decidable True)
  | .request _ .unsupported => inferInstanceAs (Decidable True)

/-- Steps that the kernel allows and that are careful. -/
def CarefulStep (st : Server) (i : Input) : Prop := i.Possible st ∧ i.Careful st

instance (st : Server) (i : Input) : Decidable (CarefulStep st i) :=
  inferInstanceAs (Decidable (_ ∧ _))

/-- A state that is reached with steps of a kind, and what was done on the
way. -/
inductive Reaches (P : Server → Input → Prop) : Server → List Event → Prop where
  | init : Reaches P commInit []
  | step {st : Server} {h : List Event} {i : Input} {r : Server × List Event}
      (hreach : Reaches P st h) (hP : P st i) (hstep : step st i = some r) :
      Reaches P r.1 (h ++ r.2)

/-- Are all steps of a run of the kind? -/
def allSteps (P : Server → Input → Prop) [∀ st i, Decidable (P st i)] :
    List Input → Server → Bool
  | [], _ => true
  | i :: is, st => decide (P st i) && (step st i).all (fun r => allSteps P is r.1)

theorem reaches_run {P : Server → Input → Prop} [∀ st i, Decidable (P st i)] {is : List Input}
    {h : List Event} (hreach : Reaches P st h) (hall : allSteps P is st = true)
    (hrun : runSteps is st = some r) : Reaches P r.1 (h ++ r.2) := by
  induction is generalizing st h r with
  | nil =>
    obtain rfl : (st, []) = r := by simpa [runSteps] using hrun
    simpa using hreach
  | cons i is ih =>
    rw [allSteps, Bool.and_eq_true, decide_eq_true_iff] at hall
    cases hstep : step st i with
    | none => simp [runSteps, hstep] at hrun
    | some r₁ =>
      rw [runSteps_cons hstep] at hrun
      obtain ⟨r₂, hr₂, rfl⟩ := Option.map_eq_some_iff.mp hrun
      have hrest : allSteps P is r₁.1 = true := by simpa [hstep] using hall.2
      have hreach' := ih (.step hreach hall.1 hstep) hrest hr₂
      rwa [List.append_assoc] at hreach'

/-! ### Agent ids -/

/-- Descriptors of at most five digits have different ids. -/
theorem agentId_inj {fd' : Nat} (h : fd < 100000) (h' : fd' < 100000)
    (heq : agentId fd = agentId fd') : fd = fd' := by
  have htake : ∀ n, n < 100000 → (Nat.toDigits 10 n).take 5 = Nat.toDigits 10 n := by
    intro n hn
    exact List.take_of_length_le ((Nat.length_toDigits_le_iff (by decide) (by decide)).mpr hn)
  have hdigits := String.ofList_injective heq
  rw [htake fd h, htake fd' h'] at hdigits
  rw [← Nat.ofDigitChars_ten_toDigits (n := fd), hdigits, Nat.ofDigitChars_ten_toDigits]

/-! ### The invariant -/

/-- Every record belongs to an open connection and was registered there. -/
structure Sound (st : Server) (h : List Event) : Prop where
  nodup : (st.fds.map Prod.fst).Nodup
  small : ∀ p ∈ st.fds, p.1 < 100000
  owned : ∀ a ∈ st.agents, ∃ p ∈ st.fds, a.id = agentId p.1 ∧ a.origin = p.2
  logged : ∀ a ∈ st.agents, Event.registered a.origin a ∈ h
  served : ∀ h₁ c a d h₂, h = h₁ ++ Event.executed c a d :: h₂ → Event.registered c a ∈ h₁

variable {st : Server} {h : List Event}

theorem conn_mem (hc : st.conn fd = some c) : (fd, c) ∈ st.fds := by
  obtain ⟨p, hp, rfl⟩ := Option.map_eq_some_iff.mp hc
  obtain rfl : p.1 = fd := by simpa using List.find?_some hp
  exact List.mem_of_find?_eq_some hp

/-- A record with the id of an open descriptor belongs to the connection
behind it. -/
theorem Sound.origin (hs : Sound st h) {a : AgentInfo Nat} (ha : a ∈ st.agents)
    (hfd : (fd, c) ∈ st.fds) (hid : a.id = agentId fd) : a.origin = c := by
  obtain ⟨p, hp, hpid, hpo⟩ := hs.owned a ha
  have hfst : p.1 = fd := agentId_inj (hs.small p hp) (hs.small _ hfd) (hpid.symm.trans hid)
  have heq : p = (fd, c) := List.inj_on_of_nodup_map hs.nodup hp hfd hfst
  rw [hpo, heq]

/-- A step that executes no request and adds no record. -/
theorem Sound.fewer (hs : Sound st h) (hfds : st'.fds = st.fds)
    (hagents : ∀ a ∈ st'.agents, a ∈ st.agents) : Sound st' h where
  nodup := hfds ▸ hs.nodup
  small := hfds ▸ hs.small
  owned a ha := hfds ▸ hs.owned a (hagents a ha)
  logged a ha := hs.logged a (hagents a ha)
  served := hs.served

/-- More history, in which requests were executed under sessions that were
registered before. -/
theorem Sound.append (hs : Sound st h) {evs : List Event}
    (hevs : ∀ c a d, Event.executed c a d ∈ evs → Event.registered c a ∈ h) :
    Sound st (h ++ evs) where
  nodup := hs.nodup
  small := hs.small
  owned := hs.owned
  logged a ha := List.mem_append_left _ (hs.logged a ha)
  served := by
    intro h₁ c a d h₂ heq
    rcases List.append_eq_append_iff.mp heq with ⟨l, rfl, hl⟩ | ⟨l, rfl, hl⟩
    · exact List.mem_append_left _ (hevs c a d (by simp [hl]))
    · cases l with
      | nil =>
        rw [List.nil_append] at hl
        rw [List.append_nil] at hevs
        exact hevs c a d (hl ▸ List.mem_cons_self)
      | cons e l =>
        obtain ⟨rfl, -⟩ := List.cons_eq_cons.mp hl
        exact hs.served h₁ c a d l rfl

theorem Sound.accept (hs : Sound st h) {i : Nat} (hnew : fd ∉ st.fds.map Prod.fst)
    (hsmall : fd < 100000) : Sound (st.fillSlot i fd) h where
  nodup := List.nodup_cons.mpr ⟨hnew, hs.nodup⟩
  small := by
    intro p hp
    rcases List.mem_cons.mp hp with rfl | hp
    · exact hsmall
    · exact hs.small p hp
  owned := by
    intro a ha
    obtain ⟨p, hp, hpid, hpo⟩ := hs.owned a ha
    exact ⟨p, List.mem_cons_of_mem _ hp, hpid, hpo⟩
  logged := hs.logged
  served := hs.served

/-- After a session is registered on an open connection. -/
theorem Sound.register (hs : Sound st h) (hfd : (fd, c) ∈ st.fds) (session : Session)
    (pid : UInt16) :
    let agent : AgentInfo Nat := ⟨agentId fd, pid.toNat, session, c⟩
    Sound { st with agents := st.agents ++ [agent] } (h ++ [.registered c agent]) := by
  intro agent
  have hmore : Sound st (h ++ [.registered c agent]) := hs.append (by simp)
  refine ⟨hs.nodup, hs.small, ?_, ?_, hmore.served⟩
  · intro a ha
    rcases List.mem_append.mp ha with ha | ha
    · exact hs.owned a ha
    · obtain rfl := List.mem_singleton.mp ha
      exact ⟨(fd, c), hfd, rfl, rfl⟩
  · intro a ha
    rcases List.mem_append.mp ha with ha | ha
    · exact hmore.logged a ha
    · obtain rfl := List.mem_singleton.mp ha
      simp [agent]

/-- The records that a close leaves, when there was at most one of the
connection. -/
theorem closeSession_left {agents : Agents} (hone : agents.countP (·.id = agentId fd) ≤ 1) :
    ∀ a ∈ (closeSession fd agents).2, a ∈ agents ∧ a.id ≠ agentId fd := by
  intro a ha
  cases hf : srvGetAgentByAgentid (agentId fd) agents with
  | none =>
    rw [closeSession, hf] at ha
    exact ⟨ha, srvGetAgentByAgentid_eq_none.mp hf a ha⟩
  | some j =>
    rw [closeSession, hf] at ha
    change a ∈ srvAgentStop j agents at ha
    have hmem := (srvAgentStop_sublist j agents).subset ha
    refine ⟨hmem, ?_⟩
    intro hid
    -- the record that is removed and this one would be two
    have herase : srvAgentStop j agents = agents.eraseP (fun a => a.id = agentId fd) := by
      rw [List.eraseP_eq_eraseIdx, show agents.findIdx? _ = some j from hf]
      rfl
    obtain ⟨b, l₁, l₂, hl₁, hb, hsplit, hleft⟩ :=
      List.exists_of_eraseP (p := fun a => a.id = agentId fd) hmem (by simpa using hid)
    rw [herase, hleft] at ha
    have ha₂ : a ∈ l₂ := by
      rcases List.mem_append.mp ha with ha | ha
      · exact absurd (by simpa using hid) (hl₁ a ha)
      · exact ha
    have hpos : 0 < l₂.countP (fun a => a.id = agentId fd) :=
      List.countP_pos_iff.mpr ⟨a, ha₂, by simpa using hid⟩
    have hcons : (b :: l₂).countP (fun a => a.id = agentId fd) =
        l₂.countP (fun a => a.id = agentId fd) + 1 := List.countP_cons_of_pos hb
    rw [hsplit, List.countP_append, hcons] at hone
    omega

/-- After a close that leaves no record of the connection. -/
theorem Sound.closed (hs : Sound st h) (i : Nat) (hone : st.agents.countP (·.id = agentId fd) ≤ 1) :
    Sound ((({ st with agents := (closeSession fd st.agents).2 }).close fd).freeSlot i) h where
  nodup := ((List.filter_sublist).map _).nodup hs.nodup
  small p hp := hs.small p (List.mem_filter.mp hp).1
  owned := by
    intro a ha
    obtain ⟨hmem, hne⟩ := closeSession_left hone a ha
    obtain ⟨p, hp, hpid, hpo⟩ := hs.owned a hmem
    refine ⟨p, List.mem_filter.mpr ⟨hp, ?_⟩, hpid, hpo⟩
    have hfst : p.1 ≠ fd := by
      rintro rfl
      exact hne hpid
    simpa using hfst
  logged a ha := hs.logged a (closeSession_left hone a ha).1
  served := hs.served

theorem killSessionBy_subset {γ : Type} (id : String) (ncsid : Option String)
    (agents : List (AgentInfo γ)) : ∀ a ∈ (killSessionBy id ncsid agents).agents, a ∈ agents := by
  intro a ha
  unfold killSessionBy at ha
  split at ha
  · exact ha
  · split at ha
    · exact ha
    · split at ha
      · exact ha
      · split at ha
        · exact ha
        · exact (srvAgentStop_sublist _ agents).subset ha

/-- The record an RPC is executed with is one of the connection. -/
theorem Sound.executed (hs : Sound st h) (hfd : (fd, c) ∈ st.fds) {msg : Option String}
    {a : AgentInfo Nat} {d : String} (hop : processOperation fd msg st.agents = .executed a d) :
    Event.registered c a ∈ h := by
  unfold processOperation at hop
  split at hop
  · simp at hop
  · split at hop
    · simp at hop
    · next agent hfound =>
        obtain ⟨rfl, -⟩ : agent = a ∧ _ = d := by simpa using hop
        obtain ⟨j, hj, hget⟩ := Option.bind_eq_some_iff.mp hfound
        obtain ⟨b, hb, hid⟩ := srvGetAgentByAgentid_eq_some hj
        obtain rfl : b = agent := by simpa using hb.symm.trans hget
        have hmem := List.mem_of_getElem? hget
        rw [← hs.origin hmem hfd hid]
        exact hs.logged b hmem

/-- One request more. -/
theorem Sound.serve (hs : Sound st h) {i : Nat} (hfd : (fd, c) ∈ st.fds) (req : Request)
    (hclose : req = .closeSession → st.agents.countP (·.id = agentId fd) ≤ 1) :
    Sound (serve i fd c req st).1 (h ++ (serve i fd c req st).2) := by
  cases req with
  | getCpblts =>
    rw [Socket.serve, List.append_nil]
    exact hs
  | unsupported =>
    rw [Socket.serve, List.append_nil]
    exact hs
  | killSession ncsid =>
    rw [Socket.serve]
    refine (hs.append ?_).fewer rfl (killSessionBy_subset _ _ _)
    simp
  | closeSession =>
    rw [Socket.serve, List.append_nil]
    exact hs.closed i (hclose rfl)
  | setSession info =>
    cases info with
    | none => simpa [Socket.serve, setSession] using hs
    | some info =>
      have hreg := hs.register hfd info.1 info.2
      simpa [Socket.serve, setSession, srvAgentNew] using hreg
  | genericop msg =>
    rw [Socket.serve]
    cases hop : processOperation fd msg st.agents with
    | rejected m => exact hs.append (by simp)
    | executed a d =>
      refine hs.append ?_
      intro c' a' d' hmem
      obtain ⟨rfl, rfl, rfl⟩ : c' = c ∧ a' = a ∧ d' = d := by simpa using hmem
      exact hs.executed hfd hop

theorem sound_init : Sound commInit [] where
  nodup := List.nodup_nil
  small _ hp := absurd hp List.not_mem_nil
  owned _ ha := absurd ha List.not_mem_nil
  logged _ ha := absurd ha List.not_mem_nil
  served := by simp

/-- The invariant is kept by a step. -/
theorem Sound.step (hs : Sound st h) {i : Input} (hpos : i.Possible st) (hcare : i.Careful st)
    (hstep : step st i = some r) : Sound r.1 (h ++ r.2) := by
  cases i with
  | accept fd =>
    obtain ⟨j, -, rfl⟩ := Option.map_eq_some_iff.mp hstep
    rw [List.append_nil]
    exact hs.accept hpos.2 hcare
  | hangup j =>
    cases hstep
    rw [List.append_nil]
    split
    · exact hs.fewer rfl (fun _ ha => ha)
    · exact hs
  | request j req =>
    simp only [Proofs.step] at hstep
    split at hstep
    · cases hstep
      rw [List.append_nil]
      exact hs
    · next fd conn hslot =>
        cases hstep
        obtain ⟨fd', hfd', hconn⟩ := Option.bind_eq_some_iff.mp hslot
        obtain ⟨conn', hconn', heq⟩ := Option.map_eq_some_iff.mp hconn
        obtain ⟨rfl, rfl⟩ : fd' = fd ∧ conn' = conn := by simpa using heq
        refine hs.serve (conn_mem hconn') req ?_
        rintro rfl
        exact hcare fd' hfd'

theorem sound_of_reaches (hreach : Reaches CarefulStep st h) : Sound st h := by
  induction hreach with
  | init => exact sound_init
  | step _ hP hstep ih => exact ih.step hP.1 hP.2 hstep

/-- An RPC runs under a session that was registered on its connection
before, and is rejected where none was. -/
theorem requests_run_under_own_session {st : Server} {h : List Event}
    (hreach : Reaches CarefulStep st h) :
    (∀ h₁ c a d h₂, h = h₁ ++ Event.executed c a d :: h₂ → Event.registered c a ∈ h₁) ∧
    (∀ slot fd c msg, st.slots.getD slot none = some fd → st.conn fd = some c →
      (∀ a, Event.registered c a ∉ h) →
      ∃ m, step st (.request slot (.genericop msg)) = some (st, [.rejected c m])) := by
  have hs := sound_of_reaches hreach
  refine ⟨hs.served, ?_⟩
  intro slot fd c msg hslot hconn hnone
  have hstep : step st (.request slot (.genericop msg)) =
      some (serve slot fd c (.genericop msg) st) := by
    simp only [step, hslot, Option.bind_some, hconn, Option.map_some]
  rw [hstep, Socket.serve]
  cases hop : processOperation fd msg st.agents with
  | rejected m => exact ⟨m, rfl⟩
  | executed a d => exact absurd (hs.executed (conn_mem hconn) hop) (hnone a)

/-- The record a client makes in these examples. -/
def clientRecord (ncsid : String) (conn : Nat) : AgentInfo Nat :=
  ⟨"4", 100, ⟨ncsid, "root", []⟩, conn⟩

/-- A client hands over its session. -/
def handOver (ncsid : String) : Input :=
  .request 0 (.setSession (some (⟨ncsid, "root", []⟩, 100)))

/-- A client asks for its configuration. -/
def getRpc : Input := .request 0 (.genericop (some "<get/>"))

/-- A client that registers a session has its RPC executed under it. -/
theorem requests_run_under_own_session_one_client :
    ∃ st, Reaches CarefulStep st
        [.registered 0 (clientRecord "1" 0), .executed 0 (clientRecord "1" 0) "<get/>"] ∧
      ∀ h₁ c a d h₂,
        [Event.registered 0 (clientRecord "1" 0), .executed 0 (clientRecord "1" 0) "<get/>"] =
          h₁ ++ Event.executed c a d :: h₂ → Event.registered c a ∈ h₁ := by
  have hevs : (runSteps [.accept 4, handOver "1", getRpc, .request 0 .closeSession] commInit).map
      Prod.snd = some [.registered 0 (clientRecord "1" 0),
        .executed 0 (clientRecord "1" 0) "<get/>"] := by decide
  obtain ⟨⟨st, evs⟩, hrun, rfl⟩ := Option.map_eq_some_iff.mp hevs
  have hreach := reaches_run (P := CarefulStep) .init (by decide) hrun
  exact ⟨st, hreach, (requests_run_under_own_session hreach).1⟩

/-- A client hands over two sessions and closes. The next one gets the
same descriptor, hands over none, and has its RPC executed. -/
theorem stale_session_used :
    ∃ st, Reaches (fun st i => i.Possible st) st
      [.registered 0 (clientRecord "1" 0), .registered 0 (clientRecord "2" 0),
        .executed 1 (clientRecord "2" 0) "<get/>"] := by
  have hevs : (runSteps [.accept 4, handOver "1", handOver "2", .request 0 .closeSession,
      .accept 4, getRpc] commInit).map Prod.snd =
      some [.registered 0 (clientRecord "1" 0), .registered 0 (clientRecord "2" 0),
        .executed 1 (clientRecord "2" 0) "<get/>"] := by decide
  obtain ⟨⟨st, evs⟩, hrun, rfl⟩ := Option.map_eq_some_iff.mp hevs
  exact ⟨st, reaches_run (P := fun st i => i.Possible st) .init (by decide) hrun⟩

end OfConfig.Proofs
