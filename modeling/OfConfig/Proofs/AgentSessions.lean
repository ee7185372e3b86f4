import OfConfig.Proofs.AgentRuns
import OfConfig.Proofs.Exchanges
import OfConfig.Proofs.SocketSessions

/-!
# `OfConfig.Proofs.AgentSessions`: the sessions of agents at the server

The records of the server when its clients are agents, that is processes that
run `main` of `agent.c`. A history has the calls of all of them in the order in
which the server has taken them; descriptors come back after a close (`Reuse`).

What an agent may do is known from `main_spoken`: it hands over one session
(`AgentCalls.session`), before the first RPC (`AgentCalls.operation`), and makes
no call after the close (`AgentCalls.close`). `OwnRecords` is the invariant that
follows from it, `OwnRecords.step` its step.

* `agent_sessions`: every agent has at most one record, with the session it has
  handed over, and none after its close. An RPC is executed under the session of
  its own agent, unless that session was to be killed before.
-/

set_option autoImplicit false

namespace OfConfig.Proofs

open OfConfig.Lib OfConfig.Xml OfConfig.Comm OfConfig.Comm.Socket OfConfig.Comm.Wire
  OfConfig.Comm.Agent

variable {call : Wire.AgentCall} {calls : List Wire.AgentCall} {reply : Option Socket.Reply}

/-! ### The calls of agents -/

/-- An agent that runs `main` has made these calls. -/
def AgentCalls (calls : List Wire.AgentCall) : Prop :=
  ∃ env inputs results, CallResult.crash ∉ results ∧
    calls <+: (main env inputs (.start results)).2.calls

theorem AgentCalls.take {calls' : List Wire.AgentCall} (h : AgentCalls calls)
    (hle : calls' <+: calls) : AgentCalls calls' := by
  obtain ⟨env, inputs, results, hok, hcalls⟩ := h
  exact ⟨env, inputs, results, hok, hle.trans hcalls⟩

/-- Does the call hand over a session? -/
def handsOver : Wire.AgentCall → Bool
  | .sessionInfoSend _ _ _ _ => true
  | _ => false

theorem callOf_handsOver {rpc : Rpc} (h : callOf rpc = some call) : handsOver call = false := by
  obtain ⟨op, dump⟩ := rpc
  cases op with
  | closeSession =>
    obtain rfl : .close = call := by simpa [callOf] using h
    rfl
  | createSubscription s => simp [callOf] at h
  | other =>
    obtain rfl : .operation dump = call := by simpa [callOf] using h
    rfl
  | killSession opnode =>
    obtain ⟨sid, -, rfl⟩ := Option.map_eq_some_iff.mp h
    rfl

/-- The RPCs hand over no session. -/
theorem countP_forwarded (rpcs : List Rpc) :
    (rpcs.filterMap callOf).countP handsOver = 0 := by
  rw [List.countP_eq_zero]
  intro call hcall
  obtain ⟨rpc, -, hrpc⟩ := List.mem_filterMap.mp hcall
  simp [callOf_handsOver hrpc]

/-- The calls of an agent: a hand-over, then the RPCs, then the close. -/
theorem AgentCalls.shape (h : AgentCalls calls) :
    ∃ env results hello used all, Hello env results hello used ∧ calls <+: all ∧
      .close ∉ all.dropLast ∧
      (all = hello ++ (rpcsOf used).filterMap callOf ∨
        all = hello ++ (rpcsOf used).filterMap callOf ++ [.close]) := by
  obtain ⟨env, inputs, results, hok, hcalls⟩ := h
  obtain ⟨hello, used, hspoken⟩ := main_spoken env inputs hok
  exact ⟨env, _, hello, used, _, hspoken.opening, hcalls, hspoken.once, hspoken.calls⟩

/-- An agent hands over one session at most. -/
theorem AgentCalls.session (h : AgentCalls calls) : calls.countP handsOver ≤ 1 := by
  obtain ⟨env, results, hello, used, all, hhello, hle, -, hall⟩ := h.shape
  have hforwarded := countP_forwarded (rpcsOf used)
  have hcount : hello.countP handsOver ≤ 1 := by
    cases hhello <;> simp [handsOver]
  have hcalls := hle.sublist.countP_le (p := handsOver)
  rcases hall with rfl | rfl
  · rw [List.countP_append] at hcalls
    omega
  · rw [List.countP_append, List.countP_append, List.countP_singleton] at hcalls
    simp only [handsOver, Bool.false_eq_true, if_false] at hcalls
    omega

/-- It makes no call after the close. -/
theorem AgentCalls.close (h : AgentCalls (calls ++ [call])) : .close ∉ calls := by
  obtain ⟨-, -, -, -, all, -, ⟨rest, rfl⟩, hclose, -⟩ := h.shape
  intro hmem
  apply hclose
  rw [List.append_assoc, List.dropLast_append_of_ne_nil (by simp)]
  exact List.mem_append_left _ hmem

/-- It forwards RPCs only after it has handed over a session. -/
theorem AgentCalls.operation {rpc : String} (h : AgentCalls (calls ++ [.operation rpc])) :
    ∃ username sid cpblts pid, .sessionInfoSend username sid cpblts pid ∈ calls := by
  obtain ⟨env, results, hello, used, all, hhello, hle, -, hall⟩ := h.shape
  cases hhello with
  | none =>
    have hmem : .operation rpc ∈ all := hle.subset (by simp)
    rcases hall with rfl | rfl <;> simp [rpcsOf] at hmem
  | cpblts =>
    have hmem : .operation rpc ∈ all := hle.subset (by simp)
    rcases hall with rfl | rfl <;> simp [rpcsOf] at hmem
  | @session username sid cpblts _ haccepted hgranted =>
    refine ⟨username, sid, cpblts, env.pid, ?_⟩
    -- the operation comes after the first two calls
    rcases calls with - | ⟨first, - | ⟨second, calls⟩⟩
    · rcases hall with rfl | rfl <;> simp [List.cons_prefix_cons] at hle
    · rcases hall with rfl | rfl <;> simp [List.cons_prefix_cons] at hle
    · rcases hall with rfl | rfl <;>
      · simp only [List.cons_append, List.nil_append, List.cons_prefix_cons] at hle
        simp [hle.2.1]

/-! ### Histories -/

/-- What the server has done, in order. -/
abbrev History := List (Nat × Wire.AgentCall × Option Socket.Reply)

/-- The calls of one agent. -/
def madeBy (hist : History) (c : Nat) : List Wire.AgentCall :=
  (hist.filter (·.1 = c)).map (·.2.1)

theorem madeBy_append (hist : History) (c c' : Nat) (call : Wire.AgentCall)
    (reply : Option Socket.Reply) :
    madeBy (hist ++ [(c, call, reply)]) c' = madeBy hist c' ++ if c = c' then [call] else [] :=
  Rpc.append_filter_map (fun e : Nat × Wire.AgentCall × Option Socket.Reply => e.2.1) hist c c'
    (call, reply)

theorem madeBy_self (hist : History) (c : Nat) (call : Wire.AgentCall)
    (reply : Option Socket.Reply) :
    madeBy (hist ++ [(c, call, reply)]) c = madeBy hist c ++ [call] := by
  rw [madeBy_append, if_pos rfl]

theorem madeBy_of_ne (hist : History) {c c' : Nat} (h : c ≠ c') (call : Wire.AgentCall)
    (reply : Option Socket.Reply) : madeBy (hist ++ [(c, call, reply)]) c' = madeBy hist c' := by
  rw [madeBy_append, if_neg h, List.append_nil]

theorem madeBy_le (hist hist' : History) (c : Nat) :
    madeBy hist c <+: madeBy (hist ++ hist') c := by
  rw [madeBy, madeBy, List.filter_append, List.map_append]
  exact List.prefix_append _ _

/-- A descriptor comes back only after a close: when agent `c` makes a call, the
others that have used its descriptor are closed. -/
def Reuse (fd : Nat → Nat) (hist : History) : Prop :=
  ∀ h₁ c call reply h₂, hist = h₁ ++ (c, call, reply) :: h₂ →
    ∀ c', c' ≠ c → fd c' = fd c → madeBy h₁ c' ≠ [] → .close ∈ madeBy h₁ c'

theorem Reuse.of_append {fd : Nat → Nat} {hist hist' : History} (h : Reuse fd (hist ++ hist')) :
    Reuse fd hist := by
  intro h₁ c call reply h₂ heq
  exact h h₁ c call reply (h₂ ++ hist') (by rw [heq]; simp)

/-- The records of the server are those of agents that are there: each has one at
most, with its own session. -/
structure OwnRecords (fd : Nat → Nat) (hist : History) (agents : Agents) : Prop where
  nodup : (agents.map AgentInfo.origin).Nodup
  id : ∀ a ∈ agents, a.id = agentId (fd a.origin)
  session : ∀ a ∈ agents, ∃ username sid cpblts pid,
    .sessionInfoSend username sid cpblts pid ∈ madeBy hist a.origin ∧
      a.session = ⟨sid, username, cpblts.items⟩
  /-- An agent that has closed has none. -/
  closed : ∀ a ∈ agents, .close ∉ madeBy hist a.origin
  /-- An agent that nobody has asked to kill has one. -/
  present : ∀ c username sid cpblts pid,
    .sessionInfoSend username sid cpblts pid ∈ madeBy hist c → .close ∉ madeBy hist c →
      (∀ c' reply, (c', .killSession sid, reply) ∉ hist) →
      ∃ a ∈ agents, a.origin = c ∧ a.session = ⟨sid, username, cpblts.items⟩

variable {fd : Nat → Nat} {hist : History} {agents : Agents} {c : Nat}

/-- The record with the id of an agent's descriptor is the agent's. -/
theorem OwnRecords.origin (h : OwnRecords fd hist agents) (hsmall : ∀ c, fd c < 100000)
    (hreuse : ∀ c', c' ≠ c → fd c' = fd c → madeBy hist c' ≠ [] → .close ∈ madeBy hist c')
    {a : AgentInfo Nat} (ha : a ∈ agents) (hid : a.id = agentId (fd c)) : a.origin = c := by
  by_contra hne
  have hfd : fd a.origin = fd c := agentId_inj (hsmall _) (hsmall _) ((h.id a ha).symm.trans hid)
  obtain ⟨username, sid, cpblts, pid, hmem, -⟩ := h.session a ha
  exact h.closed a ha (hreuse _ hne hfd (List.ne_nil_of_mem hmem))

/-- Removing a record, when every agent has one at most. -/
theorem mem_srvAgentStop {i : Nat} {r : AgentInfo Nat}
    (hnodup : (agents.map AgentInfo.origin).Nodup) (hr : agents[i]? = some r)
    (a : AgentInfo Nat) : a ∈ srvAgentStop i agents ↔ a ∈ agents ∧ a.origin ≠ r.origin := by
  obtain ⟨hi, rfl⟩ := List.getElem?_eq_some_iff.mp hr
  have hinj : ∀ j (hj : j < agents.length), agents[j].origin = agents[i].origin → j = i := by
    intro j hj heq
    have hsame : agents[j] = agents[i] :=
      List.inj_on_of_nodup_map hnodup (List.getElem_mem hj) (List.getElem_mem hi) heq
    exact (hnodup.of_map _).getElem_inj_iff.mp hsame
  rw [srvAgentStop, List.mem_eraseIdx_iff_getElem]
  constructor
  · rintro ⟨j, hj, hne, rfl⟩
    exact ⟨List.getElem_mem hj, fun heq => hne (hinj j hj heq)⟩
  · rintro ⟨hmem, hne⟩
    obtain ⟨j, hj, rfl⟩ := List.getElem_of_mem hmem
    exact ⟨j, hj, fun heq => hne (by subst heq; rfl), rfl⟩

/-- A call that hands over no session and leaves only records of before. What has
to be shown is that those that should stay are there. -/
theorem OwnRecords.fewer (h : OwnRecords fd hist agents) {agents' : Agents}
    (hcall : handsOver call = false) (hsub : agents'.Sublist agents)
    (hclosed : call = .close → ∀ a ∈ agents', a.origin ≠ c)
    (hstays : ∀ a ∈ agents, (call = .close → a.origin ≠ c) → call ≠ .killSession a.session.ncsid →
      a ∈ agents') :
    OwnRecords fd (hist ++ [(c, call, reply)]) agents' where
  nodup := (hsub.map _).nodup h.nodup
  id a ha := h.id a (hsub.subset ha)
  session a ha := by
    obtain ⟨username, sid, cpblts, pid, hmem, hsession⟩ := h.session a (hsub.subset ha)
    exact ⟨username, sid, cpblts, pid, (madeBy_le hist _ _).subset hmem, hsession⟩
  closed a ha := by
    rw [madeBy_append, List.mem_append]
    rintro (hmem | hmem)
    · exact h.closed a (hsub.subset ha) hmem
    · split at hmem
      · next heq =>
          rw [List.mem_singleton] at hmem
          exact hclosed hmem.symm a ha heq.symm
      · simp at hmem
  present := by
    intro c' username sid cpblts pid hmem hopen hkill
    rw [madeBy_append, List.mem_append] at hmem hopen
    have hold : .sessionInfoSend username sid cpblts pid ∈ madeBy hist c' := by
      refine hmem.resolve_right (fun hnew => ?_)
      split at hnew
      · rw [List.mem_singleton] at hnew
        simp [← hnew, handsOver] at hcall
      · simp at hnew
    obtain ⟨a, ha, horigin, hsession⟩ := h.present c' username sid cpblts pid hold
      (fun hmem => hopen (.inl hmem)) (fun c'' r hmem => hkill c'' r (List.mem_append_left _ hmem))
    refine ⟨a, hstays a ha ?_ ?_, horigin, hsession⟩
    · rintro rfl heq
      exact hopen (.inr (by simp [← horigin, heq]))
    · rintro rfl
      exact hkill c reply (by simp [hsession])

/-- A session is handed over. -/
theorem OwnRecords.handOver (h : OwnRecords fd hist agents) {username sid : String}
    {cpblts : Cpblts} {pid : Nat} (info : UInt16)
    (hcalls : AgentCalls (madeBy hist c ++ [.sessionInfoSend username sid cpblts pid])) :
    OwnRecords fd (hist ++ [(c, .sessionInfoSend username sid cpblts pid, reply)])
      (srvAgentNew ⟨sid, username, cpblts.items⟩ (agentId (fd c)) info c agents) := by
  -- this is the first session of the agent, so there is no record of it
  have hfirst : ∀ call ∈ madeBy hist c, handsOver call = false := by
    have hcount := hcalls.session
    rw [List.countP_append, List.countP_singleton] at hcount
    simp only [handsOver, if_true] at hcount
    have hzero : (madeBy hist c).countP handsOver = 0 := by omega
    simpa using List.countP_eq_zero.mp hzero
  have hnew : ∀ a ∈ agents, a.origin ≠ c := by
    rintro a ha rfl
    obtain ⟨username', sid', cpblts', pid', hmem, -⟩ := h.session a ha
    simpa [handsOver] using hfirst _ hmem
  have hclose : .close ∉ madeBy hist c := hcalls.close
  refine ⟨?_, ?_, ?_, ?_, ?_⟩
  · rw [srvAgentNew, List.map_append, List.map_singleton]
    exact List.nodup_append.mpr ⟨h.nodup, by simp, by simpa using hnew⟩
  · intro a ha
    rcases List.mem_append.mp ha with hold | hadded
    · exact h.id a hold
    · rw [List.mem_singleton.mp hadded]
  · intro a ha
    rcases List.mem_append.mp ha with hold | hadded
    · obtain ⟨username', sid', cpblts', pid', hmem, hsession⟩ := h.session a hold
      exact ⟨username', sid', cpblts', pid', (madeBy_le hist _ _).subset hmem, hsession⟩
    · rw [List.mem_singleton.mp hadded]
      exact ⟨username, sid, cpblts, pid, by rw [madeBy_self]; simp, rfl⟩
  · intro a ha
    rcases List.mem_append.mp ha with hold | hadded
    · rw [madeBy_of_ne hist (hnew a hold).symm]
      exact h.closed a hold
    · rw [List.mem_singleton.mp hadded, madeBy_self]
      simpa using hclose
  · intro c' username' sid' cpblts' pid' hmem hopen hkill
    by_cases heq : c = c'
    · subst heq
      rw [madeBy_self, List.mem_append, List.mem_singleton] at hmem
      rcases hmem with hmem | hmem
      · simpa [handsOver] using hfirst _ hmem
      · cases hmem
        exact ⟨_, List.mem_append_right _ List.mem_cons_self, rfl, rfl⟩
    · rw [madeBy_of_ne hist heq] at hmem hopen
      obtain ⟨a, ha, hfound⟩ := h.present c' username' sid' cpblts' pid' hmem hopen
        (fun c'' r hmem => hkill c'' r (List.mem_append_left _ hmem))
      exact ⟨a, List.mem_append_left _ ha, hfound⟩

/-- A kill-session removes a record with the id that it names, or nothing. -/
theorem killSession_agents (socket : Nat) (sid : String) (agents : Agents) :
    (killSession socket (some sid) agents).agents = agents ∨
      ∃ i r, agents[i]? = some r ∧ r.session.ncsid = sid ∧
        (killSession socket (some sid) agents).agents = srvAgentStop i agents := by
  simp only [killSession, killSessionBy]
  cases hfind : srvGetAgentByNcsid sid agents with
  | none => exact .inl rfl
  | some i =>
    obtain ⟨r, hr, hsid⟩ := srvGetAgentByNcsid_eq_some hfind
    simp only
    split
    · exact .inl rfl
    · split
      · exact .inl rfl
      · exact .inr ⟨i, r, hr, hsid, rfl⟩

/-- One call. -/
theorem OwnRecords.step {ω : Type} {L : Netconf ω} {st : Records ω}
    (h : OwnRecords fd hist st.agents) (hsmall : ∀ c, fd c < 100000)
    (hreuse : ∀ c', c' ≠ c → fd c' = fd c → madeBy hist c' ≠ [] → .close ∈ madeBy hist c')
    (hcalls : AgentCalls (madeBy hist c ++ [call])) (reply : Option Socket.Reply) :
    OwnRecords fd (hist ++ [(c, call, reply)])
      (handleRequest L (fd c) c (requestOf call) st).2.agents := by
  cases call with
  | getSrvCpblts =>
    exact h.fewer rfl (List.Sublist.refl _) (by simp) (fun a ha _ _ => ha)
  | operation rpc =>
    exact h.fewer rfl (List.Sublist.refl _) (by simp) (fun a ha _ _ => ha)
  | sessionInfoSend username sid cpblts pid => exact h.handOver (UInt16.ofNat pid) hcalls
  | close =>
    simp only [requestOf, handleRequest, closeSession]
    cases hfind : srvGetAgentByAgentid (agentId (fd c)) st.agents with
    | none =>
      have hnone : ∀ a ∈ st.agents, a.origin ≠ c := by
        rintro a ha rfl
        exact srvGetAgentByAgentid_eq_none.mp hfind a ha (h.id a ha)
      exact h.fewer rfl (List.Sublist.refl _) (fun _ => hnone) (fun a ha _ _ => ha)
    | some i =>
      obtain ⟨r, hr, hid⟩ := srvGetAgentByAgentid_eq_some hfind
      obtain rfl := h.origin hsmall hreuse (List.mem_of_getElem? hr) hid
      refine h.fewer rfl (srvAgentStop_sublist _ _) (fun _ a ha => ?_) (fun a ha hne _ => ?_)
      · exact ((mem_srvAgentStop h.nodup hr a).mp ha).2
      · exact (mem_srvAgentStop h.nodup hr a).mpr ⟨ha, hne rfl⟩
  | killSession sid =>
    simp only [requestOf, handleRequest]
    rcases killSession_agents (fd c) sid st.agents with hsame | ⟨i, r, hr, hsid, hstop⟩
    · rw [hsame]
      exact h.fewer rfl (List.Sublist.refl _) (by simp) (fun a ha _ _ => ha)
    · rw [hstop]
      refine h.fewer rfl (srvAgentStop_sublist _ _) (by simp) (fun a ha _ hne => ?_)
      refine (mem_srvAgentStop h.nodup hr a).mpr ⟨ha, fun heq => hne ?_⟩
      obtain rfl := List.inj_on_of_nodup_map h.nodup ha (List.mem_of_getElem? hr) heq
      rw [hsid]

/-! ### Runs -/

section
variable {ω : Type} {L : Netconf ω} {w : ω} {st : Records ω}

/-- The descriptor of the agent that calls next is its own. -/
theorem Reuse.current (h : Reuse fd (hist ++ [(c, call, reply)])) (c' : Nat) (hne : c' ≠ c)
    (hfd : fd c' = fd c) (hmade : madeBy hist c' ≠ []) : .close ∈ madeBy hist c' :=
  h hist c call reply [] rfl c' hne hfd hmade

/-- The records after any number of calls. -/
theorem ownRecords_of_executes (hsmall : ∀ c, fd c < 100000)
    (hex : Rpc.Executes (socketHandler L fd) ⟨[], [], w⟩ hist st)
    (hagents : ∀ c, AgentCalls (madeBy hist c)) (hreuse : Reuse fd hist) :
    OwnRecords fd hist st.agents := by
  induction hex with
  | nil => exact ⟨by simp, by simp, by simp, by simp, by simp [madeBy]⟩
  | @snoc hist st _ c call ih =>
    have hcalls := hagents c
    rw [madeBy_self] at hcalls
    refine (ih (fun c' => (hagents c').take (madeBy_le hist _ c')) hreuse.of_append).step
      hsmall hreuse.current hcalls _

/-- Whose session an RPC runs under: the one its own agent has handed over. It is
rejected only if that session was to be killed before. -/
def OwnOperation (hist : History) (c : Nat) (rpc : String) : Operation → Prop
  | .executed a dump => a.origin = c ∧ dump = rpc ∧ ∃ username sid cpblts pid,
      .sessionInfoSend username sid cpblts pid ∈ madeBy hist c ∧
        a.session = ⟨sid, username, cpblts.items⟩
  | .rejected msg => msg = "request from unknown agent" ∧ ∃ username sid cpblts pid c' reply,
      .sessionInfoSend username sid cpblts pid ∈ madeBy hist c ∧
        (c', .killSession sid, reply) ∈ hist

/-- An RPC that an agent forwards. -/
theorem OwnRecords.operation (h : OwnRecords fd hist agents) (hsmall : ∀ c, fd c < 100000)
    (hreuse : ∀ c', c' ≠ c → fd c' = fd c → madeBy hist c' ≠ [] → .close ∈ madeBy hist c')
    {rpc : String} (hcalls : AgentCalls (madeBy hist c ++ [.operation rpc])) :
    OwnOperation hist c rpc (processOperation (fd c) (some rpc) agents) := by
  unfold processOperation
  cases hfind : srvGetAgentByAgentid (agentId (fd c)) agents with
  | some i =>
    obtain ⟨a, ha, hid⟩ := srvGetAgentByAgentid_eq_some hfind
    simp only [Option.bind_some, ha]
    have hmem := List.mem_of_getElem? ha
    obtain rfl := h.origin hsmall hreuse hmem hid
    exact ⟨rfl, rfl, h.session a hmem⟩
  | none =>
    -- the agent has handed over a session and is not closed, so somebody has killed it
    obtain ⟨username, sid, cpblts, pid, hsession⟩ := hcalls.operation
    refine ⟨rfl, username, sid, cpblts, pid, ?_⟩
    by_contra hkill
    push Not at hkill
    obtain ⟨a, ha, rfl, -⟩ := h.present c username sid cpblts pid hsession hcalls.close
      (fun c' reply hmem => hkill c' reply hsession hmem)
    exact srvGetAgentByAgentid_eq_none.mp hfind a ha (h.id a ha)

/-- The part of a run before one of its calls. -/
theorem executes_before {h₁ h₂ : History} {c : Nat}
    (hex : Rpc.Executes (socketHandler L fd) ⟨[], [], w⟩ (h₁ ++ (c, call, reply) :: h₂) st) :
    ∃ st₁, Rpc.Executes (socketHandler L fd) ⟨[], [], w⟩ h₁ st₁ := by
  generalize heq : h₁ ++ (c, call, reply) :: h₂ = hist at hex
  induction hex generalizing h₂ with
  | nil => simp at heq
  | @snoc hist st hex c' call' ih =>
    rcases List.eq_nil_or_concat h₂ with rfl | ⟨h₃, last, rfl⟩
    · obtain ⟨rfl, -⟩ := List.append_inj' heq rfl
      exact ⟨st, hex⟩
    · rw [List.concat_eq_append, ← List.cons_append, ← List.append_assoc] at heq
      obtain ⟨rfl, -⟩ := List.append_inj' heq rfl
      exact ih rfl

/-- Agents and server together: over any interleaving of any number of agents,
with descriptors that come back after a close, every agent has at most one record,
with its own session, and none after its close; and every RPC is executed under
the session of its own agent, unless that was to be killed before. -/
theorem agent_sessions (hsmall : ∀ c, fd c < 100000)
    (hex : Rpc.Executes (socketHandler L fd) ⟨[], [], w⟩ hist st)
    (hagents : ∀ c, AgentCalls (madeBy hist c)) (hreuse : Reuse fd hist) :
    OwnRecords fd hist st.agents ∧
      ∀ h₁ c rpc reply h₂, hist = h₁ ++ (c, .operation rpc, reply) :: h₂ →
        ∃ st₁, Rpc.Executes (socketHandler L fd) ⟨[], [], w⟩ h₁ st₁ ∧
          OwnOperation h₁ c rpc (processOperation (fd c) (some rpc) st₁.agents) := by
  refine ⟨ownRecords_of_executes hsmall hex hagents hreuse, ?_⟩
  rintro h₁ c rpc reply h₂ rfl
  obtain ⟨st₁, hex₁⟩ := executes_before hex
  have hown := ownRecords_of_executes hsmall hex₁ (fun c' => (hagents c').take (madeBy_le h₁ _ c'))
    hreuse.of_append
  refine ⟨st₁, hex₁, hown.operation hsmall ?_ ((hagents c).take ?_)⟩
  · exact fun c' => hreuse h₁ c _ _ h₂ rfl c'
  · have hmade := madeBy_le (h₁ ++ [(c, .operation rpc, reply)]) h₂ c
    rwa [madeBy_self, ← List.append_cons] at hmade

/-- The history of calls that the server takes one after the other. -/
def served (L : Netconf ω) (fd : Nat → Nat) :
    List (Nat × Wire.AgentCall) → History × Records ω → History × Records ω
  | [], r => r
  | (c, call) :: calls, (hist, st) =>
    let r := (socketHandler L fd).handle c call st
    served L fd calls (hist ++ [(c, call, r.1)], r.2)

theorem executes_served (calls : List (Nat × Wire.AgentCall))
    (h : Rpc.Executes (socketHandler L fd) ⟨[], [], w⟩ hist st) :
    Rpc.Executes (socketHandler L fd) ⟨[], [], w⟩ (served L fd calls (hist, st)).1
      (served L fd calls (hist, st)).2 := by
  induction calls generalizing hist st with
  | nil => exact h
  | cons call calls ih => exact ih (.snoc h call.1 call.2)

end

/-- A finite check for `Reuse`: at every call, the agents before it that have used
its descriptor are closed. -/
theorem reuse_of_take (h : ∀ i < hist.length, ∀ e ∈ hist[i]?, ∀ e' ∈ hist.take i,
    e'.1 ≠ e.1 → fd e'.1 = fd e.1 → .close ∈ madeBy (hist.take i) e'.1) : Reuse fd hist := by
  rintro h₁ c call reply h₂ rfl c' hne hfd hmade
  obtain ⟨call', hcall'⟩ := List.exists_mem_of_ne_nil _ hmade
  obtain ⟨e', he', -⟩ := List.mem_map.mp hcall'
  obtain ⟨hmem, hc'⟩ := List.mem_filter.mp he'
  obtain rfl : e'.1 = c' := by simpa using hc'
  have hclose := h h₁.length (by simp) (c, call, reply) (by simp) e'
  rw [List.take_left] at hclose
  exact hclose hmem hne hfd

/-- Agent 0 gets data for its client, has the session of agent 1 killed, whose
next RPC is rejected, and closes. Agent 2 comes with the descriptor of agent 0. -/
def crossedCalls : List (Nat × Wire.AgentCall) :=
  [(0, .getSrvCpblts), (1, .getSrvCpblts),
   (0, .sessionInfoSend "alice" "1" ⟨["urn:base"], 0⟩ 7),
   (1, .sessionInfoSend "bob" "2" ⟨["urn:base"], 0⟩ 8),
   (0, .operation "<get/>"), (0, .killSession "2"), (1, .operation "<get/>"), (0, .close),
   (2, .getSrvCpblts), (2, .sessionInfoSend "carol" "3" ⟨["urn:base"], 0⟩ 9),
   (2, .operation "<get/>")]

/-- What the server makes of them. -/
def crossedHistory : History × Records Unit :=
  served oneReply (fun c => c % 2 + 4) crossedCalls ([], ⟨[], [], ()⟩)

/-- The element of a request to kill a session. -/
def killElement (sid : String) : Node := elem "kill-session" none [elem "session-id" none [txt sid]]

theorem agentCalls_crossed (c : Nat) : AgentCalls (madeBy crossedHistory.1 c) := by
  have hget : ∀ user sid pid, AgentCalls [.getSrvCpblts,
      .sessionInfoSend user sid ⟨["urn:base"], 0⟩ pid, .operation "<get/>"] := fun user sid pid =>
    ⟨grantingOutside user sid pid, [.rpc (some ⟨.other, "<get/>"⟩)],
      [.cpblts (some ["urn:base"]), .status true], by decide, [], rfl⟩
  by_cases h0 : c = 0
  · subst h0
    exact ⟨grantingOutside "alice" "1" 7, [.rpc (some ⟨.other, "<get/>"⟩),
      .rpc (some ⟨.killSession (some (killElement "2")), "<kill-session/>"⟩),
      .rpc (some ⟨.closeSession, "<close-session/>"⟩)],
      [.cpblts (some ["urn:base"]), .status true, .reply (.built "<ok/>"), .reply .ok],
      by decide, [], rfl⟩
  by_cases h1 : c = 1
  · subst h1
    exact hget "bob" "2" 8
  by_cases h2 : c = 2
  · subst h2
    exact hget "carol" "3" 9
  · have hnone : crossedHistory.1.filter (·.1 = c) = [] := by
      rw [List.filter_eq_nil_iff]
      intro e he
      have hmem : e.1 ∈ [0, 1, 0, 1, 0, 0, 1, 0, 2, 2, 2] :=
        (List.mem_map_of_mem he : e.1 ∈ crossedHistory.1.map Prod.fst)
      simp only [decide_eq_true_eq]
      rintro rfl
      simp [h0, h1, h2] at hmem
    rw [madeBy, hnone, List.map_nil]
    exact (hget "" "" 0).take List.nil_prefix

/-- The process of the session that was killed got the signal, and its RPC was
rejected. -/
theorem agent_sessions_crossed :
    crossedHistory.2.signalled = [8] ∧
      (1, .operation "<get/>", some (.genericop "<rpc-error/>")) ∈ crossedHistory.1 ∧
      OwnRecords (fun c => c % 2 + 4) crossedHistory.1 crossedHistory.2.agents ∧
      ∀ h₁ c rpc reply h₂, crossedHistory.1 = h₁ ++ (c, .operation rpc, reply) :: h₂ →
        ∃ st₁, Rpc.Executes (socketHandler oneReply (fun c => c % 2 + 4)) ⟨[], [], ()⟩ h₁ st₁ ∧
          OwnOperation h₁ c rpc (processOperation (c % 2 + 4) (some rpc) st₁.agents) :=
  ⟨by decide, by decide,
    agent_sessions (fun c => by omega) (executes_served crossedCalls .nil) agentCalls_crossed
      (reuse_of_take (by decide))⟩

end OfConfig.Proofs
