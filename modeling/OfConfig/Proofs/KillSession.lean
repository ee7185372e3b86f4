import OfConfig.Comm.Dbus
import OfConfig.Comm.Socket

/-!
# `OfConfig.Proofs.KillSession`: kill-session on both transports

`KillAllowed` says when a session may be killed, and `Decides` what a
handler has to do about it, which includes whose process gets the signal. The
handler of the socket decides so
(`killSessionBy_decides`). The one of D-Bus tests for the own session by
comparing the NETCONF session id of the sender with the sender's name on
the bus, so that the request to kill the own session is carried out, and a
sender whose two ids coincide can kill no one. `kill_session_agree_iff`
says exactly when this makes no difference.
-/

set_option autoImplicit false

namespace OfConfig.Proofs

open OfConfig.Comm

variable {γ : Type} {agents : List (AgentInfo γ)}
variable {i : Nat} {requester target : String}

/-! ### The decision -/

/-- The session exists, the requester is registered, and it is not the
requester's own session. -/
structure KillAllowed (agents : List (AgentInfo γ)) (requester target : String) : Prop where
  exists_target : ∃ a ∈ agents, a.session.ncsid = target
  registered : ∃ s ∈ agents, s.id = requester
  other : ∀ s ∈ agents, s.id = requester → s.session.ncsid ≠ target

/-- If it is allowed the process of the session gets `SIGTERM` and the record is
removed, with the reply for that; otherwise an error is returned, nobody gets a
signal and the list stays. -/
def Decides {ρ : Type} (agents : List (AgentInfo γ)) (requester target : String)
    (positive negative : ρ → Prop) (r : KillOutcome ρ γ) : Prop :=
  (KillAllowed agents requester target → positive r.reply ∧
    (∃ a ∈ agents, a.session.ncsid = target ∧ r.signalled = some a.pid) ∧
    r.agents = agents.filter (·.session.ncsid ≠ target)) ∧
  (¬ KillAllowed agents requester target →
    negative r.reply ∧ r.signalled = none ∧ r.agents = agents)

/-- The result of the D-Bus handler, for a message with the session id as
its first argument. -/
def DbusDecides (agents : List (AgentInfo γ)) (requester target : String)
    (more : List Dbus.Arg) : Prop :=
  Decides agents requester target (· = .positive) (∃ msg, · = .error msg)
    (Dbus.killSession ⟨requester, .string target :: more⟩ agents)

/-- The result of the socket handler. -/
def SocketDecides (agents : List (AgentInfo γ)) (requester target : String) : Prop :=
  Decides agents requester target (· = .sessionKilled) (∃ msg, · = .resultError (some msg))
    (Socket.killSessionBy requester (some target) agents)

/-! ### Records -/

/-- Following the pointer of a search is searching the record. -/
theorem findIdx?_bind_getElem? {α : Type} (p : α → Bool) (l : List α) :
    (l.findIdx? p).bind (l[·]?) = l.find? p := by
  induction l with
  | nil => rfl
  | cons a l ih =>
    rw [List.findIdx?_cons, List.find?_cons]
    cases hp : p a with
    | true => simp
    | false =>
      rw [← ih]
      exact Option.bind_map

/-- Removing the first record with a value that no two records share. -/
theorem eraseP_eq_filter {α β : Type} [DecidableEq β] {f : α → β} {l : List α}
    (h : (l.map f).Nodup) (b : β) :
    l.eraseP (fun a => f a = b) = l.filter (fun a => f a ≠ b) := by
  induction l with
  | nil => rfl
  | cons a l ih =>
    obtain ⟨hnot, hl⟩ := List.nodup_cons.mp h
    by_cases ha : f a = b
    · have hall : ∀ x ∈ l, f x ≠ b := fun x hx hxb =>
        hnot (List.mem_map.mpr ⟨x, hx, hxb.trans ha.symm⟩)
      rw [List.eraseP_cons_of_pos (by simpa using ha),
        List.filter_cons_of_neg (by simpa using ha)]
      exact (List.filter_eq_self.mpr (fun x hx => by simpa using hall x hx)).symm
    · rw [List.eraseP_cons_of_neg (by simpa using ha),
        List.filter_cons_of_pos (by simpa using ha), ih hl]

theorem srvAgentStop_eq_filter (h : (agents.map (·.session.ncsid)).Nodup)
    (hi : srvGetAgentByNcsid target agents = some i) :
    srvAgentStop i agents = agents.filter (·.session.ncsid ≠ target) := by
  have herase := eraseP_eq_filter (f := fun a : AgentInfo γ => a.session.ncsid) h target
  rw [List.eraseP_eq_eraseIdx, show agents.findIdx? _ = some i from hi] at herase
  exact herase

/-- The record of a requester, when no two records have one agent id. -/
theorem find?_agentId (h : (agents.map AgentInfo.id).Nodup) {s : AgentInfo γ} (hs : s ∈ agents) :
    (srvGetAgentByAgentid s.id agents).bind (agents[·]?) = some s := by
  rw [srvGetAgentByAgentid, findIdx?_bind_getElem?]
  cases hf : agents.find? (fun a => a.id = s.id) with
  | none => exact absurd (by simp) (List.find?_eq_none.mp hf s hs)
  | some a =>
    have hid : a.id = s.id := by simpa using List.find?_some hf
    rw [List.inj_on_of_nodup_map h (List.mem_of_find?_eq_some hf) hs hid]

theorem find?_agentId_none (h : ∀ s ∈ agents, s.id ≠ requester) :
    (srvGetAgentByAgentid requester agents).bind (agents[·]?) = none := by
  rw [srvGetAgentByAgentid_eq_none.mpr h]
  rfl

/-- For a registered requester and a session that exists only the own
session matters. -/
theorem killAllowed_iff (hid : (agents.map AgentInfo.id).Nodup) {s : AgentInfo γ} (hs : s ∈ agents)
    (ht : ∃ a ∈ agents, a.session.ncsid = target) :
    KillAllowed agents s.id target ↔ s.session.ncsid ≠ target := by
  constructor
  · exact fun h => h.other s hs rfl
  · intro hne
    refine ⟨ht, ⟨s, hs, rfl⟩, ?_⟩
    intro s' hs' heq
    rwa [List.inj_on_of_nodup_map hid hs' hs heq]

theorem decides_of_refused {ρ : Type} {positive negative : ρ → Prop} {reply : ρ}
    (h : ¬ KillAllowed agents requester target) (hreply : negative reply) :
    Decides agents requester target positive negative (refuseKill reply agents) :=
  ⟨fun ha => absurd ha h, fun _ => ⟨hreply, rfl, rfl⟩⟩

/-- The record that is found has the session, so its process gets the signal. -/
theorem decides_of_carried {ρ : Type} {positive negative : ρ → Prop} {reply : ρ}
    (hnc : (agents.map (·.session.ncsid)).Nodup) (hi : srvGetAgentByNcsid target agents = some i)
    (h : KillAllowed agents requester target) (hreply : positive reply) :
    Decides agents requester target positive negative (carryOutKill reply i agents) := by
  obtain ⟨a, ha, hat⟩ := srvGetAgentByNcsid_eq_some hi
  refine ⟨fun _ => ⟨hreply, ⟨a, List.mem_of_getElem? ha, hat, ?_⟩, ?_⟩, fun hn => absurd h hn⟩
  · simp [carryOutKill, srvAgentKill, ha]
  · exact srvAgentStop_eq_filter hnc hi

/-! ### The handlers -/

theorem not_killAllowed_of_no_target (h : srvGetAgentByNcsid target agents = none) :
    ¬ KillAllowed agents requester target := by
  rintro ⟨⟨a, ha, hat⟩, -, -⟩
  exact srvGetAgentByNcsid_eq_none.mp h a ha hat

theorem exists_of_srvGetAgentByNcsid (h : srvGetAgentByNcsid target agents = some i) :
    ∃ a ∈ agents, a.session.ncsid = target := by
  obtain ⟨a, ha, hat⟩ := srvGetAgentByNcsid_eq_some h
  exact ⟨a, List.mem_of_getElem? ha, hat⟩

/-- The handler of the socket. -/
theorem killSessionBy_decides (hid : (agents.map AgentInfo.id).Nodup)
    (hnc : (agents.map (·.session.ncsid)).Nodup) (requester target : String) :
    SocketDecides agents requester target := by
  rw [SocketDecides]
  cases ht : srvGetAgentByNcsid target agents with
  | none =>
    simp only [Socket.killSessionBy, ht]
    exact decides_of_refused (not_killAllowed_of_no_target ht) ⟨_, rfl⟩
  | some i =>
    by_cases hreg : ∃ s ∈ agents, s.id = requester
    · obtain ⟨s, hs, rfl⟩ := hreg
      have hallow := killAllowed_iff hid hs (exists_of_srvGetAgentByNcsid ht)
      simp only [Socket.killSessionBy, ht, find?_agentId hid hs]
      split
      · next hown => exact decides_of_refused (fun ha => hallow.mp ha hown) ⟨_, rfl⟩
      · next hown => exact decides_of_carried hnc ht (hallow.mpr hown) rfl
    · have hno : ∀ s ∈ agents, s.id ≠ requester := fun s hs h => hreg ⟨s, hs, h⟩
      simp only [Socket.killSessionBy, ht, find?_agentId_none hno]
      exact decides_of_refused (fun ha => hreg ha.registered) ⟨_, rfl⟩

/-- The ids of a requester coincide exactly when it asks for its own
session to be killed. -/
def SelfTestRight (agents : List (AgentInfo γ)) (requester target : String) : Prop :=
  ∀ s ∈ agents, s.id = requester → (∃ a ∈ agents, a.session.ncsid = target) →
    (s.session.ncsid = s.id ↔ s.session.ncsid = target)

/-- The handler of D-Bus. -/
theorem killSession_decides_iff (hid : (agents.map AgentInfo.id).Nodup)
    (hnc : (agents.map (·.session.ncsid)).Nodup) (requester target : String)
    (more : List Dbus.Arg) :
    DbusDecides agents requester target more ↔ SelfTestRight agents requester target := by
  rw [DbusDecides]
  cases ht : srvGetAgentByNcsid target agents with
  | none =>
    simp only [Dbus.killSession, ht]
    constructor
    · rintro - s hs rfl ⟨a, ha, hat⟩
      exact absurd hat (srvGetAgentByNcsid_eq_none.mp ht a ha)
    · exact fun _ => decides_of_refused (not_killAllowed_of_no_target ht) ⟨_, rfl⟩
  | some i =>
    have hex := exists_of_srvGetAgentByNcsid ht
    by_cases hreg : ∃ s ∈ agents, s.id = requester
    · obtain ⟨s, hs, rfl⟩ := hreg
      have hallow := killAllowed_iff hid hs hex
      have hself : SelfTestRight agents s.id target ↔
          (s.session.ncsid = s.id ↔ s.session.ncsid = target) := by
        constructor
        · exact fun h => h s hs rfl hex
        · intro h s' hs' heq _
          rwa [List.inj_on_of_nodup_map hid hs' hs heq]
      rw [hself]
      simp only [Dbus.killSession, ht, find?_agentId hid hs]
      split
      · next hown =>
          -- refused: right only for the own session
          constructor
          · rintro ⟨hkill, -⟩
            refine ⟨fun _ => ?_, fun _ => hown⟩
            by_contra hne
            simpa [refuseKill] using (hkill (hallow.mpr hne)).1
          · intro h
            exact decides_of_refused (fun ha => hallow.mp ha (h.mp hown)) ⟨_, rfl⟩
      · next hown =>
          -- killed: right only for another session
          constructor
          · rintro ⟨-, hrefuse⟩
            refine ⟨fun h => absurd h hown, fun h => ?_⟩
            obtain ⟨msg, hmsg⟩ := (hrefuse (fun ha => hallow.mp ha h)).1
            simp [carryOutKill] at hmsg
          · intro h
            exact decides_of_carried hnc ht (hallow.mpr fun h' => hown (h.mpr h')) rfl
    · have hno : ∀ s ∈ agents, s.id ≠ requester := fun s hs h => hreg ⟨s, hs, h⟩
      simp only [Dbus.killSession, ht, find?_agentId_none hno]
      constructor
      · rintro - s hs heq -
        exact absurd heq (hno s hs)
      · exact fun _ => decides_of_refused (fun ha => hreg ha.registered) ⟨_, rfl⟩

/-- Both handlers decide as they should if and only if the requester's two
ids coincide exactly when it asks for its own session to be killed. -/
theorem kill_session_agree_iff (agents : List (AgentInfo γ))
    (hid : (agents.map AgentInfo.id).Nodup) (hnc : (agents.map (·.session.ncsid)).Nodup)
    (requester target : String) (more : List Dbus.Arg) :
    (DbusDecides agents requester target more ∧ SocketDecides agents requester target) ↔
      SelfTestRight agents requester target := by
  rw [killSession_decides_iff hid hnc requester target more]
  exact and_iff_left (killSessionBy_decides hid hnc requester target)

/-- Two agents. -/
def twoAgents : List (AgentInfo Unit) :=
  [⟨":1.1", 100, ⟨"1", "root", []⟩, ()⟩, ⟨":1.2", 101, ⟨"2", "root", []⟩, ()⟩]

/-- One agent kills the other one. -/
theorem kill_session_agree_other :
    DbusDecides twoAgents ":1.1" "2" [] ∧ SocketDecides twoAgents ":1.1" "2" := by
  refine (kill_session_agree_iff twoAgents (by decide) (by decide) ":1.1" "2" []).mpr ?_
  intro s hs heq _
  have hcases : s = twoAgents[0] ∨ s = twoAgents[1] := by simpa [twoAgents] using hs
  rcases hcases with rfl | rfl
  · decide
  · exact absurd heq (by decide)

/-- An agent asks for its own session to be killed: D-Bus does it, the
socket refuses. -/
theorem kill_own_session_differs :
    Dbus.killSession ⟨":1.1", [.string "1"]⟩ twoAgents =
      ⟨.positive, some 100, twoAgents.drop 1⟩ ∧
    Socket.killSessionBy ":1.1" (some "1") twoAgents =
      ⟨.resultError (some "Killing own session requested"), none, twoAgents⟩ ∧
    ¬ DbusDecides twoAgents ":1.1" "1" [] := by
  refine ⟨by decide, by decide, ?_⟩
  rintro ⟨-, hrefuse⟩
  have hown : ¬ KillAllowed twoAgents ":1.1" "1" := fun h =>
    h.other twoAgents[0] (by decide) rfl rfl
  obtain ⟨msg, hmsg⟩ := (hrefuse hown).1
  have hpos : (Dbus.killSession ⟨":1.1", [.string "1"]⟩ twoAgents).reply = .positive := by decide
  simp [hpos] at hmsg

end OfConfig.Proofs
