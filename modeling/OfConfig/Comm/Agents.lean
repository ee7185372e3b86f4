import Mathlib.Data.List.Basic
import Mathlib.Data.List.Nodup

/-!
# `OfConfig.Comm.Agents`: the records of connected agents

`server_ops.c` keeps one record for every agent that handed over a
NETCONF session. Both transports, D-Bus and the UNIX socket, find and
remove records through the functions below. The list is a doubly linked
one in C; here it is a list, and a pointer to a record is its index.

A record carries, besides what the code keeps, where it comes from: the
connection on which the session was handed over. No function reads this
field; it is there for statements about whose record a request is served
with.
-/

set_option autoImplicit false

namespace OfConfig.Comm

/-- A session as `nc_session_dummy` makes it. -/
structure Session where
  ncsid : String
  username : String
  cpblts : List String
deriving DecidableEq, Repr

/-- `struct agent_info` -/
structure AgentInfo (γ : Type) where
  id : String
  pid : Nat
  session : Session
  origin : γ
deriving DecidableEq, Repr

variable {γ : Type}

/-- `srv_get_agent_by_ncsid` -/
def srvGetAgentByNcsid (id : String) (agents : List (AgentInfo γ)) : Option Nat :=
  agents.findIdx? (fun a => a.session.ncsid = id)

/-- `srv_get_agent_by_agentid` -/
def srvGetAgentByAgentid (id : String) (agents : List (AgentInfo γ)) : Option Nat :=
  agents.findIdx? (fun a => a.id = id)

/-- `srv_agent_new`: the record goes to the end of the list. -/
def srvAgentNew (session : Session) (agentid : String) (pid : UInt16) (origin : γ)
    (agents : List (AgentInfo γ)) : List (AgentInfo γ) :=
  agents ++ [{ id := agentid, pid := pid.toNat, session := session, origin := origin }]

/-- `srv_agent_stop` -/
def srvAgentStop (agent : Nat) (agents : List (AgentInfo γ)) : List (AgentInfo γ) :=
  agents.eraseIdx agent

/-- `srv_agent_kill`: the process that gets `SIGTERM`, and the list
without the record. -/
def srvAgentKill (agent : Nat) (agents : List (AgentInfo γ)) :
    Option Nat × List (AgentInfo γ) :=
  (agents[agent]?.map AgentInfo.pid, srvAgentStop agent agents)

/-- What a handler of kill-session has done. -/
structure KillOutcome (ρ γ : Type) where
  reply : ρ
  /-- the process that got `SIGTERM` -/
  signalled : Option Nat
  agents : List (AgentInfo γ)
deriving DecidableEq, Repr

/-- A request that is refused: nobody gets a signal, and all records stay. -/
def refuseKill {ρ : Type} (reply : ρ) (agents : List (AgentInfo γ)) : KillOutcome ρ γ :=
  ⟨reply, none, agents⟩

/-- A record is killed. -/
def carryOutKill {ρ : Type} (reply : ρ) (agent : Nat) (agents : List (AgentInfo γ)) :
    KillOutcome ρ γ :=
  let r := srvAgentKill agent agents
  ⟨reply, r.1, r.2⟩

/-! ### Finding and removing -/

theorem srvGetAgentByNcsid_eq_some {id : String} {agents : List (AgentInfo γ)} {i : Nat}
    (h : srvGetAgentByNcsid id agents = some i) :
    ∃ a, agents[i]? = some a ∧ a.session.ncsid = id := by
  obtain ⟨hi, hp, -⟩ := List.findIdx?_eq_some_iff_getElem.mp h
  exact ⟨agents[i], List.getElem?_eq_getElem hi, by simpa using hp⟩

theorem srvGetAgentByAgentid_eq_some {id : String} {agents : List (AgentInfo γ)} {i : Nat}
    (h : srvGetAgentByAgentid id agents = some i) :
    ∃ a, agents[i]? = some a ∧ a.id = id := by
  obtain ⟨hi, hp, -⟩ := List.findIdx?_eq_some_iff_getElem.mp h
  exact ⟨agents[i], List.getElem?_eq_getElem hi, by simpa using hp⟩

theorem srvGetAgentByNcsid_eq_none {id : String} {agents : List (AgentInfo γ)} :
    srvGetAgentByNcsid id agents = none ↔ ∀ a ∈ agents, a.session.ncsid ≠ id := by
  simp [srvGetAgentByNcsid]

theorem srvGetAgentByAgentid_eq_none {id : String} {agents : List (AgentInfo γ)} :
    srvGetAgentByAgentid id agents = none ↔ ∀ a ∈ agents, a.id ≠ id := by
  simp [srvGetAgentByAgentid]

theorem srvAgentStop_sublist (agent : Nat) (agents : List (AgentInfo γ)) :
    (srvAgentStop agent agents).Sublist agents :=
  List.eraseIdx_sublist agents agent

end OfConfig.Comm
