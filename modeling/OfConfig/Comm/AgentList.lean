import OfConfig.Comm.Agents
import OfConfig.Lib.Linked

/-!
# `OfConfig.Comm.AgentList`: the doubly linked list of agents

The functions of `server_ops.c` on the list in memory, pointer by pointer.
A function gives `none` where the code uses a pointer to memory that is not
allocated, or does not end in the given number of rounds. `calloc` is not
under the server's control, so the pointer it returns is an argument.

`OfConfig.Comm.Agents` has the same functions on the list of records.
-/

set_option autoImplicit false

namespace OfConfig.Comm

open OfConfig.Lib.Linked

/-- `struct agent_info` with its links. -/
structure AgentCell (γ : Type) where
  info : AgentInfo γ
  next : Option Nat
  prev : Option Nat

/-- The variable `agents` and the memory it points into. -/
structure AgentHeap (γ : Type) where
  agents : Option Nat
  mem : Nat → Option (AgentCell γ)

variable {γ : Type}

/-- No agents yet. -/
def noAgents : AgentHeap γ := ⟨none, fun _ => none⟩

namespace AgentHeap

/-- Write to the record at a pointer. -/
def write (h : AgentHeap γ) (p : Nat) (f : AgentCell γ → AgentCell γ) : Option (AgentHeap γ) :=
  (h.mem p).map (fun c => { h with mem := Function.update h.mem p (some (f c)) })

/-- The loop of the two lookups. -/
def getAgentBy (fuel : Nat) (p : AgentInfo γ → Bool) (h : AgentHeap γ) : Option (Option Nat) :=
  search h.mem AgentCell.next (fun c => p c.info) fuel h.agents

/-- `srv_get_agent_by_ncsid` -/
def srvGetAgentByNcsid (fuel : Nat) (id : String) (h : AgentHeap γ) : Option (Option Nat) :=
  h.getAgentBy fuel (fun a => a.session.ncsid = id)

/-- `srv_get_agent_by_agentid` -/
def srvGetAgentByAgentid (fuel : Nat) (id : String) (h : AgentHeap γ) : Option (Option Nat) :=
  h.getAgentBy fuel (fun a => a.id = id)

/-- `srv_agent_new`, when `calloc` returns `agent`. -/
def srvAgentNew (fuel : Nat) (agent : Nat) (info : AgentInfo γ) (h : AgentHeap γ) :
    Option (AgentHeap γ) := do
  let h := { h with mem := Function.update h.mem agent (some ⟨info, none, none⟩) }
  match h.agents with
  | none => some { h with agents := some agent }
  | some _ => do
      -- while (agents_iter->next != NULL)
      match ← search h.mem AgentCell.next (fun c => c.next.isNone) fuel h.agents with
      | none => none
      | some last => do
          let h ← h.write last (fun c => { c with next := some agent })
          h.write agent (fun c => { c with prev := some last })

/-- The record before, or the variable, points behind the agent. -/
def linkBefore (h : AgentHeap γ) (prev next : Option Nat) : Option (AgentHeap γ) :=
  match prev with
  | some p => h.write p (fun c => { c with next := next })
  | none => some { h with agents := next }

/-- The record behind points before the agent. -/
def linkBehind (h : AgentHeap γ) (next prev : Option Nat) : Option (AgentHeap γ) :=
  match next with
  | some p => h.write p (fun c => { c with prev := prev })
  | none => some h

/-- `srv_agent_stop` -/
def srvAgentStop (agent : Nat) (h : AgentHeap γ) : Option (AgentHeap γ) := do
  let c ← h.mem agent
  let h ← h.linkBefore c.prev c.next
  let c ← h.mem agent
  let h ← h.linkBehind c.next c.prev
  return { h with mem := Function.update h.mem agent none }

/-- `srv_agent_kill`, with the process that gets `SIGTERM`. -/
def srvAgentKill (agent : Nat) (h : AgentHeap γ) : Option (Nat × AgentHeap γ) := do
  let c ← h.mem agent
  let h ← h.srvAgentStop agent
  return (c.info.pid, h)

end AgentHeap

/-- The calls that change the list. -/
inductive AgentCall (γ : Type) where
  | new (agent : Nat) (info : AgentInfo γ)
  | stop (agent : Nat)
  | kill (agent : Nat)

/-- One call. -/
def AgentCall.run (fuel : Nat) (h : AgentHeap γ) : AgentCall γ → Option (AgentHeap γ)
  | .new agent info => h.srvAgentNew fuel agent info
  | .stop agent => h.srvAgentStop agent
  | .kill agent => (h.srvAgentKill agent).map Prod.snd

/-- Calls one after the other. -/
def runAgentCalls (fuel : Nat) : List (AgentCall γ) → AgentHeap γ → Option (AgentHeap γ)
  | [], h => some h
  | c :: cs, h => (c.run fuel h).bind (runAgentCalls fuel cs)

end OfConfig.Comm
