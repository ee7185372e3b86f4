import OfConfig.Comm.Protocol
import OfConfig.Lib.Prog
import OfConfig.Xml.Node

/-!
# `OfConfig.Comm.Agent`: the process of an agent

`agent.c`: an agent serves one client. It hands the session over to the server,
forwards the RPCs of the client one after the other, and closes the channel
before it ends.

The functions are programs on a `Process`. What the server will answer is a
field of it (`results`); a process that has made a call for which there is no
result yet is `waiting`. What libnetconf returns for the client is given to the
loop (`Input`); a process that has used it up is `listening`. A signal is taken
between two messages of the client. The second one ends the process at once:
such a process is one that makes no more calls.
-/

set_option autoImplicit false

namespace OfConfig.Comm.Agent

open OfConfig.Lib OfConfig.Xml OfConfig.Comm.Wire

/-! ### The client -/

/-- What libnetconf and the system answer while a `create-subscription` is
processed. -/
structure Subscription where
  /-- `nc_cpblts_enabled` for `NOTIFCAP_URI` -/
  enabled : Bool
  /-- `nc_session_notif_allowed` -/
  allowed : Bool
  /-- `ncntf_subscription_check`: the reply, unless it is `NC_REPLY_OK` -/
  refused : Option String
  /-- does malloc return memory? -/
  memory : Bool
  /-- does `pthread_create` start the thread? -/
  thread : Bool

/-- `nc_rpc_get_op`, with what is read of the RPC: `ncxml_rpc_get_op_content` for
a `kill-session`. -/
inductive RpcOp where
  | closeSession
  | killSession (opnode : Option Node)
  | createSubscription (s : Subscription)
  | other

/-- An RPC of the client. -/
structure Rpc where
  op : RpcOp
  /-- `nc_rpc_dump` -/
  dump : String

/-- What `nc_session_recv_rpc` returns, or a signal. `none` is a message that
needs no work, or none at all. -/
inductive Input where
  | rpc (rpc : Option Rpc)
  | none
  | unknown (working : Bool)
  | signal

/-- What the client gets back: `nc_reply_ok`, errors, replies of the server, and
those of libnetconf. -/
inductive ClientReply where
  | ok
  | opFailed (type msg : Option String)
  | missingElem (elem : String)
  | opNotSupported
  | built (dump : String)
  | refused (dump : String)
deriving DecidableEq, Repr

/-- `struct nc_session`, as far as `session_info` reads it. -/
structure NcSession where
  user : Option String
  id : Option String
  cpblts : Option Cpblts

/-- What is outside of the process. -/
structure Outside where
  /-- does `nc_init` succeed? -/
  ncInit : Bool
  /-- does `comm_init` return a channel? -/
  commInit : Bool
  /-- `nc_session_accept` -/
  accept : List String → Option NcSession
  /-- `getpid` -/
  pid : Nat
  /-- does `nc_reply_build` accept a dump? -/
  builds : String → Bool

/-! ### The process -/

/-- The pointer `c`: null, to a descriptor that is -1, or to an open one. -/
inductive Chan where
  | null
  | invalid
  | ready
deriving DecidableEq, Repr

/-- The process, with what the server is going to answer. -/
structure Process where
  c : Chan
  mainloop : Bool
  results : List CallResult
  /-- the calls made so far -/
  calls : List Wire.AgentCall
  /-- `nc_session_send_reply` so far -/
  replies : List (Rpc × ClientReply)

/-- The process before `main`. -/
def Process.start (results : List CallResult) : Process where
  c := .null
  mainloop := false
  results := results
  calls := []
  replies := []

/-- Why a process has not come to its end. -/
inductive Stop where
  | waiting
  | listening
  | crash
deriving DecidableEq, Repr

/-- A function of `agent.c`. -/
abbrev Act (α : Type) := Prog Process Stop α

/-- A call of the server. With a descriptor of -1 it fails at once. -/
def commCall (call : Wire.AgentCall) : Act (Option CallResult) := fun a =>
  match a.c with
  | .null => (.error .crash, a)
  | .invalid => (.ok none, a)
  | .ready =>
    let a := { a with calls := a.calls ++ [call] }
    match a.results with
    | [] => (.error .waiting, a)
    | .crash :: results => (.error .crash, { a with results := results })
    | result :: results => (.ok (some result), { a with results := results })

/-- `comm_destroy` -/
def commDestroy : Act Unit := do
  if (← Prog.read Process.c) = .ready then do
    let _ ← commCall .close
    Prog.update (fun a => { a with c := .invalid })
  else pure ()

/-- `get_server_capabilities` -/
def getServerCapabilities : Act (Option (List String)) := do
  match ← commCall .getSrvCpblts with
  | some (.cpblts list) => return list
  | _ => return none

/-- `session_info`: did it succeed? -/
def sessionInfo (env : Outside) (ncs : NcSession) : Act Bool :=
  match ncs.user, ncs.id, ncs.cpblts with
  | some username, some sid, some cpblts => do
      match ← commCall (.sessionInfoSend username sid cpblts env.pid) with
      | some (.status success) => return success
      | _ => return false
  | _, _, _ => pure false

/-- The reply in the result of a call; `none` for a null pointer. -/
def serverReply (env : Outside) : Option CallResult → Option ClientReply
  | some (.reply .ok) => some .ok
  | some (.reply (.error msg)) => some (.opFailed none msg)
  | some (.reply (.built dump)) => if env.builds dump then some (.built dump) else none
  | _ => none

/-- The session to kill, or the error for the client. -/
def sessionToKill (opnode : Option Node) : Except ClientReply String :=
  match opnode with
  | none => .error (.opFailed none none)
  | some opnode =>
    if opnode.label.name ≠ "kill-session" then .error (.opFailed none none)
    else
      match opnode.children with
      | [] => .error (.missingElem "session-id")
      | child :: _ =>
        if child.label.name ≠ "session-id" then .error (.missingElem "session-id")
        else .ok (nodeGetContent child)

/-- The branch for `NC_OP_CREATESUBSCRIPTION`. -/
def createSubscription (s : Subscription) : ClientReply :=
  if !s.enabled then .opNotSupported
  else if !s.allowed then
    .opFailed (some "protocol")
      (some "Another notification subscription is currently active on this session.")
  else
    match s.refused with
    | some reply => .refused reply
    | none =>
      if !s.memory then .opFailed none (some "Memory allocation failed.")
      else if !s.thread then
        .opFailed none (some "Creating thread for sending Notifications failed.")
      else .ok

/-- The `switch` of `process_message`; `none` for a null pointer. -/
def messageReply (env : Outside) (rpc : Rpc) : Act (Option ClientReply) :=
  match rpc.op with
  | .closeSession => do
      commDestroy
      Prog.update (fun a => { a with c := .null, mainloop := true })
      return some .ok
  | .killSession opnode =>
    match sessionToKill opnode with
    | .error reply => pure (some reply)
    | .ok sid => do return serverReply env (← commCall (.killSession sid))
  | .createSubscription s => pure (some (createSubscription s))
  | .other => do return serverReply env (← commCall (.operation rpc.dump))

/-- `process_message`: did it succeed? -/
def processMessage (env : Outside) (rpc : Option Rpc) : Act Bool :=
  match rpc with
  | none => pure false
  | some rpc => do
      let reply ← messageReply env rpc
      Prog.update (fun a =>
        { a with replies := a.replies ++ [(rpc, reply.getD (.opFailed none none))] })
      return true

/-- The `switch` over what `nc_session_recv_rpc` returned; `next` is the next
round of the loop. -/
def mainRound (env : Outside) (input : Input) (next : Act Bool) : Act Bool :=
  match input with
  | .rpc rpc => do
      -- the result is only logged
      let _ ← processMessage env rpc
      next
  | .none => next
  | .unknown working => if working then next else pure false
  | .signal => do
      Prog.update (fun a => { a with mainloop := true })
      next

/-- The loop of `main`: did it come to its end? -/
def mainLoop (env : Outside) : List Input → Act Bool
  | [] => do
      if ← Prog.read Process.mainloop then return true else Prog.stop .listening
  | input :: inputs => do
      if ← Prog.read Process.mainloop then return true
      else mainRound env input (mainLoop env inputs)

/-- `main` from the initialisation of libnetconf up to the label `cleanup`. -/
def mainBody (env : Outside) (inputs : List Input) : Act Bool :=
  if !env.ncInit then pure false
  else if !env.commInit then pure false
  else do
    Prog.update (fun a => { a with c := .ready })
    match ← getServerCapabilities with
    | none => return false
    | some capabilities =>
      match env.accept capabilities with
      | none => return false
      | some ncs => do
          if ← sessionInfo env ncs then mainLoop env inputs else return false

/-- `main`: does it return `EXIT_SUCCESS`? -/
def main (env : Outside) (inputs : List Input) : Act Bool := do
  let ret ← mainBody env inputs
  commDestroy
  return ret

end OfConfig.Comm.Agent
