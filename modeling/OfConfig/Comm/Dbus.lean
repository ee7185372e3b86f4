import OfConfig.Comm.Agents

/-!
# `OfConfig.Comm.Dbus`: requests over D-Bus

The handlers of `server_comm_dbus.c` that work on the records of the
agents. A record made here has the unique name of the D-Bus connection
as its agent id. What libdbus does is the message: its sender and its
typed arguments.
-/

set_option autoImplicit false

namespace OfConfig.Comm.Dbus

/-- An argument of a message; `other` is one of a type no handler takes. -/
inductive Arg where
  | string (s : String)
  | uint16 (n : UInt16)
  | other
deriving DecidableEq, Repr

/-- A method call: `dbus_message_get_sender`, and the arguments. -/
structure Message where
  sender : String
  args : List Arg

/-- What goes back: a positive reply, an error with `DBUS_ERROR_FAILED`
and a text, a dump of an rpc-reply, or nothing. -/
inductive Reply where
  | positive
  | error (msg : String)
  | dump (s : String)
  | none
deriving DecidableEq, Repr

variable {γ : Type}

/-- The loop over the capabilities of `set_session`. -/
def takeCpblts : Nat → List Arg → Option (List String)
  | 0, _ => some []
  | n + 1, .string s :: args => (takeCpblts n args).map (s :: ·)
  | _ + 1, _ => none

/-- `set_session` -/
def setSession (msg : Message) (origin : γ) (agents : List (AgentInfo γ)) :
    Reply × List (AgentInfo γ) :=
  match msg.args with
  | [] => (.error "Invalid format (no attributes).", agents)
  | .string sessionId :: args =>
    match args with
    | .uint16 pid :: args =>
      match args with
      | .string username :: args =>
        match args with
        | .uint16 cpbltsCount :: args =>
          match takeCpblts cpbltsCount.toNat args with
          | some cpblts =>
            (.positive, srvAgentNew ⟨sessionId, username, cpblts⟩ msg.sender pid origin
              agents)
          | none => (.error "Capability expected as a string value", agents)
        | _ => (.error "CapabilitiesCount expected as a uint16 value", agents)
      | _ => (.error "Username expected as a string value", agents)
    | _ => (.error "PID expected as a uint16 value", agents)
  | _ => (.error "SessionID expected as a string value", agents)

/-- `close_session` -/
def closeSession (msg : Message) (agents : List (AgentInfo γ)) : Reply × List (AgentInfo γ) :=
  match srvGetAgentByAgentid msg.sender agents with
  | none => (.none, agents)
  | some senderSession => (.none, srvAgentStop senderSession agents)

/-- `kill_session`. The test for the own session compares the NETCONF
session id of the sender with the sender's name on the bus. -/
def killSession (msg : Message) (agents : List (AgentInfo γ)) : KillOutcome Reply γ :=
  match msg.args with
  | [] => refuseKill (.error "Invalid format (no attributes).") agents
  | .string id2kill :: _ =>
    match srvGetAgentByNcsid id2kill agents with
    | none => refuseKill (.error "Session to kill does not exists") agents
    | some session =>
      match (srvGetAgentByAgentid msg.sender agents).bind (agents[·]?) with
      | none => refuseKill (.error "You are unknown client") agents
      | some sender =>
        if sender.session.ncsid = msg.sender then
          refuseKill (.error "Killing own session requested") agents
        else carryOutKill .positive session agents
  | _ => refuseKill (.error "SessionID expected as a string value") agents

/-- `process_operation`; `process` is libnetconf's work on the dump of the
RPC for a session, null when it has no reply that can be dumped. -/
def processOperation (process : Session → String → Option String) (msg : Message)
    (agents : List (AgentInfo γ)) : Reply :=
  match (srvGetAgentByAgentid msg.sender agents).bind (agents[·]?) with
  | none => .error "Your session is no longer valid!"
  | some agent =>
    match msg.args with
    | [] => .error "Invalid format (no attributes)."
    | .string rpcdump :: _ =>
      match process agent.session rpcdump with
      | some replydump => .dump replydump
      | none => .error "Invalid rpc-reply to send via D-Bus"
    | _ => .error "RPC expected as a string value"

end OfConfig.Comm.Dbus
