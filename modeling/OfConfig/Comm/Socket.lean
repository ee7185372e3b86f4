import OfConfig.Comm.Agents

/-!
# `OfConfig.Comm.Socket`: requests over the UNIX socket

The handlers of `server_comm_socket.c`, the slots that are polled, and
`comm_loop`. A record made here has the decimal text of the descriptor
as its agent id, cut to five characters.

The state holds, besides the variables of the server, the descriptors that
are open, each with the number of the connection behind it. Descriptors
come back, connections do not. What poll, recv and accept return is given
to `commLoop` as `Poll`; a request arrives decoded.
-/

set_option autoImplicit false

namespace OfConfig.Comm.Socket

/-- `AGENTS_QUEUE` -/
def agentsQueue : Nat := 10

/-- `snprintf(id, 6, "%d", socket)` -/
def agentId (socket : Nat) : String :=
  String.ofList ((Nat.toDigits 10 socket).take 5)

/-- The requests of an agent. An argument is `none` when it could not be
received. -/
inductive Request where
  | getCpblts
  | setSession (info : Option (Session × UInt16))
  | closeSession
  | killSession (ncsid2kill : Option String)
  | genericop (msgDump : Option String)
  | unsupported
deriving DecidableEq, Repr

/-- What is sent back: the type of the message and what comes with it. -/
inductive Reply where
  | cpblts
  | sessionSet
  | sessionClosed
  | sessionKilled
  | resultError (msg : Option String)
  | genericop (dump : String)
deriving DecidableEq, Repr

/-- The records, each with the number of the connection it was handed over
on. -/
abbrev Agents := List (AgentInfo Nat)

/-! ### Handlers -/

/-- `set_session` on a connection, after the message has been read. -/
def setSession (socket conn : Nat) (info : Option (Session × UInt16)) (agents : Agents) :
    Reply × Agents :=
  match info with
  | none => (.resultError none, agents)
  | some (session, pid) => (.sessionSet, srvAgentNew session (agentId socket) pid conn agents)

/-- `close_session` -/
def closeSession (socket : Nat) (agents : Agents) : Option Reply × Agents :=
  match srvGetAgentByAgentid (agentId socket) agents with
  | none => (none, agents)
  | some senderSession => (some .sessionClosed, srvAgentStop senderSession agents)

/-- `kill_session` for the agent with an id. -/
def killSessionBy {γ : Type} (id : String) (ncsid2kill : Option String)
    (agents : List (AgentInfo γ)) : KillOutcome Reply γ :=
  match ncsid2kill with
  | none => refuseKill (.resultError (some "SessionID expected as a string value")) agents
  | some ncsid =>
    match srvGetAgentByNcsid ncsid agents with
    | none => refuseKill (.resultError (some "Session to kill does not exists")) agents
    | some session =>
      match (srvGetAgentByAgentid id agents).bind (agents[·]?) with
      | none => refuseKill (.resultError (some "You are unknown client")) agents
      | some sender =>
        if sender.session.ncsid = ncsid then
          refuseKill (.resultError (some "Killing own session requested")) agents
        else carryOutKill .sessionKilled session agents

/-- `kill_session` -/
def killSession (socket : Nat) (ncsid2kill : Option String) (agents : Agents) :
    KillOutcome Reply Nat :=
  killSessionBy (agentId socket) ncsid2kill agents

/-- How `process_operation` ends: the RPC is given to libnetconf for a
record, or it is rejected with an error. -/
inductive Operation where
  | executed (agent : AgentInfo Nat) (msgDump : String)
  | rejected (msg : String)
deriving DecidableEq, Repr

/-- `process_operation` up to the call of `srv_process_rpc`. -/
def processOperation (socket : Nat) (msgDump : Option String) (agents : Agents) : Operation :=
  match msgDump with
  | none => .rejected "agent-server communication failed."
  | some dump =>
    match (srvGetAgentByAgentid (agentId socket) agents).bind (agents[·]?) with
    | none => .rejected "request from unknown agent"
    | some agent => .executed agent dump

/-! ### The server -/

/-- What the server has done for a connection. -/
inductive Event where
  | registered (conn : Nat) (agent : AgentInfo Nat)
  | executed (conn : Nat) (agent : AgentInfo Nat) (msgDump : String)
  | rejected (conn : Nat) (msg : String)
  | signalled (conn pid : Nat)
deriving DecidableEq, Repr

/-- The state of the server. -/
structure Server where
  /-- `*c != -1` -/
  alive : Bool
  /-- `agents[0].fd != -1` -/
  listening : Bool
  /-- `agents[1..AGENTS_QUEUE].fd`, `none` for -1 -/
  slots : List (Option Nat)
  connectedAgents : Int
  /-- the records of `server_ops.c` -/
  agents : Agents
  /-- open descriptors, with the connections behind them -/
  fds : List (Nat × Nat)
  /-- how many connections there have been -/
  conns : Nat

/-- The state after `comm_init`. -/
def commInit : Server where
  alive := true
  listening := true
  slots := List.replicate agentsQueue none
  connectedAgents := 0
  agents := []
  fds := []
  conns := 0

/-- The connection behind a descriptor. -/
def Server.conn (st : Server) (fd : Nat) : Option Nat :=
  (st.fds.find? (·.1 = fd)).map Prod.snd

/-- A slot becomes free, and new clients are accepted again. -/
def Server.freeSlot (st : Server) (i : Nat) : Server :=
  { st with slots := st.slots.set i none, connectedAgents := st.connectedAgents - 1,
            listening := true }

/-- `close(fd)` -/
def Server.close (st : Server) (fd : Nat) : Server :=
  { st with fds := st.fds.filter (·.1 ≠ fd) }

/-- A new connection in a slot. -/
def Server.fillSlot (st : Server) (i fd : Nat) : Server :=
  let n := st.connectedAgents + 1
  { st with slots := st.slots.set i (some fd), connectedAgents := n,
            fds := (fd, st.conns) :: st.fds, conns := st.conns + 1,
            listening := st.listening && n ≠ agentsQueue }

/-- `comm_destroy` -/
def commDestroy (st : Server) : Server :=
  if 0 < st.connectedAgents then
    { st with alive := false, connectedAgents := 0,
              fds := st.fds.filter (fun p => !st.slots.contains (some p.1)) }
  else { st with alive := false }

/-- The branches of the `switch` over the type of a message. -/
def serve (i fd conn : Nat) (req : Request) (st : Server) : Server × List Event :=
  match req with
  | .getCpblts => (st, [])
  | .setSession info =>
    let agents := (setSession fd conn info st.agents).2
    ({ st with agents := agents }, (agents.drop st.agents.length).map (.registered conn))
  | .closeSession =>
    let agents := (closeSession fd st.agents).2
    ((({ st with agents := agents }).close fd).freeSlot i, [])
  | .killSession ncsid =>
    let r := killSession fd ncsid st.agents
    ({ st with agents := r.agents }, r.signalled.toList.map (.signalled conn))
  | .genericop dump =>
    match processOperation fd dump st.agents with
    | .executed agent d => (st, [.executed conn agent d])
    | .rejected msg => (st, [.rejected conn msg])
  | .unsupported => (st, [])

/-! ### `comm_loop` -/

/-- What poll reports for a slot: nothing, an error or a hang-up, or a
message; `none` when recv returns nothing of it. -/
inductive SlotEvent where
  | idle
  | hangup
  | input (req : Option Request)
deriving DecidableEq, Repr

/-- What poll reports for the listening socket, with the descriptors that
accept returns one after the other and whether it then says `EAGAIN`. -/
inductive ListenEvent where
  | idle
  | error
  | input (accepted : List Nat) (again : Bool)
deriving DecidableEq, Repr

/-- The outcome of poll; after `EINTR` it is called again. -/
inductive Poll where
  | failed
  | timeout
  | ready (slots : List SlotEvent) (listen : ListenEvent)
deriving DecidableEq, Repr

/-- The number that poll returns. Entries with a negative descriptor do
not count. -/
def pollCount (slots : List SlotEvent) (listen : ListenEvent) (st : Server) : Int :=
  ((slots.zip st.slots).countP (fun p => p.1 ≠ .idle && p.2.isSome)) +
    (if st.listening && listen ≠ .idle then 1 else 0)

/-- The loop over the slots, from slot `i` on; `true` when the function
returns from inside. -/
def serveSlots (i : Nat) : List SlotEvent → Int → Server → (Server × List Event) × Bool
  | [], _, st => ((st, []), false)
  | ev :: evs, ret, st =>
    if 0 < st.connectedAgents then
      match st.slots.getD i none, ev with
      | some _, .hangup => serveSlots (i + 1) evs ret (st.freeSlot i)
      | some fd, .input req =>
        match req, st.conn fd with
        | some req, some conn =>
          let r := serve i fd conn req st
          if ret - 1 = 0 then (r, true)
          else
            let rs := serveSlots (i + 1) evs (ret - 1) r.1
            ((rs.1.1, r.2 ++ rs.1.2), rs.2)
        | _, _ => serveSlots (i + 1) evs (ret - 1) st
      | _, _ => serveSlots (i + 1) evs ret st
    else ((st, []), false)

/-- The loop over accept. `none` stands for the write behind the last
slot; the flag says that the loop was left because all slots are taken. -/
def acceptLoop : List Nat → Server → Option (Server × Bool)
  | [], st => some (st, false)
  | newSock :: more, st =>
    match st.slots.findIdx? Option.isNone with
    | none => none
    | some i =>
      let st' := st.fillSlot i newSock
      if st'.connectedAgents = agentsQueue then some (st', true) else acceptLoop more st'

/-- `comm_loop` -/
def commLoop (poll : Poll) (st : Server) : Option (Server × List Event) :=
  if !st.alive then some (st, [])
  else
    match poll with
    | .failed => some (commDestroy st, [])
    | .timeout => some (st, [])
    | .ready slots listen =>
      let r := serveSlots 0 slots (pollCount slots listen st) st
      if r.2 then some r.1
      else if !st.listening then some r.1
      else
        match listen with
        | .idle => some r.1
        | .error => some (commDestroy r.1.1, r.1.2)
        | .input accepted again =>
          match acceptLoop accepted r.1.1 with
          | none => none
          | some (st', full) =>
            some (if full || again then st' else commDestroy st', r.1.2)

end OfConfig.Comm.Socket
