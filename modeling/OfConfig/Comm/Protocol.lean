import OfConfig.Comm.Wire

/-!
# `OfConfig.Comm.Protocol`: the messages between agents and server

The calls of an agent (`agent_comm_socket.c`) and the server's side of them
(`server_comm_socket.c`, `srv_process_rpc` of `server_ops.c`), as bytes.
`OfConfig.Comm.Wire` has the hand-over of a session; here are the other messages
and the `switch` of `comm_loop` over all of them.

A call of an agent is what it sends and what it makes of the bytes that come
back. The descriptor it uses is a valid one; the test for -1 that every call
begins with is left to the users of the calls. `Netconf` is what comes from
libnetconf, with a state `ω` of its own (the datastores).
-/

set_option autoImplicit false

namespace OfConfig.Comm.Wire

open OfConfig.Lib OfConfig.Comm.Socket

/-- `COMM_SOCK_GET_CPBLTS` -/
def commSockGetCpblts : Nat := 1

/-- `COMM_SOCK_CLOSE_SESSION` -/
def commSockCloseSession : Nat := 3

/-- `COMM_SOCK_KILL_SESSION` -/
def commSockKillSession : Nat := 4

/-- `COMM_SOCK_GENERICOP` -/
def commSockGenericop : Nat := 5

/-- `COMM_SOCK_RESULT_ERROR`: -1, as the bytes of an `int`. -/
def commSockResultError : Nat := 2 ^ 32 - 1

/-! ### The work on an RPC -/

/-- What `ncds_apply_rpc2all` returns: null, `NCDS_RPC_NOT_APPLICABLE`, or a
reply, of which the dump counts. -/
inductive Applied where
  | null
  | notApplicable
  | reply (dump : String)

/-- libnetconf, with its state. -/
structure Netconf (ω : Type) where
  /-- `nc_session_get_cpblts_default` -/
  cpblts : List String
  /-- `nc_rpc_build` and `ncds_apply_rpc2all` -/
  applyRpc2all : Session → String → ω → Applied × ω
  /-- the dump of an error reply: `NC_ERR_OP_FAILED`, with or without a message -/
  errorDump : Option String → String

variable {ω : Type}

/-- `srv_process_rpc` -/
def srvProcessRpc (L : Netconf ω) (session : Session) (rpc : String) (w : ω) : Applied × ω :=
  let r := L.applyRpc2all session rpc w
  match r.1 with
  | .null => (.reply (L.errorDump none), r.2)
  | .notApplicable =>
    (.reply (L.errorDump
      (some "Request is not applicable to the data managed by the server")), r.2)
  | .reply dump => (.reply dump, r.2)

/-- `process_operation` from the call of `srv_process_rpc` on: the dump of the
reply. -/
def operationDump (L : Netconf ω) (op : Operation) (w : ω) : String × ω :=
  match op with
  | .rejected msg => (L.errorDump (some msg), w)
  | .executed agent dump =>
    let r := srvProcessRpc L agent.session dump w
    match r.1 with
    | .null =>
      (L.errorDump (some "For unknown reason no reply was returned by device."), r.2)
    | .notApplicable =>
      (L.errorDump (some "There is no device/data that could be affected."), r.2)
    | .reply dump => (dump, r.2)

/-! ### The server -/

/-- The records of the agents, the processes that got `SIGTERM`, and the state of
libnetconf. -/
structure Records (ω : Type) where
  agents : Agents
  signalled : List Nat
  world : ω

/-- The handlers on decoded requests; `none` when nothing is sent back. -/
def handleRequest (L : Netconf ω) (socket conn : Nat) (req : Request) (st : Records ω) :
    Option Reply × Records ω :=
  match req with
  | .getCpblts => (some .cpblts, st)
  | .setSession info =>
    let r := setSession socket conn info st.agents
    (some r.1, { st with agents := r.2 })
  | .closeSession =>
    let r := closeSession socket st.agents
    (r.1, { st with agents := r.2 })
  | .killSession ncsid =>
    let r := killSession socket ncsid st.agents
    (some r.reply, { st with agents := r.agents, signalled := st.signalled ++ r.signalled.toList })
  | .genericop dump =>
    let r := operationDump L (processOperation socket dump st.agents) st.world
    (some (.genericop r.1), { st with world := r.2 })
  | .unsupported => (some (.resultError none), st)

/-- What is sent back. -/
def sendReply (L : Netconf ω) : Reply → List UInt8
  | .cpblts => leBytes 4 commSockGetCpblts ++ (leBytes 4 (L.cpblts.length % 2 ^ 32) ++
      (L.cpblts.map sendText).flatten)
  | .sessionSet => leBytes 4 commSockSetSession
  | .sessionClosed => leBytes 4 commSockCloseSession
  | .sessionKilled => leBytes 4 commSockKillSession
  | .resultError none => leBytes 4 commSockResultError
  | .resultError (some msg) => leBytes 4 commSockResultError ++ sendText msg
  | .genericop dump => leBytes 4 commSockGenericop ++ sendText dump

/-- The bytes of a reply, none if there is no reply. -/
def sendAnswer (L : Netconf ω) (reply : Option Reply) : List UInt8 := reply.elim [] (sendReply L)

/-- A length and as many bytes: `recv`, then `recv_msg`. -/
def recvText (len : List UInt8) (s : Stream) : Option (List UInt8) × Stream :=
  let l := recvInto len 4 s
  recvMsg (leNat l.1) l.2

/-- A message that has been read; a crash is undefined behaviour. -/
inductive Message where
  | request (req : Request)
  | crash

/-- The text of a message is used as a C string. -/
def textMessage (f : Option String → Request) : Option (List UInt8) → Message
  | none => .request (f none)
  | some buf =>
    match cString buf with
    | some s => .request (f (some s))
    | none => .crash

/-- Read a message: its type by `comm_loop`, the rest by the handler. The dump
of an RPC is not looked at when the agent is not known. -/
def recvRequest (mem : Memory) (known : Bool) (s : Stream) : Message × Stream :=
  let op := recvInto mem.op 4 s
  if leNat op.1 = commSockGetCpblts then (.request .getCpblts, op.2)
  else if leNat op.1 = commSockSetSession then
    let r := recvSession mem op.2
    match r.1 with
    | .session info => (.request (.setSession (some info)), r.2)
    | .failed => (.request (.setSession none), r.2)
    | .crash => (.crash, r.2)
  else if leNat op.1 = commSockCloseSession then (.request .closeSession, op.2)
  else if leNat op.1 = commSockKillSession then
    let r := recvText (leBytes 4 0) op.2
    (textMessage .killSession r.1, r.2)
  else if leNat op.1 = commSockGenericop then
    let r := recvText mem.len op.2
    if known then (textMessage .genericop r.1, r.2)
    else (.request (.genericop (r.1.map fun _ => "")), r.2)
  else (.request .unsupported, op.2)

/-- One message of an agent: what is sent back and whether the descriptor is
closed after it, and the records. `none` is undefined behaviour. At the end of
the stream nothing happens. -/
def serveMessage (L : Netconf ω) (socket conn : Nat) (mem : Memory) (s : Stream)
    (st : Records ω) : Option ((List UInt8 × Bool) × Records ω) × Stream :=
  if s.bytes = [] then (some (([], false), st), s)
  else
    let known := (srvGetAgentByAgentid (agentId socket) st.agents).isSome
    let m := recvRequest mem known s
    match m.1 with
    | .crash => (none, m.2)
    | .request req =>
      let r := handleRequest L socket conn req st
      (some ((sendAnswer L r.1, decide (req = .closeSession)), r.2), m.2)

/-! ### The agent -/

/-- A reply for the client: one without data, an error `NC_ERR_OP_FAILED` with
or without a message, or what `nc_reply_build` makes of a dump. -/
inductive NcReply where
  | ok
  | error (msg : Option String)
  | built (dump : String)
deriving DecidableEq, Repr

/-- The calls of an agent. -/
inductive AgentCall where
  | getSrvCpblts
  | sessionInfoSend (username sid : String) (cpblts : Cpblts) (pid : Nat)
  | operation (rpc : String)
  | close
  | killSession (sid : String)
deriving DecidableEq, Repr

/-- What a call returns: a list or null, success or failure, a reply. A crash is
undefined behaviour. -/
inductive CallResult where
  | cpblts (list : Option (List String))
  | status (success : Bool)
  | reply (r : NcReply)
  | crash
deriving DecidableEq, Repr

/-- What a call sends. -/
def sendCall : AgentCall → List UInt8
  | .getSrvCpblts => leBytes 4 commSockGetCpblts
  | .sessionInfoSend username sid cpblts pid => commSessionInfoSend username sid cpblts pid
  | .operation rpc => leBytes 4 commSockGenericop ++ sendText rpc
  | .close => leBytes 4 commSockCloseSession
  | .killSession sid => leBytes 4 commSockKillSession ++ sendText sid

/-- The variable `result` of a call, which is zero at first. -/
def recvResult (s : Stream) : Nat × Stream :=
  let r := recvInto (leBytes 4 0) 4 s
  (leNat r.1, r.2)

/-- The length that was sent last; the variable is used again for the reply. -/
def sentLength (s : String) : List UInt8 := leBytes 4 (((charBytes s).length + 1) % 2 ^ 32)

/-- `comm_get_srv_cpblts`, after the request has been sent. -/
def commGetSrvCpblts (mem : Memory) (s : Stream) : CallResult × Stream :=
  let result := recvResult s
  if result.1 ≠ commSockGetCpblts then (.cpblts none, result.2)
  else
    let count := recvInto mem.count 4 result.2
    if 2 ^ 31 - 1 ≤ leNat count.1 then (.crash, count.2)
    else
      let r := recvCpblts (leNat count.1) mem.len count.2
      match r.1 with
      | none => (.cpblts none, r.2)
      | some list =>
        match list.mapM cString with
        | some cpblts => (.cpblts (some cpblts), r.2)
        | none => (.crash, r.2)

/-- `comm_session_info_send` and `comm_close`, after the request has been
sent. -/
def commStatus (op : Nat) (s : Stream) : CallResult × Stream :=
  let result := recvResult s
  (.status (result.1 = op), result.2)

/-- `comm_operation`, after the request has been sent. -/
def commOperation (rpc : String) (s : Stream) : CallResult × Stream :=
  let result := recvResult s
  if result.1 ≠ commSockGenericop then
    (.reply (.error (some "agent-server communication failed.")), result.2)
  else
    let r := recvText (sentLength rpc) result.2
    match r.1 with
    | none => (.reply (.error (some "agent-server communication failed.")), r.2)
    | some buf =>
      match cString buf with
      | some dump => (.reply (.built dump), r.2)
      | none => (.crash, r.2)

/-- `comm_kill_session`, after the request has been sent. -/
def commKillSession (sid : String) (s : Stream) : CallResult × Stream :=
  let result := recvResult s
  if result.1 = commSockResultError then
    let r := recvText (sentLength sid) result.2
    match r.1 with
    | none => (.reply (.error none), r.2)
    | some buf =>
      match cString buf with
      | some errmsg => (.reply (.error (some errmsg)), r.2)
      | none => (.crash, r.2)
  else if result.1 ≠ commSockKillSession then (.reply (.error none), result.2)
  else (.reply .ok, result.2)

/-- What a call makes of the bytes that come back. -/
def recvCall (mem : Memory) (call : AgentCall) (s : Stream) : CallResult × Stream :=
  match call with
  | .getSrvCpblts => commGetSrvCpblts mem s
  | .sessionInfoSend _ _ _ _ => commStatus commSockSetSession s
  | .operation rpc => commOperation rpc s
  | .close => commStatus commSockCloseSession s
  | .killSession sid => commKillSession sid s

end OfConfig.Comm.Wire
