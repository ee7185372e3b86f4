import OfConfig.Comm.Socket
import OfConfig.Lib.Stream

/-!
# `OfConfig.Comm.Wire`: the session hand-over as bytes

What `comm_session_info_send` of an agent (`agent_comm_socket.c`) writes
to the socket, and how `set_session` of the server
(`server_comm_socket.c`) reads it, with `recv_msg` of `comm_socket.c`.
Both run on one machine; numbers are written least significant byte
first.

`set_session` reads most fields with a single call of recv and does not
look at what it returns. A variable then keeps the bytes it had before,
or, when it was never written, whatever memory held: that is `Memory`.
-/

set_option autoImplicit false

namespace OfConfig.Comm.Wire

open OfConfig.Lib OfConfig.Comm.Socket

/-- `COMM_SOCK_SET_SESSION` -/
def commSockSetSession : Nat := 2

/-! ### C strings -/

/-- The characters of a C string: one byte each, none of them zero. -/
def IsCString (s : String) : Prop := ∀ c ∈ s.toList, 0 < c.toNat ∧ c.toNat < 256

instance (s : String) : Decidable (IsCString s) :=
  decidable_of_iff (s.toList.all (fun c => 0 < c.toNat && c.toNat < 256) = true)
    (by simp [IsCString])

/-- The bytes of a C string, without the zero. -/
def charBytes (s : String) : List UInt8 := s.toList.map (fun c => UInt8.ofNat c.toNat)

/-- The C string in a buffer; `none` when reading it runs past the end. -/
def cString (buf : List UInt8) : Option String :=
  if 0 ∈ buf then
    some (String.ofList ((buf.takeWhile (· ≠ 0)).map (fun b => Char.ofNat b.toNat)))
  else none

/-! ### The agent -/

/-- `struct nc_cpblts`: the list, and the position of its iterator. -/
structure Cpblts where
  items : List String
  iter : Nat
deriving DecidableEq, Repr

/-- The length of a string with its zero, as an `unsigned int`, and that
many bytes. -/
def sendText (s : String) : List UInt8 :=
  let len := ((charBytes s).length + 1) % 2 ^ 32
  leBytes 4 len ++ (charBytes s ++ [0]).take len

/-- `comm_session_info_send`: everything it sends. The iterator of the
capabilities is not set to the start. -/
def commSessionInfoSend (username sid : String) (cpblts : Cpblts) (pid : Nat) : List UInt8 :=
  leBytes 4 commSockSetSession ++ (sendText sid ++ (leBytes 2 (pid % 2 ^ 16) ++
    (sendText username ++ (leBytes 4 (cpblts.items.length % 2 ^ 32) ++
      ((cpblts.items.drop cpblts.iter).map sendText).flatten))))

/-! ### The server -/

/-- What memory holds before it is written: the local variables, and the
buffers that malloc returns for a length. -/
structure Memory where
  op : List UInt8
  len : List UInt8
  pid : List UInt8
  count : List UInt8
  sessionId : Nat → List UInt8
  username : Nat → List UInt8
  op_length : op.length = 4
  len_length : len.length = 4
  pid_length : pid.length = 2
  count_length : count.length = 4
  sessionId_length : ∀ n, (sessionId n).length = n
  username_length : ∀ n, (username n).length = n

/-- One call of recv into a variable. -/
def recvInto (old : List UInt8) (n : Nat) (s : Stream) : List UInt8 × Stream :=
  let r := recv n s
  (r.1 ++ old.drop r.1.length, r.2)

/-- `recv_msg` -/
def recvMsg (len : Nat) (s : Stream) : Option (List UInt8) × Stream :=
  recvLoop len len [] s

/-- The loop over the capabilities; `len` is the variable from before. -/
def recvCpblts : Nat → List UInt8 → Stream → Option (List (List UInt8)) × Stream
  | 0, _, s => (some [], s)
  | n + 1, len, s =>
    let l := recvInto len 4 s
    let m := recvMsg (leNat l.1) l.2
    match m.1 with
    | none => (none, m.2)
    | some c =>
      let r := recvCpblts n l.1 m.2
      (r.1.map (c :: ·), r.2)

/-- How reading the message ends; a crash is undefined behaviour. -/
inductive Received where
  | session (info : Session × UInt16)
  | failed
  | crash
deriving DecidableEq

/-- The session from the buffers. -/
def sessionOf (sessionId username : List UInt8) (pid : List UInt8)
    (cpbltsList : List (List UInt8)) : Received :=
  match cString sessionId, cString username, cpbltsList.mapM cString with
  | some sid, some user, some cpblts =>
    .session (⟨sid, user, cpblts⟩, UInt16.ofNat (leNat pid))
  | _, _, _ => .crash

/-- `set_session` up to the call of `srv_agent_new`. A count for which the
array cannot be allocated is written to out of bounds. -/
def recvSession (mem : Memory) (s : Stream) : Received × Stream :=
  let len := recvInto mem.len 4 s
  let sessionId := recvInto (mem.sessionId (leNat len.1)) (leNat len.1) len.2
  let pid := recvInto mem.pid 2 sessionId.2
  let len' := recvInto len.1 4 pid.2
  let username := recvInto (mem.username (leNat len'.1)) (leNat len'.1) len'.2
  let count := recvInto mem.count 4 username.2
  if 2 ^ 31 - 1 ≤ leNat count.1 then (.crash, count.2)
  else
    let r := recvCpblts (leNat count.1) len'.1 count.2
    match r.1 with
    | none => (.failed, r.2)
    | some cpbltsList => (sessionOf sessionId.1 username.1 pid.1 cpbltsList, r.2)

/-- A message of an agent, if it is the hand-over of a session: `comm_loop`
reads the type, `set_session` the rest. The reply and the records are
`none` after a crash. -/
def serveHandOver (socket conn : Nat) (mem : Memory) (s : Stream) (agents : Agents) :
    Option (Reply × Agents) × Stream :=
  let op := recvInto mem.op 4 s
  if leNat op.1 = commSockSetSession then
    match recvSession mem op.2 with
    | (.session info, s) => (some (setSession socket conn (some info) agents), s)
    | (.failed, s) => (some (setSession socket conn none agents), s)
    | (.crash, s) => (none, s)
  else (some (.resultError none, agents), op.2)

end OfConfig.Comm.Wire
