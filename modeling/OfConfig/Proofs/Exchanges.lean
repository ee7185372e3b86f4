import OfConfig.Comm.Protocol
import OfConfig.Lib.Rpc
import OfConfig.Proofs.HandOver

/-!
# `OfConfig.Proofs.Exchanges`: requests and replies over the UNIX socket

Any number of agents talk to the server, each over a connection of its own, and
the server takes the messages in any order. `socket_carries` shows that the
bytes of the calls carry the requests of the handlers and their replies, for
every way the looped reads are cut, as long as no single call of recv is cut
short (`WholeReads`).

* `serveMessage_send`: the server reads back what an agent sends and consumes
  exactly that.
* `recvCall_reply`: the agent reads back what the server sends.
* `socket_linearizable`: over any interleaving, the server has executed the
  requests one after the other, and every agent has got the results of its own
  calls, each one once and in order. The server reads no message of one agent as
  that of another, and none is lost.
* `socket_answers`: the server is never blocked in a read, and an agent that
  waits can be answered, with reads that find all they ask for.
* `socket_blocks`: the iterator of the capabilities has to stand at the start for
  that. Otherwise more capabilities are announced than are sent, and the server
  waits for them.
-/

set_option autoImplicit false

namespace OfConfig.Proofs

open OfConfig.Lib OfConfig.Comm OfConfig.Comm.Socket OfConfig.Comm.Wire

variable {ω : Type}
variable {call : AgentCall} {cuts : List Nat} {z : Bool}

/-! ### Texts -/

/-- A C string whose length fits into an `unsigned int`. -/
def IsText (s : String) : Prop := IsCString s ∧ TextFits s

instance (s : String) : Decidable (IsText s) :=
  inferInstanceAs (Decidable (IsCString s ∧ TextFits s))

theorem recvResult_whole {n : Nat} (hn : n < 2 ^ 32) {b : List UInt8} (hcut : cutAt 4 cuts = 4) :
    recvResult ⟨leBytes 4 n ++ b, cuts, z⟩ = (n, ⟨b, cuts.tail, z⟩) := by
  have hmod : n % 256 ^ 4 = n := Nat.mod_eq_of_lt hn
  have hzero : (leBytes 4 0).length ≤ 4 := Nat.le_of_eq (length_leBytes 4 0)
  simp only [recvResult, recvInto_whole (length_leBytes 4 n) hcut hzero, leNat_leBytes, hmod]

/-- A text at the end of a message. -/
theorem recvText_whole {s : String} (hs : IsText s) {old : List UInt8} (hold : old.length ≤ 4)
    (hcut : cutAt 4 cuts = 4) :
    ∃ cuts', recvText old ⟨sendText s, cuts, z⟩ = (some (textBytes s), ⟨[], cuts', z⟩) ∧
      cString (textBytes s) = some s := by
  have hlength : recvInto old 4 ⟨sendText s ++ [], cuts, z⟩ = _ := recvInto_length hs.2 hold hcut
  have hmsg : recvMsg (textBytes s).length ⟨textBytes s ++ [], cuts.tail, z⟩ = _ :=
    recvLoop_eq (Nat.le_refl _)
  rw [List.append_nil] at hlength
  have htext : recvText old ⟨sendText s, cuts, z⟩ = recvMsg (textBytes s).length
      ⟨textBytes s ++ [], cuts.tail, z⟩ := by
    simp only [recvText, hlength, leNat_length hs.2]
  exact ⟨_, htext.trans hmsg, cString_textBytes hs.1⟩

/-- The reads of a type of message and a text. -/
def textReads (s : String) : List Read := [.once 4, .once 4, .loop (textBytes s).length]

/-! ### Calls -/

/-- The request that a call stands for. -/
def requestOf : AgentCall → Request
  | .getSrvCpblts => .getCpblts
  | .sessionInfoSend username sid cpblts pid =>
    .setSession (some (⟨sid, username, cpblts.items⟩, UInt16.ofNat pid))
  | .operation rpc => .genericop (some rpc)
  | .close => .closeSession
  | .killSession sid => .killSession (some sid)

/-- The arguments of a call are texts, and the iterator of the capabilities
stands at the start. -/
def CallFits : AgentCall → Prop
  | .getSrvCpblts => True
  | .sessionInfoSend username sid cpblts _ =>
    HandOverFits username sid cpblts ∧ IsCString username ∧ IsCString sid ∧
      (∀ c ∈ cpblts.items, IsCString c) ∧ cpblts.iter = 0
  | .operation rpc => IsText rpc
  | .close => True
  | .killSession sid => IsText sid

/-- The reads of the server, for what a call sends. -/
def callReads : AgentCall → List Read
  | .getSrvCpblts => [.once 4]
  | .sessionInfoSend username sid cpblts _ => handOverReads username sid cpblts.items
  | .operation rpc => textReads rpc
  | .close => [.once 4]
  | .killSession sid => textReads sid

/-- The session that is handed over is read back. The pid wraps around. -/
theorem recvSession_eq {username sid : String} {cpblts : Cpblts} (pid : Nat) (mem : Memory)
    (h : CallFits (.sessionInfoSend username sid cpblts pid))
    (hwhole : WholeReads (handOverReads username sid cpblts.items).tail cuts) :
    ∃ cuts', recvSession mem ⟨sendText sid ++ (leBytes 2 (pid % 2 ^ 16) ++ (sendText username ++
        (leBytes 4 (cpblts.items.length % 2 ^ 32) ++ (cpblts.items.map sendText).flatten))),
        cuts, z⟩ =
      (.session (⟨sid, username, cpblts.items⟩, UInt16.ofNat pid), ⟨[], cuts', z⟩) := by
  obtain ⟨hfits, huser, hsid, hitems, -⟩ := h
  obtain ⟨cuts', hrest, hsession⟩ := recvSession_fields pid mem
    (b := (cpblts.items.map sendText).flatten) (z := z) hfits hwhole
  obtain ⟨cuts'', hall⟩ := recvCpblts_all (z := z) hfits.items
    (Nat.le_of_eq (length_leBytes 4 (textBytes username).length)) hrest
  have hpid : UInt16.ofNat (leNat (leBytes 2 (pid % 2 ^ 16))) = UInt16.ofNat pid := by
    rw [leNat_leBytes]
    apply UInt16.toNat_inj.mp
    simp
  refine ⟨cuts'', ?_⟩
  rw [hsession, hall]
  simp only [sessionAfter, sessionOf, cString_textBytes hsid, cString_textBytes huser,
    mapM_cString hitems, hpid]

theorem sendCall_ne (call : AgentCall) : sendCall call ≠ [] := by
  cases call <;> simp [sendCall, commSessionInfoSend, leBytes]

/-- The type of a message is read as it was sent. -/
theorem recvOp_whole {n : Nat} (hn : n < 2 ^ 32) (mem : Memory) {b : List UInt8}
    (hcut : cutAt 4 cuts = 4) :
    (recvInto mem.op 4 ⟨leBytes 4 n ++ b, cuts, z⟩).2 = ⟨b, cuts.tail, z⟩ ∧
      leNat (recvInto mem.op 4 ⟨leBytes 4 n ++ b, cuts, z⟩).1 = n := by
  rw [recvInto_whole (length_leBytes 4 n) hcut (Nat.le_of_eq mem.op_length)]
  exact ⟨rfl, by rw [leNat_leBytes]; exact Nat.mod_eq_of_lt hn⟩

/-- What the server has of a request: not the dump of an RPC when the agent is
not known. -/
def requestFor (known : Bool) : AgentCall → Request
  | .operation rpc => if known then .genericop (some rpc) else .genericop (some "")
  | call => requestOf call

/-- The server reads the request that a call stands for and nothing else, and no
read waits for more. -/
theorem recvRequest_send (h : CallFits call) (mem : Memory)
    (hwhole : WholeReads (callReads call) cuts) (known : Bool) :
    ∃ cuts', recvRequest mem known ⟨sendCall call, cuts, z⟩ =
      (.request (requestFor known call), ⟨[], cuts', z⟩) := by
  cases call with
  | getSrvCpblts =>
    obtain ⟨hrest, hop⟩ :=
      recvOp_whole (n := commSockGetCpblts) (by decide) mem (b := []) (z := z) hwhole.1
    rw [List.append_nil] at hrest hop
    refine ⟨cuts.tail, ?_⟩
    simp only [recvRequest, sendCall, hop, hrest]
    rfl
  | sessionInfoSend username sid cpblts pid =>
    obtain ⟨hcut, hfields⟩ := hwhole
    obtain ⟨hrest, hop⟩ := recvOp_whole (n := commSockSetSession) (by decide) mem
      (b := sendText sid ++ (leBytes 2 (pid % 2 ^ 16) ++ (sendText username ++
        (leBytes 4 (cpblts.items.length % 2 ^ 32) ++ (cpblts.items.map sendText).flatten))))
      (z := z) hcut
    obtain ⟨cuts', hsession⟩ := recvSession_eq pid mem (z := z) h hfields
    refine ⟨cuts', ?_⟩
    simp only [recvRequest, sendCall, commSessionInfoSend, h.2.2.2.2, List.drop_zero, hop, hrest,
      hsession]
    rfl
  | operation rpc =>
    obtain ⟨hcut, hcut', -⟩ := hwhole
    obtain ⟨hrest, hop⟩ := recvOp_whole (n := commSockGenericop) (by decide) mem
      (b := sendText rpc) (z := z) hcut
    obtain ⟨cuts', htext, hstring⟩ := recvText_whole (z := z) h (Nat.le_of_eq mem.len_length)
      hcut'
    refine ⟨cuts', ?_⟩
    simp only [recvRequest, sendCall, hop, hrest, htext, textMessage, hstring]
    cases known <;> rfl
  | close =>
    obtain ⟨hrest, hop⟩ := recvOp_whole (n := commSockCloseSession) (by decide) mem (b := [])
      (z := z) hwhole.1
    rw [List.append_nil] at hrest hop
    refine ⟨cuts.tail, ?_⟩
    simp only [recvRequest, sendCall, hop, hrest]
    rfl
  | killSession sid =>
    obtain ⟨hcut, hcut', -⟩ := hwhole
    obtain ⟨hrest, hop⟩ := recvOp_whole (n := commSockKillSession) (by decide) mem
      (b := sendText sid) (z := z) hcut
    obtain ⟨cuts', htext, hstring⟩ := recvText_whole (z := z) h
      (Nat.le_of_eq (length_leBytes 4 0)) hcut'
    refine ⟨cuts', ?_⟩
    simp only [recvRequest, sendCall, hop, hrest, htext, textMessage, hstring]
    rfl

/-- The dump of an RPC plays no role when the agent is not known. -/
theorem handleRequest_requestFor (L : Netconf ω) (socket conn : Nat) (call : AgentCall)
    (st : Records ω) :
    handleRequest L socket conn
        (requestFor (srvGetAgentByAgentid (agentId socket) st.agents).isSome call) st =
      handleRequest L socket conn (requestOf call) st := by
  cases call with
  | operation rpc =>
    rw [requestFor]
    cases hrecord : srvGetAgentByAgentid (agentId socket) st.agents with
    | none => simp [requestOf, handleRequest, processOperation, hrecord]
    | some i => rfl
  | _ => rfl

/-- The server answers a call as its handlers do, consumes exactly what was sent,
and does not wait for more. -/
theorem serveMessage_send (L : Netconf ω) (socket conn : Nat) (mem : Memory) (h : CallFits call)
    (hwhole : WholeReads (callReads call) cuts) (st : Records ω) :
    ∃ cuts', serveMessage L socket conn mem ⟨sendCall call, cuts, z⟩ st =
      (some ((sendAnswer L (handleRequest L socket conn (requestOf call) st).1,
          decide (requestOf call = .closeSession)),
        (handleRequest L socket conn (requestOf call) st).2), ⟨[], cuts', z⟩) := by
  obtain ⟨cuts', hreq⟩ := recvRequest_send h mem (z := z) hwhole
    (srvGetAgentByAgentid (agentId socket) st.agents).isSome
  refine ⟨cuts', ?_⟩
  have hclose : decide (requestFor (srvGetAgentByAgentid (agentId socket) st.agents).isSome call =
      .closeSession) = decide (requestOf call = .closeSession) := by
    cases call with
    | operation rpc => cases (srvGetAgentByAgentid (agentId socket) st.agents).isSome <;> rfl
    | _ => rfl
  simp only [serveMessage, if_neg (sendCall_ne call), hreq, handleRequest_requestFor, hclose]

/-! ### Replies -/

/-- What libnetconf returns are texts, and the capabilities can be counted. -/
structure LibraryFits (L : Netconf ω) : Prop where
  cpblts : ∀ c ∈ L.cpblts, IsText c
  count : L.cpblts.length < 2 ^ 31 - 1
  dump : ∀ session rpc w d, (L.applyRpc2all session rpc w).1 = .reply d → IsText d
  error : ∀ msg, IsText (L.errorDump msg)

/-- What a call should return for a reply of the server. -/
def resultOf (L : Netconf ω) : AgentCall → Option Socket.Reply → CallResult
  | .getSrvCpblts, _ => .cpblts (some L.cpblts)
  | .sessionInfoSend _ _ _ _, reply => .status (reply = some .sessionSet)
  | .close, reply => .status (reply = some .sessionClosed)
  | .operation _, some (.genericop dump) => .reply (.built dump)
  | .killSession _, some .sessionKilled => .reply .ok
  | .killSession _, some (.resultError msg) => .reply (.error msg)
  | _, _ => .reply (.error none)

/-- The reads of the agent, for what the server sends back. -/
def replyReads (L : Netconf ω) : Option Socket.Reply → List Read
  | none => []
  | some .cpblts => .once 4 :: .once 4 :: cpbltReads L.cpblts
  | some (.resultError (some msg)) => textReads msg
  | some (.genericop dump) => textReads dump
  | some _ => [.once 4]

theorem operationDump_text {L : Netconf ω} (hL : LibraryFits L) (op : Operation) (w : ω) :
    IsText (operationDump L op w).1 := by
  cases op with
  | rejected msg => exact hL.error _
  | executed agent dump =>
    cases happly : (L.applyRpc2all agent.session dump w).1 with
    | null => simpa [operationDump, srvProcessRpc, happly] using hL.error _
    | notApplicable => simpa [operationDump, srvProcessRpc, happly] using hL.error _
    | reply d => simpa [operationDump, srvProcessRpc, happly] using hL.dump _ _ _ d happly

/-- The replies to a kill. -/
theorem killSession_reply (socket : Nat) (sid : String) (agents : Agents) :
    (killSession socket (some sid) agents).reply = .sessionKilled ∨
      ∃ msg, IsText msg ∧ (killSession socket (some sid) agents).reply =
        .resultError (some msg) := by
  rw [killSession, killSessionBy]
  split
  · exact .inr ⟨_, by decide, rfl⟩
  · split
    · exact .inr ⟨_, by decide, rfl⟩
    · split
      · exact .inr ⟨_, by decide, rfl⟩
      · exact .inl rfl

/-- The agent reads back what the server sends, and consumes exactly that. It asks
for more only when there is no reply, and then the server hangs up. -/
theorem recvCall_reply {L : Netconf ω} (hL : LibraryFits L) (socket conn : Nat) (mem : Memory)
    (call : AgentCall) (st : Records ω)
    (hwhole : WholeReads (replyReads L (handleRequest L socket conn (requestOf call) st).1) cuts) :
    ∃ cuts', recvCall mem call
        ⟨sendAnswer L (handleRequest L socket conn (requestOf call) st).1, cuts, false⟩ =
      (resultOf L call (handleRequest L socket conn (requestOf call) st).1,
        ⟨[], cuts', (handleRequest L socket conn (requestOf call) st).1.isNone⟩) := by
  have hlast : ∀ {n : Nat} {cuts : List Nat}, n < 2 ^ 32 → cutAt 4 cuts = 4 →
      recvResult ⟨leBytes 4 n, cuts, false⟩ = (n, ⟨[], cuts.tail, false⟩) := by
    intro n cuts hn hcut
    have h := recvResult_whole hn (b := []) (z := false) hcut
    rwa [List.append_nil] at h
  cases call with
  | getSrvCpblts =>
    obtain ⟨hcut, hcut', hrest⟩ := hwhole
    have hcount : leNat (leBytes 4 (L.cpblts.length % 2 ^ 32)) = L.cpblts.length := by
      have hlt := hL.count
      rw [leNat_leBytes, Nat.mod_eq_of_lt, Nat.mod_eq_of_lt] <;> omega
    obtain ⟨cuts', hall⟩ := recvCpblts_all (z := false) (fun c hc => (hL.cpblts c hc).2)
      (Nat.le_of_eq mem.len_length) hrest
    refine ⟨cuts', ?_⟩
    simp only [recvCall, commGetSrvCpblts, handleRequest, requestOf, sendAnswer, Option.elim,
      sendReply, recvResult_whole (show commSockGetCpblts < 2 ^ 32 by decide) hcut, ne_eq,
      not_true_eq_false, if_false,
      recvInto_whole (length_leBytes 4 _) hcut' (Nat.le_of_eq mem.count_length), hcount,
      if_neg (Nat.not_le.mpr hL.count), hall, mapM_cString fun c hc => (hL.cpblts c hc).1]
    rfl
  | sessionInfoSend username sid cpblts pid =>
    refine ⟨cuts.tail, ?_⟩
    have h := hlast (show commSockSetSession < 2 ^ 32 by decide) hwhole.1
    simp only [recvCall, commStatus, handleRequest, requestOf, setSession, sendAnswer,
      Option.elim, sendReply, h]
    rfl
  | operation rpc =>
    obtain ⟨hcut, hcut', -⟩ := hwhole
    have hold : (sentLength rpc).length ≤ 4 := Nat.le_of_eq (length_leBytes 4 _)
    obtain ⟨cuts', htext, hstring⟩ := recvText_whole (z := false) (operationDump_text hL
      (processOperation socket (some rpc) st.agents) st.world) hold hcut'
    refine ⟨cuts', ?_⟩
    simp only [recvCall, commOperation, handleRequest, requestOf, sendAnswer, Option.elim,
      sendReply, recvResult_whole (show commSockGenericop < 2 ^ 32 by decide) hcut, ne_eq,
      not_true_eq_false, if_false, htext, hstring]
    rfl
  | close =>
    rw [requestOf, handleRequest] at hwhole ⊢
    cases hrecord : srvGetAgentByAgentid (agentId socket) st.agents with
    | none =>
      -- the server hangs up, and the variable keeps its zero
      refine ⟨cuts.tail, ?_⟩
      simp [recvCall, commStatus, closeSession, hrecord, sendAnswer, recvResult, recvInto,
        recv_nil, leNat_leBytes, commSockCloseSession, resultOf]
    | some i =>
      rw [closeSession, hrecord] at hwhole
      have h := hlast (show commSockCloseSession < 2 ^ 32 by decide) hwhole.1
      refine ⟨cuts.tail, ?_⟩
      simp only [recvCall, commStatus, closeSession, hrecord, sendAnswer, Option.elim,
        sendReply, h]
      rfl
  | killSession sid =>
    rw [requestOf, handleRequest] at hwhole ⊢
    dsimp only at hwhole ⊢
    rcases killSession_reply socket sid st.agents with hreply | ⟨msg, hmsg, hreply⟩
    · rw [hreply] at hwhole ⊢
      have h := hlast (show commSockKillSession < 2 ^ 32 by decide) hwhole.1
      refine ⟨cuts.tail, ?_⟩
      simp only [recvCall, commKillSession, sendAnswer, Option.elim, sendReply, h]
      rfl
    · rw [hreply] at hwhole ⊢
      obtain ⟨hcut, hcut', -⟩ := hwhole
      have hold : (sentLength sid).length ≤ 4 := Nat.le_of_eq (length_leBytes 4 _)
      obtain ⟨cuts', htext, hstring⟩ := recvText_whole (z := false) hmsg hold hcut'
      refine ⟨cuts', ?_⟩
      simp only [recvCall, commKillSession, sendAnswer, Option.elim, sendReply,
        recvResult_whole (show commSockResultError < 2 ^ 32 by decide) hcut, if_true, htext,
        hstring]
      rfl

/-! ### The system -/

/-- The two ends of the socket. The descriptor of a connection is the same all
the time; what memory holds and how the bytes are cut is new for every
message. An end waits for more if one of its calls of recv finds nothing. -/
def socketProtocol (L : Netconf ω) (fd : Nat → Nat) :
    Rpc.Protocol Nat AgentCall CallResult (Records ω) UInt8 (Memory × List Nat) where
  send := sendCall
  serve c w bs st :=
    let r := serveMessage L (fd c) c w.1 ⟨bs, w.2, false⟩ st
    (r.1, r.2.bytes)
  receive call w bs :=
    let r := recvCall w.1 call ⟨bs, w.2, false⟩
    (r.1, r.2.bytes)
  serveWaits c w bs st := (serveMessage L (fd c) c w.1 ⟨bs, w.2, false⟩ st).2.starved
  receiveWaits call w bs := (recvCall w.1 call ⟨bs, w.2, false⟩).2.starved

/-- The handlers of the server, on decoded requests. -/
def socketHandler (L : Netconf ω) (fd : Nat → Nat) :
    Rpc.Handler Nat AgentCall CallResult (Records ω) UInt8 (Option Socket.Reply) where
  handle c call st := handleRequest L (fd c) c (requestOf call) st
  reply := sendAnswer L
  hangsUp call := decide (requestOf call = .closeSession)
  view := resultOf L

/-- The arguments of calls are texts, and no single call of recv is cut
short. -/
def socketChannel (L : Netconf ω) : Rpc.Channel AgentCall UInt8 (Memory × List Nat) where
  Valid := CallFits
  Arrives call w := WholeReads (callReads call) w.2
  Returns _ bs w := ∀ reply, sendAnswer L reply = bs → WholeReads (replyReads L reply) w.2

theorem sendReply_ne (L : Netconf ω) (reply : Socket.Reply) : sendReply L reply ≠ [] := by
  cases reply with
  | resultError msg => cases msg <;> simp [sendReply, leBytes]
  | _ => simp [sendReply, leBytes]

/-- Only a connection that is to be closed may stay without a reply. -/
theorem handleRequest_reply (L : Netconf ω) (socket conn : Nat) {req : Request}
    (hreq : req ≠ .closeSession) (st : Records ω) :
    ∃ reply, (handleRequest L socket conn req st).1 = some reply := by
  cases req with
  | closeSession => exact absurd rfl hreq
  | _ => exact ⟨_, rfl⟩

variable {L : Netconf ω}

/-- The bytes of the socket carry the requests and the replies. -/
theorem socket_carries (hL : LibraryFits L) (fd : Nat → Nat) :
    Rpc.Carries (socketProtocol L fd) (socketHandler L fd) (socketChannel L) where
  send_ne := sendCall_ne
  serve_send := by
    intro c w call st hcall hwhole
    obtain ⟨cuts', hserve⟩ := serveMessage_send L (fd c) c w.1 (z := false) hcall hwhole st
    simp only [socketProtocol, socketHandler, hserve]
  serve_ready := by
    intro c w call st hcall hwhole
    obtain ⟨cuts', hserve⟩ := serveMessage_send L (fd c) c w.1 (z := false) hcall hwhole st
    simp only [socketProtocol, hserve]
  receive_reply := by
    intro c w call st _ hwhole
    obtain ⟨cuts', hrecv⟩ := recvCall_reply hL (fd c) c w.1 call st (hwhole _ rfl)
    simp only [socketProtocol, socketHandler, hrecv]
  receive_ready := by
    intro c w call st _ hwhole
    obtain ⟨cuts', hrecv⟩ := recvCall_reply hL (fd c) c w.1 call st (hwhole _ rfl)
    by_cases hclose : requestOf call = .closeSession
    · exact .inr (decide_eq_true hclose)
    · obtain ⟨reply, hreply⟩ := handleRequest_reply L (fd c) c hclose st
      rw [hreply] at hrecv
      refine .inl ?_
      simp only [socketProtocol, socketHandler, hreply, hrecv]
      rfl
  reply_ne := by
    intro c call st _
    by_cases hclose : requestOf call = .closeSession
    · exact .inr (decide_eq_true hclose)
    · obtain ⟨reply, hreply⟩ := handleRequest_reply L (fd c) c hclose st
      refine .inl ?_
      simp only [socketHandler, hreply]
      exact sendReply_ne L reply

variable {fd : Nat → Nat} {st₀ : Records ω} {n : Rpc.Net Nat AgentCall CallResult (Records ω) UInt8}

/-- Whatever the order in which agents send and the server reads, the server has
executed the requests one after the other, and every agent has got the results
of its own calls, each one once and in order. An agent that does not wait has
got all of them, and nothing is left on its connection. -/
theorem socket_linearizable (hL : LibraryFits L)
    (h : Rpc.Net.Run (socketProtocol L fd) (socketChannel L) (Rpc.Net.start st₀) n) :
    n.crashed = false ∧ ∃ hist, Rpc.Executes (socketHandler L fd) st₀ hist n.srv ∧
      ∀ c, n.got c <+: Rpc.seen (socketHandler L fd) hist c ∧
        (n.waiting c = none → n.got c = Rpc.seen (socketHandler L fd) hist c ∧
          n.up c = [] ∧ n.down c = []) := by
  obtain ⟨hist, hlinear⟩ := Rpc.Net.run_linear (socket_carries hL fd) h
  exact ⟨hlinear.alive, hist, hlinear.executes, hlinear.got_prefix⟩

theorem cutsAfter_nil (fuel n : Nat) : cutsAfter fuel n [] = [] := by
  induction fuel generalizing n with
  | zero => cases n <;> rfl
  | succ fuel ih =>
    cases n with
    | zero => rfl
    | succ n => exact ih _

/-- Nothing may be cut. -/
theorem wholeReads_nil (rs : List Read) : WholeReads rs [] := by
  induction rs with
  | nil => trivial
  | cons r rs ih =>
    cases r with
    | once n => exact ⟨by simp only [cutAt, List.headD_nil]; omega, ih⟩
    | loop n =>
      rw [WholeReads, cutsAfter_nil]
      exact ih

/-- In any state that can be reached the server is not blocked in a read, and an
agent that waits can be answered: neither end asks for more bytes than the other
one has sent. -/
theorem socket_answers (hL : LibraryFits L)
    (h : Rpc.Net.Run (socketProtocol L fd) (socketChannel L) (Rpc.Net.start st₀) n) :
    n.blocked = none ∧ ∀ c call, n.waiting c = some call →
      ∃ n', Rpc.Net.Run (socketProtocol L fd) (socketChannel L) n n' ∧ n'.waiting c = none := by
  obtain ⟨hist, hlinear⟩ := Rpc.Net.run_linear (socket_carries hL fd) h
  refine ⟨hlinear.free, fun c call hw => ?_⟩
  exact hlinear.answer (socket_carries hL fd) hw
    (fun call => ⟨(zeroMemory, []), wholeReads_nil _⟩)
    (fun _ _ => ⟨(zeroMemory, []), fun _ _ => wholeReads_nil _⟩)

/-- If the iterator does not stand at the start, the hand-over announces more
capabilities than it has, and the server waits for the others. -/
theorem socket_blocks {username sid : String} {cpblts : Cpblts} (pid c : Nat) (mem : Memory)
    (st : Records ω) (hfits : HandOverFits username sid cpblts) (hiter : 0 < cpblts.iter)
    (hle : cpblts.iter ≤ cpblts.items.length)
    (hwhole : WholeReads (handOverReads username sid (cpblts.items.drop cpblts.iter)) cuts) :
    (socketProtocol L fd).serveWaits c (mem, cuts)
      (sendCall (.sessionInfoSend username sid cpblts pid)) st = true := by
  obtain ⟨hcut, hfields⟩ := hwhole
  obtain ⟨cuts', hrest, hsession⟩ := recvSession_fields pid mem
    (b := ((cpblts.items.drop cpblts.iter).map sendText).flatten) (z := false) hfits hfields
  obtain ⟨hnone, hstarved⟩ := recvCpblts_fewer
    (fun x hx => hfits.items x (List.mem_of_mem_drop hx))
    (length_leBytes 4 (textBytes username).length)
    (by rw [leNat_length hfits.username]; simp [textBytes]) false hrest (cpblts.iter - 1)
  have hcount : (cpblts.items.drop cpblts.iter).length + (cpblts.iter - 1 + 1) =
      cpblts.items.length := by
    rw [List.length_drop]
    omega
  rw [hcount] at hnone hstarved
  obtain ⟨hop, htype⟩ := recvOp_whole (n := commSockSetSession) (by decide) mem
    (b := sendText sid ++ (leBytes 2 (pid % 2 ^ 16) ++ (sendText username ++
      (leBytes 4 (cpblts.items.length % 2 ^ 32) ++
        ((cpblts.items.drop cpblts.iter).map sendText).flatten)))) (z := false) hcut
  have hne := sendCall_ne (.sessionInfoSend username sid cpblts pid)
  simp only [sendCall, commSessionInfoSend] at hne ⊢
  simp only [socketProtocol, serveMessage, if_neg hne, recvRequest, htype, hop, hsession,
    sessionAfter, hnone]
  exact hstarved

/-! ### Two agents -/

/-- A library with one capability, and the same reply to everything. -/
def oneReply : Netconf Unit where
  cpblts := ["urn:base"]
  applyRpc2all _ _ w := (.reply "<ok/>", w)
  errorDump _ := "<rpc-error/>"

theorem oneReply_fits : LibraryFits oneReply where
  cpblts := by decide
  count := by decide
  dump := by
    rintro session rpc w d h
    obtain rfl : "<ok/>" = d := by simpa [oneReply] using h
    decide
  error msg := show IsText "<rpc-error/>" by decide

/-- A system of agents and the library `oneReply`. -/
abbrev AgentNet := Rpc.Net Nat AgentCall CallResult (Records Unit) UInt8

/-- A run of agents with the library `oneReply`; agent `c` has descriptor
`c + 4`. -/
abbrev AgentRun (n n' : AgentNet) : Prop :=
  Rpc.Net.Run (socketProtocol oneReply (· + 4)) (socketChannel oneReply) n n'

/-- Agent `c` has sent a request. -/
def asked (c : Nat) (call : AgentCall) (n : AgentNet) : AgentNet :=
  { n with up := Function.update n.up c (n.up c ++ sendCall call),
           waiting := Function.update n.waiting c (some call) }

/-- The server has taken a message of agent `c`, all at once. -/
def servedOnce (c : Nat) (n : AgentNet) : AgentNet :=
  n.served c ((socketProtocol oneReply (· + 4)).serve c (zeroMemory, []) (n.up c) n.srv)

/-- Agent `c` has taken the reply, all at once. -/
def receivedOnce (c : Nat) (call : AgentCall) (n : AgentNet) : AgentNet :=
  let r := (socketProtocol oneReply (· + 4)).receive call (zeroMemory, []) (n.down c)
  { n with down := Function.update n.down c r.2,
           waiting := Function.update n.waiting c none,
           log := n.log ++ [(c, call, r.1)] }

theorem AgentRun.asked {n₀ n : AgentNet} (h : AgentRun n₀ n) (c : Nat) (call : AgentCall)
    (hidle : n.waiting c = none) (hopen : n.closed c = false) (hcall : CallFits call) :
    AgentRun n₀ (asked c call n) :=
  .step h (.ask hidle hopen hcall)

theorem AgentRun.servedOnce {n₀ n : AgentNet} (h : AgentRun n₀ n) (c : Nat) (hup : n.up c ≠ [])
    (hopen : n.closed c = false) (hfree : n.blocked = none)
    (hready : (socketProtocol oneReply (· + 4)).serveWaits c (zeroMemory, []) (n.up c) n.srv =
      false) : AgentRun n₀ (servedOnce c n) :=
  .step h (.serve hup hopen (fun _ _ => wholeReads_nil _) hfree hready)

theorem AgentRun.receivedOnce {n₀ n : AgentNet} (h : AgentRun n₀ n) (c : Nat)
    (hw : n.waiting c = some call) (hdown : n.down c ≠ [])
    (hready : (socketProtocol oneReply (· + 4)).receiveWaits call (zeroMemory, []) (n.down c) =
      false) :
    AgentRun n₀ (receivedOnce c call n) :=
  .step h (.receive hw (.inl hdown) (fun _ _ => wholeReads_nil _) (.inl hready))

/-- The hand-over of agent 0. -/
def aliceSession : AgentCall := .sessionInfoSend "alice" "1" oneCpblt 7

/-- Agent 0 has handed over its session. -/
def handedAgents : AgentNet :=
  receivedOnce 0 aliceSession (servedOnce 0 (asked 0 aliceSession (.start ⟨[], [], ()⟩)))

/-- Then agent 1 asks for the capabilities while agent 0 sends an RPC and gets the
reply. The server has taken the message of agent 1. -/
def crossedAgents : AgentNet :=
  receivedOnce 0 (.operation "<get/>") (servedOnce 1 (servedOnce 0
    (asked 0 (.operation "<get/>") (asked 1 .getSrvCpblts handedAgents))))

theorem aliceSession_fits : CallFits aliceSession := by
  refine ⟨⟨by decide, by decide, ?_, by decide⟩, by decide, by decide, by decide, rfl⟩
  intro c hc
  obtain rfl := List.mem_singleton.mp hc
  decide

theorem handedAgents_run : AgentRun (.start ⟨[], [], ()⟩) handedAgents :=
  have hasked := AgentRun.asked .start 0 aliceSession rfl rfl aliceSession_fits
  (hasked.servedOnce 0 (by decide) rfl rfl (by decide)).receivedOnce 0 rfl
    (by decide) (by decide)

theorem crossedAgents_run : AgentRun (.start ⟨[], [], ()⟩) crossedAgents := by
  have hasked := (handedAgents_run.asked 1 .getSrvCpblts rfl rfl trivial).asked 0
    (.operation "<get/>") rfl rfl (show IsText "<get/>" by decide)
  have hserved := hasked.servedOnce 0 (by decide) rfl rfl (by decide)
  have hserved' := hserved.servedOnce 1 (by decide) rfl rfl (by decide)
  exact hserved'.receivedOnce 0 rfl (by decide) (by decide)

/-- Agent 0 has got the results of its two calls, agent 1 waits for its reply. -/
theorem socket_linearizable_two :
    crossedAgents.got 0 = [(aliceSession, .status true),
        (.operation "<get/>", .reply (.built "<ok/>"))] ∧
      crossedAgents.crashed = false ∧
      ∃ hist, Rpc.Executes (socketHandler oneReply (· + 4)) ⟨[], [], ()⟩ hist crossedAgents.srv ∧
        ∀ c, crossedAgents.got c <+: Rpc.seen (socketHandler oneReply (· + 4)) hist c ∧
          (crossedAgents.waiting c = none →
            crossedAgents.got c = Rpc.seen (socketHandler oneReply (· + 4)) hist c ∧
              crossedAgents.up c = [] ∧ crossedAgents.down c = []) :=
  ⟨by decide, socket_linearizable oneReply_fits crossedAgents_run⟩

theorem socket_answers_two : crossedAgents.waiting 1 = some .getSrvCpblts ∧
    crossedAgents.blocked = none ∧ ∃ n, AgentRun crossedAgents n ∧ n.waiting 1 = none :=
  have hanswers := socket_answers oneReply_fits crossedAgents_run
  ⟨rfl, hanswers.1, hanswers.2 1 .getSrvCpblts rfl⟩

end OfConfig.Proofs
