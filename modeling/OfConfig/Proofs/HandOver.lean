import OfConfig.Comm.Wire

/-!
# `OfConfig.Proofs.HandOver`: the session hand-over is decoded

The server reads the fields of the message one after the other. The
length, the session id, the pid, the user name and the count are read by
one call each, the capabilities by a loop. `WholeReads` says that no single
call is cut short, for a list of cuts that is otherwise arbitrary.

`hand_over_iff`: the server then registers what the agent sent, and
consumes exactly that, if and only if the pid fits into 16 bits and the
iterator of the capabilities stands at the start.
-/

set_option autoImplicit false

namespace OfConfig.Proofs

open OfConfig.Lib OfConfig.Comm OfConfig.Comm.Socket OfConfig.Comm.Wire

variable {b : List UInt8} {cuts : List Nat} {s sid username : String} {sent : List String}
  {z : Bool}

/-! ### Fields -/

/-- How a field is read: by one call, or by a loop. -/
inductive Read where
  | once (n : Nat)
  | loop (n : Nat)

/-- No single call is cut short. -/
def WholeReads : List Read → List Nat → Prop
  | [], _ => True
  | .once n :: rs, cuts => cutAt n cuts = n ∧ WholeReads rs cuts.tail
  | .loop n :: rs, cuts => WholeReads rs (cutsAfter n n cuts)

/-- The bytes a string takes, with its zero. -/
def textBytes (s : String) : List UInt8 := charBytes s ++ [0]

/-- The length of a string fits into an `unsigned int`. -/
def TextFits (s : String) : Prop := (textBytes s).length < 2 ^ 32

instance (s : String) : Decidable (TextFits s) :=
  inferInstanceAs (Decidable ((textBytes s).length < 2 ^ 32))

theorem recvInto_whole {a old : List UInt8} {n : Nat} (hn : a.length = n) (hcut : cutAt n cuts = n)
    (hold : old.length ≤ n) : recvInto old n ⟨a ++ b, cuts, z⟩ = (a, ⟨b, cuts.tail, z⟩) := by
  subst hn
  rw [recvInto, recv_whole hcut]
  simp only [List.drop_eq_nil_of_le hold, List.append_nil]

theorem leNat_length (h : TextFits s) :
    leNat (leBytes 4 (textBytes s).length) = (textBytes s).length := by
  rw [leNat_leBytes]
  exact Nat.mod_eq_of_lt h

theorem sendText_eq (h : TextFits s) :
    sendText s = leBytes 4 (textBytes s).length ++ textBytes s := by
  have hlen : (textBytes s).length = (charBytes s).length + 1 := by simp [textBytes]
  rw [TextFits, hlen] at h
  rw [sendText, hlen, Nat.mod_eq_of_lt h, textBytes, List.take_of_length_le (by simp)]

/-- A string is read back from its bytes. -/
theorem cString_textBytes (h : IsCString s) : cString (textBytes s) = some s := by
  have hbyte : ∀ c ∈ s.toList, (UInt8.ofNat c.toNat).toNat = c.toNat := by
    intro c hc
    simpa using (h c hc).2
  have hne : ∀ b ∈ charBytes s, b ≠ 0 := by
    intro b hb hzero
    obtain ⟨c, hc, rfl⟩ := List.mem_map.mp hb
    have hnat := hbyte c hc
    rw [hzero] at hnat
    have hpos := (h c hc).1
    rw [← hnat] at hpos
    exact absurd hpos (by decide)
  have htake : (textBytes s).takeWhile (· ≠ 0) = charBytes s := by
    rw [textBytes, List.takeWhile_append_of_pos (by simpa using hne)]
    simp
  rw [cString, if_pos (by simp [textBytes]), htake, charBytes, List.map_map]
  have hid : s.toList.map ((fun b : UInt8 => Char.ofNat b.toNat) ∘ fun c => UInt8.ofNat c.toNat) =
      s.toList.map id := by
    refine List.map_congr_left ?_
    intro c hc
    simp only [Function.comp_apply, hbyte c hc, Char.ofNat_toNat, id_eq]
  rw [hid]
  simp

/-- The reads of a length and a string. -/
theorem recvInto_length (hfits : TextFits s) {old : List UInt8} (hold : old.length ≤ 4)
    (hcut : cutAt 4 cuts = 4) :
    recvInto old 4 ⟨sendText s ++ b, cuts, z⟩ =
      (leBytes 4 (textBytes s).length, ⟨textBytes s ++ b, cuts.tail, z⟩) := by
  rw [sendText_eq hfits, List.append_assoc]
  exact recvInto_whole (length_leBytes 4 _) hcut hold

/-! ### The capabilities -/

/-- The reads of the capabilities that were sent. -/
def cpbltReads (sent : List String) : List Read :=
  sent.flatMap (fun c => [.once 4, .loop (textBytes c).length])

/-- As many capabilities as were announced. -/
theorem recvCpblts_all (hfits : ∀ c ∈ sent, TextFits c) {len : List UInt8} (hlen : len.length ≤ 4)
    (hwhole : WholeReads (cpbltReads sent) cuts) :
    ∃ cuts', recvCpblts sent.length len ⟨(sent.map sendText).flatten, cuts, z⟩ =
      (some (sent.map textBytes), ⟨[], cuts', z⟩) := by
  induction sent generalizing len cuts with
  | nil => exact ⟨cuts, rfl⟩
  | cons c sent ih =>
    obtain ⟨hcut, hrest⟩ : cutAt 4 cuts = 4 ∧ WholeReads (cpbltReads sent)
        (cutsAfter (textBytes c).length (textBytes c).length cuts.tail) := by
      simpa [cpbltReads, WholeReads] using hwhole
    have hc := hfits c (by simp)
    obtain ⟨cuts', hih⟩ := ih (fun x hx => hfits x (by simp [hx]))
      (Nat.le_of_eq (length_leBytes 4 (textBytes c).length)) hrest
    refine ⟨cuts', ?_⟩
    simp only [List.map_cons, List.flatten_cons, List.length_cons, recvCpblts,
      recvInto_length hc hlen hcut, leNat_length hc, recvMsg, recvLoop_eq (Nat.le_refl _),
      List.nil_append, hih, Option.map_some]

/-- Fewer capabilities than were announced: the next one is waited for in vain,
and if the stream ends there nothing is decoded. -/
theorem recvCpblts_fewer (hfits : ∀ c ∈ sent, TextFits c) {len : List UInt8} (hlen : len.length = 4)
    (hpos : 0 < leNat len) (z : Bool) (hwhole : WholeReads (cpbltReads sent) cuts) (k : Nat) :
    let r := recvCpblts (sent.length + (k + 1)) len ⟨(sent.map sendText).flatten, cuts, z⟩
    r.1 = none ∧ r.2.starved = true := by
  induction sent generalizing len cuts with
  | nil =>
    obtain ⟨n, hn⟩ : ∃ n, leNat len = n + 1 := ⟨leNat len - 1, by omega⟩
    have hkeep : recvInto len 4 ⟨[], cuts, z⟩ = (len, ⟨[], cuts.tail, true⟩) := by
      simp [recvInto, recv_nil]
    have hnone : (recvMsg (n + 1) ⟨[], cuts.tail, true⟩).1 = none ∧
        (recvMsg (n + 1) ⟨[], cuts.tail, true⟩).2.starved = true :=
      recvLoop_nil _ n [] cuts.tail
    rw [List.length_nil, Nat.zero_add, List.map_nil, List.flatten_nil, recvCpblts]
    simp only [hkeep, hn, hnone.1, hnone.2, and_self]
  | cons c sent ih =>
    obtain ⟨hcut, hrest⟩ : cutAt 4 cuts = 4 ∧ WholeReads (cpbltReads sent)
        (cutsAfter (textBytes c).length (textBytes c).length cuts.tail) := by
      simpa [cpbltReads, WholeReads] using hwhole
    have hc := hfits c (by simp)
    have hih := ih (fun x hx => hfits x (by simp [hx])) (length_leBytes 4 (textBytes c).length)
      (by rw [leNat_length hc]; simp [textBytes]) hrest
    rw [List.length_cons, Nat.add_right_comm]
    generalize sent.length + (k + 1) = m at hih ⊢
    simp only [List.map_cons, List.flatten_cons, recvCpblts,
      recvInto_length hc (Nat.le_of_eq hlen) hcut, leNat_length hc, recvMsg,
      recvLoop_eq (Nat.le_refl _), hih.1, hih.2, Option.map_none, and_self]

/-! ### The message -/

/-- The reads of a hand-over, in their order. -/
def handOverReads (username sid : String) (sent : List String) : List Read :=
  .once 4 :: .once 4 :: .once (textBytes sid).length :: .once 2 :: .once 4 ::
    .once (textBytes username).length :: .once 4 :: cpbltReads sent

/-- All lengths fit into an `unsigned int`, and the count into an `int`
with room for one more. -/
structure HandOverFits (username sid : String) (cpblts : Cpblts) : Prop where
  sid : TextFits sid
  username : TextFits username
  items : ∀ c ∈ cpblts.items, TextFits c
  count : cpblts.items.length < 2 ^ 31 - 1

/-- The session after the fixed fields and the loop over the capabilities. -/
def sessionAfter (username sid : String) (pid : Nat) (r : Option (List (List UInt8)) × Stream) :
    Received × Stream :=
  match r.1 with
  | none => (.failed, r.2)
  | some l =>
    (sessionOf (textBytes sid) (textBytes username) (leBytes 2 (pid % 2 ^ 16)) l, r.2)

/-- The fixed fields are read as they were sent. What comes after them is up to the
loop over the capabilities. -/
theorem recvSession_fields {cpblts : Cpblts} (pid : Nat) (mem : Memory)
    (hfits : HandOverFits username sid cpblts)
    (hwhole : WholeReads (handOverReads username sid sent).tail cuts) :
    ∃ cuts', WholeReads (cpbltReads sent) cuts' ∧
      recvSession mem ⟨sendText sid ++ (leBytes 2 (pid % 2 ^ 16) ++ (sendText username ++
          (leBytes 4 (cpblts.items.length % 2 ^ 32) ++ b))), cuts, z⟩ =
        sessionAfter username sid pid
          (recvCpblts cpblts.items.length (leBytes 4 (textBytes username).length)
            ⟨b, cuts', z⟩) := by
  obtain ⟨h₂, h₃, h₄, h₅, h₆, h₇, hrest⟩ := hwhole
  refine ⟨_, hrest, ?_⟩
  have hcount : leNat (leBytes 4 (cpblts.items.length % 2 ^ 32)) = cpblts.items.length := by
    have hlt := hfits.count
    rw [leNat_leBytes, Nat.mod_eq_of_lt, Nat.mod_eq_of_lt] <;> omega
  simp only [recvSession, recvInto_length hfits.sid (Nat.le_of_eq mem.len_length) h₂,
    leNat_length hfits.sid, recvInto_whole rfl h₃ (Nat.le_of_eq (mem.sessionId_length _)),
    recvInto_whole (length_leBytes 2 _) h₄ (Nat.le_of_eq mem.pid_length),
    recvInto_length hfits.username (Nat.le_of_eq (length_leBytes 4 _)) h₅,
    leNat_length hfits.username,
    recvInto_whole rfl h₆ (Nat.le_of_eq (mem.username_length _)),
    recvInto_whole (length_leBytes 4 _) h₇ (Nat.le_of_eq mem.count_length), hcount,
    if_neg (Nat.not_le.mpr hfits.count)]
  rfl

/-- The reply and the records after that. -/
def afterSession (socket conn : Nat) (agents : Agents) :
    Received × Stream → Option (Socket.Reply × Agents) × Stream
  | (.session info, s) => (some (setSession socket conn (some info) agents), s)
  | (.failed, s) => (some (setSession socket conn none agents), s)
  | (.crash, s) => (none, s)

/-- A hand-over up to the capabilities. -/
theorem serveHandOver_eq {cpblts : Cpblts} (pid socket conn : Nat) (mem : Memory) (agents : Agents)
    (hfits : HandOverFits username sid cpblts)
    (hwhole : WholeReads (handOverReads username sid (cpblts.items.drop cpblts.iter)) cuts) :
    ∃ cuts', WholeReads (cpbltReads (cpblts.items.drop cpblts.iter)) cuts' ∧
      serveHandOver socket conn mem ⟨commSessionInfoSend username sid cpblts pid, cuts, z⟩ agents =
        afterSession socket conn agents (sessionAfter username sid pid
          (recvCpblts cpblts.items.length (leBytes 4 (textBytes username).length)
            ⟨((cpblts.items.drop cpblts.iter).map sendText).flatten, cuts', z⟩)) := by
  obtain ⟨hcut, hfields⟩ := hwhole
  obtain ⟨cuts', hrest, hsession⟩ := recvSession_fields pid mem
    (b := ((cpblts.items.drop cpblts.iter).map sendText).flatten) (z := z) hfits hfields
  have hop : leNat (leBytes 4 commSockSetSession) = commSockSetSession := by decide
  refine ⟨cuts', hrest, ?_⟩
  rw [serveHandOver, commSessionInfoSend]
  simp only [recvInto_whole (length_leBytes 4 _) hcut (Nat.le_of_eq mem.op_length), hop, if_true,
    hsession]
  generalize sessionAfter username sid pid _ = r
  obtain ⟨received, s⟩ := r
  cases received <;> rfl

theorem mapM_cString {items : List String} (h : ∀ c ∈ items, IsCString c) :
    (items.map textBytes).mapM cString = some items := by
  induction items with
  | nil => rfl
  | cons c items ih =>
    simp [cString_textBytes (h c (by simp)), ih (fun x hx => h x (by simp [hx]))]

/-- Everything the agent sent is in a new record, and nothing is left of
the message. -/
def HandedOver (socket conn : Nat) (agents : Agents) (username sid : String) (items : List String)
    (pid : Nat) (r : Option (Socket.Reply × Agents) × Stream) : Prop :=
  r.1 = some (.sessionSet, agents ++ [⟨agentId socket, pid, ⟨sid, username, items⟩, conn⟩]) ∧
    r.2.bytes = []

/-- Without all capabilities the hand-over is refused. -/
theorem afterSession_none (pid socket conn : Nat) (agents : Agents)
    {r : Option (List (List UInt8)) × Stream} (h : r.1 = none) :
    (afterSession socket conn agents (sessionAfter username sid pid r)).1 =
      some (.resultError none, agents) := by
  simp only [sessionAfter, h]
  rfl

/-- With all capabilities only the pid can be wrong. -/
theorem afterSession_all {items : List String} (pid socket conn : Nat) (agents : Agents)
    (cuts : List Nat) (z : Bool) (hsid : IsCString sid) (huser : IsCString username)
    (hitems : ∀ c ∈ items, IsCString c) :
    HandedOver socket conn agents username sid items pid
      (afterSession socket conn agents
        (sessionAfter username sid pid (some (items.map textBytes), ⟨[], cuts, z⟩))) ↔
      pid < 2 ^ 16 := by
  have hpid : (UInt16.ofNat (leNat (leBytes 2 (pid % 2 ^ 16)))).toNat = pid % 2 ^ 16 := by
    simp [leNat_leBytes]
  simp only [afterSession, sessionAfter, sessionOf, cString_textBytes hsid,
    cString_textBytes huser, mapM_cString hitems, HandedOver, setSession, srvAgentNew, hpid,
    Option.some.injEq, Prod.mk.injEq, true_and, and_true, List.append_cancel_left_eq,
    List.cons.injEq, AgentInfo.mk.injEq]
  omega

/-- The server registers what the agent sent, and consumes exactly the
bytes sent, if and only if the pid fits into 16 bits and the iterator of
the capabilities stands at the start. -/
theorem hand_over_iff (username sid : String) (cpblts : Cpblts) (pid socket conn : Nat)
    (mem : Memory) (cuts : List Nat) (agents : Agents) (hsid : IsCString sid)
    (huser : IsCString username) (hitems : ∀ c ∈ cpblts.items, IsCString c)
    (hiter : cpblts.iter ≤ cpblts.items.length) (hfits : HandOverFits username sid cpblts)
    (hwhole : WholeReads (handOverReads username sid (cpblts.items.drop cpblts.iter)) cuts) :
    HandedOver socket conn agents username sid cpblts.items pid
      (serveHandOver socket conn mem ⟨commSessionInfoSend username sid cpblts pid, cuts, false⟩
        agents) ↔
        pid < 2 ^ 16 ∧ cpblts.iter = 0 := by
  obtain ⟨cuts', hwhole', heq⟩ := serveHandOver_eq pid socket conn mem agents hfits hwhole
  rw [heq]
  have hsent : ∀ c ∈ cpblts.items.drop cpblts.iter, TextFits c :=
    fun c hc => hfits.items c (List.mem_of_mem_drop hc)
  by_cases hstart : cpblts.iter = 0
  · rw [hstart, List.drop_zero] at hwhole' ⊢
    obtain ⟨cuts'', hall⟩ := recvCpblts_all hfits.items
      (Nat.le_of_eq (length_leBytes 4 (textBytes username).length)) hwhole'
    rw [hall, afterSession_all pid socket conn agents cuts'' false hsid huser hitems]
    simp
  · -- the server waits for the capabilities before the iterator
    have hnone := recvCpblts_fewer hsent (length_leBytes 4 (textBytes username).length)
      (by rw [leNat_length hfits.username]; simp [textBytes]) false hwhole' (cpblts.iter - 1)
    have hcount : (cpblts.items.drop cpblts.iter).length + (cpblts.iter - 1 + 1) =
        cpblts.items.length := by
      rw [List.length_drop]
      omega
    rw [hcount] at hnone
    refine iff_of_false ?_ (fun h => hstart h.2)
    rintro ⟨hreply, -⟩
    rw [afterSession_none pid socket conn agents hnone.1] at hreply
    simp at hreply

/-- Memory that holds zeros. -/
def zeroMemory : Memory where
  op := List.replicate 4 0
  len := List.replicate 4 0
  pid := List.replicate 2 0
  count := List.replicate 4 0
  sessionId n := List.replicate n 0
  username n := List.replicate n 0
  op_length := rfl
  len_length := rfl
  pid_length := rfl
  count_length := rfl
  sessionId_length _ := List.length_replicate
  username_length _ := List.length_replicate

/-- One capability, with its iterator at the start. -/
def oneCpblt : Cpblts := ⟨["urn:base"], 0⟩

/-- A hand-over whose capability arrives in pieces of one byte. -/
theorem hand_over_one_cpblt :
    HandedOver 4 0 [] "root" "1" oneCpblt.items 100
      (serveHandOver 4 0 zeroMemory ⟨commSessionInfoSend "root" "1" oneCpblt 100,
        [4, 4, 2, 2, 4, 5, 4, 4, 1, 1, 1, 1, 1, 1, 1, 1, 1], false⟩ []) := by
  refine (hand_over_iff "root" "1" oneCpblt 100 4 0 zeroMemory _ [] (by decide) (by decide)
    (by decide) (by decide) ⟨by decide, by decide, ?_, by decide⟩ ?_).mpr ⟨by decide, rfl⟩
  · intro c hc
    obtain rfl := List.mem_singleton.mp hc
    decide
  · refine ⟨by decide, by decide, by decide, by decide, by decide, by decide, by decide,
      by decide, trivial⟩

/-- A process id above 65535 arrives as another one, although nothing is
cut. -/
theorem hand_over_wrong_pid :
    (serveHandOver 4 0 zeroMemory ⟨commSessionInfoSend "root" "1" oneCpblt 70000, [], false⟩ []).1 =
      some (.sessionSet, [⟨"4", 4464, ⟨"1", "root", ["urn:base"]⟩, 0⟩]) ∧
    ¬ HandedOver 4 0 [] "root" "1" oneCpblt.items 70000
      (serveHandOver 4 0 zeroMemory
        ⟨commSessionInfoSend "root" "1" oneCpblt 70000, [], false⟩ []) := by
  have hresult : (serveHandOver 4 0 zeroMemory
      ⟨commSessionInfoSend "root" "1" oneCpblt 70000, [], false⟩ []).1 =
        some (.sessionSet, [⟨"4", 4464, ⟨"1", "root", ["urn:base"]⟩, 0⟩]) := by decide
  refine ⟨hresult, ?_⟩
  rintro ⟨hreply, -⟩
  rw [hresult] at hreply
  simp at hreply

end OfConfig.Proofs
