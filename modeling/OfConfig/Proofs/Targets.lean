import OfConfig.Ovs.Backend
import OfConfig.Yang

/-!
# `OfConfig.Proofs.Targets`: the address of a controller

A controller's protocol, address and port are one string of the database,
`target`. `txn_add_contr` puts it together, `parse_target_to_addr` takes it
apart, and `txn_mod_contr_target` changes a part of it.

* `contr_target_round_trip_iff`: what `txn_add_contr` built is read back if
  and only if the address is an IPv4 address. An IPv6 address is written
  without brackets, so its first colon is taken for the one before the port.
* `contr_target_written_iff`: a sequence of edits is written if and only if it
  changes nothing or one of its calls sets the column. The protocol and a removed
  port are only changed in place, in the string of the client's copy, and that is
  not sent to the database.
-/

set_option autoImplicit false

namespace OfConfig.Proofs

open OfConfig.Lib OfConfig.Xml OfConfig.Edit OfConfig.Ovs OfConfig.Yang

/-! ### Addresses and their texts -/

/-- `of-config:protocol` -/
inductive Protocol where
  | tcp
  | tls
deriving DecidableEq, Repr

/-- The value of the leaf. -/
def Protocol.text : Protocol → String
  | .tcp => "tcp"
  | .tls => "tls"

/-- The beginning of a target. -/
def Protocol.scheme : Protocol → String
  | .tcp => "tcp"
  | .tls => "ssl"

/-- The address of a controller. -/
structure Address where
  proto : Protocol
  ip : String
  port : Option String
deriving DecidableEq, Repr

/-- The port in a target. -/
def portPart (port : Option String) : List Char := (port.map (fun p => ':' :: p.toList)).getD []

/-- The target of an address. -/
def Address.target (a : Address) : String :=
  String.ofList (a.proto.scheme.toList ++ ':' :: (a.ip.toList ++ portPart a.port))

/-- The target is read back as the address. -/
def Address.ReadFrom (a : Address) (target : String) : Prop :=
  parseTargetToAddr target = some (a.proto.text, a.ip, a.port)

/-- Neither the address nor the port has a bracket, as no address and no
number has. -/
structure Address.Plain (a : Address) : Prop where
  ip : '[' ∉ a.ip.toList
  port : ∀ p, a.port = some p → '[' ∉ p.toList

section

variable {c : Char} {l : List Char} (h : c ∉ l)

include h

theorem ne_of_not_mem : ∀ a ∈ l, decide (a ≠ c) = true := fun a ha => by
  rw [decide_eq_true_eq]
  rintro rfl
  exact h ha

theorem takeWhile_ne_append (r : List Char) : (l ++ c :: r).takeWhile (· ≠ c) = l := by
  rw [List.takeWhile_append_of_pos (ne_of_not_mem h)]
  simp

theorem dropWhile_ne_append (r : List Char) : (l ++ c :: r).dropWhile (· ≠ c) = c :: r := by
  rw [List.dropWhile_append_of_pos (ne_of_not_mem h)]
  simp

theorem takeWhile_ne_self : l.takeWhile (· ≠ c) = l :=
  List.takeWhile_eq_self_iff.mpr (ne_of_not_mem h)

theorem dropWhile_ne_self : l.dropWhile (· ≠ c) = [] :=
  List.dropWhile_eq_nil_iff.mpr (ne_of_not_mem h)

end

theorem colon_not_mem_scheme (p : Protocol) : ':' ∉ p.scheme.toList := by
  cases p <;> decide

/-- The three parts of a target, read up to the first colons. -/
theorem parseTargetToAddr_target {a : Address} (h : a.Plain) :
    ∃ port, parseTargetToAddr a.target = some (a.proto.text,
      String.ofList ((a.ip.toList ++ portPart a.port).takeWhile (· ≠ ':')), port) ∧
      ((a.ip.toList ++ portPart a.port).dropWhile (· ≠ ':') = [] → port = none) ∧
      ∀ p, (a.ip.toList ++ portPart a.port).dropWhile (· ≠ ':') = ':' :: p →
        port = some (String.ofList p) := by
  have hport : '[' ∉ portPart a.port := by
    cases hp : a.port with
    | none => simp [portPart]
    | some p => simpa [portPart] using h.port p hp
  have hno : (a.ip.toList ++ portPart a.port).contains '[' = false := by
    simpa using ⟨h.ip, hport⟩
  have hproto : (if String.ofList a.proto.scheme.toList = "ssl" then "tls"
      else String.ofList a.proto.scheme.toList) = a.proto.text := by
    cases a.proto <;> decide
  rw [parseTargetToAddr, Address.target]
  simp only [String.toList_ofList, dropWhile_ne_append (colon_not_mem_scheme a.proto),
    takeWhile_ne_append (colon_not_mem_scheme a.proto), hproto, hno, Bool.false_eq_true, if_false]
  exact ⟨_, rfl, fun hnil => by rw [hnil], fun p hp => by rw [hp]; rfl⟩

/-- A target is read back as its address if and only if the address part has
no colon. -/
theorem readFrom_target_iff {a : Address} (h : a.Plain) :
    a.ReadFrom a.target ↔ ':' ∉ a.ip.toList := by
  obtain ⟨port, hread, hnone, hsome⟩ := parseTargetToAddr_target h
  rw [Address.ReadFrom, hread]
  constructor
  · intro heq hmem
    simp only [Option.some.injEq, Prod.mk.injEq, true_and] at heq
    -- what was read has no colon
    rw [← heq.1, String.toList_ofList] at hmem
    simpa using List.mem_takeWhile_imp hmem
  · intro hno
    cases hp : a.port with
    | none =>
      rw [hp] at hnone
      rw [hnone (by simpa [portPart] using dropWhile_ne_self hno)]
      simp only [portPart, Option.map_none, Option.getD_none, List.append_nil,
        takeWhile_ne_self hno, String.ofList_toList]
    | some p =>
      rw [hp] at hsome
      rw [hsome p.toList (by simpa [portPart] using dropWhile_ne_append hno p.toList)]
      simp only [portPart, Option.map_some, Option.getD_some, takeWhile_ne_append hno,
        String.ofList_toList]

/-! ### `txn_add_contr` -/

/-- The first content of a child that `txn_add_contr` reads. -/
theorem contentOf_ok {c : Node} {o : Option String} {w w' : Work} :
    contentOf c w = (.ok o, w') → o = firstContent c ∧ w' = w := by
  unfold contentOf firstContent
  cases c.children with
  | nil => intro h; cases h
  | cons d ds =>
    intro h
    cases h
    exact ⟨rfl, rfl⟩

/-- What a child adds to the address. -/
def visitContr (n : NewContr) (c : Node) : NewContr :=
  if !c.label.isElement then n
  else if c.label.name = "ip-address" then { n with ip := firstContent c }
  else if c.label.name = "port" then { n with port := firstContent c }
  else if c.label.name = "protocol" ∧ firstContent c = some "tcp" then { n with proto := "tcp" }
  else n

/-- There is a row. -/
def HasContr (u : Uuid) (w : Work) : Prop := ∃ c, w.idl.controller.rowAt u = some c

/-- A change of a row leaves it there. -/
theorem HasContr.update {u u' : Uuid} {f : Controller → Controller} {w w' : Work} {x : Unit}
    (hf : updateController u' f w = (.ok x, w')) (h : HasContr u w) : HasContr u w' := by
  obtain ⟨c, hc⟩ := h
  cases hf
  by_cases hu : u = u'
  · exact ⟨f c, by simp [Table.rowAt_update, ← hu, hc]⟩
  · exact ⟨c, by simp [Table.rowAt_update, hu, hc]⟩

theorem addContrChild_ok {u : Uuid} {n n' : NewContr} {c : Node} {w w' : Work}
    (h : addContrChild u n c w = (.ok n', w')) :
    n' = visitContr n c ∧ (HasContr u w → HasContr u w') := by
  unfold addContrChild at h
  unfold visitContr
  by_cases he : c.label.isElement = true
  swap
  · rw [if_pos (by simpa using he)] at h ⊢
    obtain ⟨rfl, rfl⟩ := Prog.pure_ok.mp h
    exact ⟨rfl, id⟩
  rw [if_neg (by simpa using he)] at h ⊢
  by_cases hid : c.label.name = "id"
  · rw [if_pos hid] at h
    obtain ⟨o, w₁, hc, h₁⟩ := Prog.bind_ok.mp h
    obtain ⟨-, rfl⟩ := contentOf_ok hc
    obtain ⟨i, w₂, hd, h₂⟩ := Prog.bind_ok.mp h₁
    obtain ⟨-, rfl⟩ := Prog.ofOption_ok.mp hd
    obtain ⟨_, w₃, hu, h₃⟩ := Prog.bind_ok.mp h₂
    obtain ⟨rfl, rfl⟩ := Prog.pure_ok.mp h₃
    exact ⟨by simp [hid], HasContr.update hu⟩
  rw [if_neg hid] at h
  by_cases hip : c.label.name = "ip-address"
  · rw [if_pos hip] at h ⊢
    obtain ⟨o, w₁, hc, h₁⟩ := Prog.bind_ok.mp h
    obtain ⟨rfl, rfl⟩ := contentOf_ok hc
    obtain ⟨rfl, rfl⟩ := Prog.pure_ok.mp h₁
    exact ⟨rfl, id⟩
  rw [if_neg hip] at h ⊢
  by_cases hport : c.label.name = "port"
  · rw [if_pos hport] at h ⊢
    obtain ⟨o, w₁, hc, h₁⟩ := Prog.bind_ok.mp h
    obtain ⟨rfl, rfl⟩ := contentOf_ok hc
    obtain ⟨rfl, rfl⟩ := Prog.pure_ok.mp h₁
    exact ⟨rfl, id⟩
  rw [if_neg hport] at h ⊢
  by_cases hproto : c.label.name = "protocol"
  · rw [if_pos hproto] at h
    obtain ⟨o, w₁, hc, h₁⟩ := Prog.bind_ok.mp h
    obtain ⟨rfl, rfl⟩ := contentOf_ok hc
    obtain ⟨rfl, rfl⟩ := Prog.pure_ok.mp h₁
    exact ⟨by simp only [hproto, true_and], id⟩
  rw [if_neg hproto] at h
  rw [if_neg (fun hp => hproto hp.1)]
  by_cases hlip : c.label.name = "local-ip-address"
  · rw [if_pos hlip] at h
    obtain ⟨o, w₁, hc, h₁⟩ := Prog.bind_ok.mp h
    obtain ⟨-, rfl⟩ := contentOf_ok hc
    obtain ⟨_, w₂, hu, h₂⟩ := Prog.bind_ok.mp h₁
    obtain ⟨rfl, rfl⟩ := Prog.pure_ok.mp h₂
    exact ⟨rfl, HasContr.update hu⟩
  · rw [if_neg hlip] at h
    obtain ⟨rfl, rfl⟩ := Prog.pure_ok.mp h
    exact ⟨rfl, id⟩

theorem addContrChildren_ok {u : Uuid} {n n' : NewContr} {cs : List Node} {w w' : Work}
    (h : addContrChildren u n cs w = (.ok n', w')) :
    n' = cs.foldl visitContr n ∧ (HasContr u w → HasContr u w') := by
  induction cs generalizing n w with
  | nil =>
    obtain ⟨rfl, rfl⟩ := Prog.pure_ok.mp h
    exact ⟨rfl, id⟩
  | cons c cs ih =>
    obtain ⟨n₁, w₁, hc, h⟩ := Prog.bind_ok.mp h
    obtain ⟨rfl, hrow⟩ := addContrChild_ok hc
    obtain ⟨hn, hrows⟩ := ih h
    exact ⟨hn, fun hr => hrows (hrow hr)⟩

/-- The protocol of a new controller. -/
def newProtocol (node : Node) : Protocol :=
  if node.children.any (fun c => c.label.isElement && c.label.name = "protocol" &&
    firstContent c = some "tcp") then .tcp else .tls

/-- The address that the children of a new controller give. -/
theorem foldl_visitContr (node : Node) :
    node.children.foldl visitContr {} =
      ⟨(newProtocol node).scheme, lastContent node "ip-address", lastContent node "port"⟩ := by
  unfold newProtocol lastContent lastChild
  generalize node.children = cs
  induction cs using List.reverseRecOn with
  | nil => rfl
  | append_singleton cs c ih =>
    rw [List.foldl_append, List.foldl_cons, List.foldl_nil, ih, visitContr]
    simp only [List.reverse_append, List.reverse_singleton, List.singleton_append, List.find?_cons,
      List.any_append, List.any_cons, List.any_nil, Bool.or_false]
    by_cases he : c.label.isElement = true
    swap
    · simp [he]
    by_cases hip : c.label.name = "ip-address"
    · simp [he, hip]
    by_cases hport : c.label.name = "port"
    · simp [he, hport]
    by_cases hproto : c.label.name = "protocol" ∧ firstContent c = some "tcp"
    · simp [he, hproto, Protocol.scheme]
    · simp [he, hip, hport, hproto]

/-- The address of a new controller. -/
def newAddress (node : Node) (ip : String) : Address :=
  ⟨newProtocol node, ip, lastContent node "port"⟩

/-- The target is written in one piece. -/
theorem target_eq (a : Address) : a.target =
    a.proto.scheme ++ ":" ++ a.ip ++ (match a.port with | none => "" | some p => ":" ++ p) := by
  rw [← String.toList_inj, Address.target]
  cases hp : a.port <;> simp [portPart]

/-- The row that `txn_add_contr` inserts. -/
theorem txnAddContr_ok {node : Node} {brName : Option String} {w w' : Work}
    (hfresh : w.idl.controller.rowAt w.next = none)
    (h : txnAddContr node brName w = (.ok (), w')) :
    ∃ ip c, lastContent node "ip-address" = some ip ∧
      w'.idl.controller.rowAt w.next = some c ∧ c.shown = some (newAddress node ip).target := by
  unfold txnAddContr at h
  obtain ⟨br, w₁, hbr, h₁⟩ := Prog.bind_ok.mp h
  obtain ⟨-, rfl⟩ := Prog.ofOption_ok.mp hbr
  obtain ⟨u, w₂, hu, h₂⟩ := Prog.bind_ok.mp h₁
  cases hu
  obtain ⟨_, w₃, hins, h₃⟩ := Prog.bind_ok.mp h₂
  cases hins
  obtain ⟨n, w₄, hch, h₄⟩ := Prog.bind_ok.mp h₃
  obtain ⟨hn, hrow⟩ := addContrChildren_ok hch
  rw [foldl_visitContr] at hn
  obtain ⟨c, hc⟩ : HasContr w.next w₄ :=
    hrow ⟨_, by rw [Table.rowAt_insert hfresh, if_pos rfl]⟩
  cases hip : lastContent node "ip-address" with
  | none =>
    simp only [hn, hip] at h₄
    cases h₄
  | some ip =>
    simp only [hn, hip] at h₄
    obtain ⟨_, w₅, hset, h₅⟩ := Prog.bind_ok.mp h₄
    cases hset
    obtain ⟨b, w₆, hb, h₆⟩ := Prog.bind_ok.mp h₅
    obtain ⟨-, rfl⟩ := Prog.read_ok.mp hb
    cases b with
    | none => cases h₆
    | some b =>
      cases h₆
      refine ⟨ip, c.setTarget (newAddress node ip).target, rfl, ?_, rfl⟩
      simp only [Table.rowAt_update, hc, if_true, Option.map_some]
      rw [target_eq]
      rfl

/-- The target of a new controller is read back as its protocol, address and
port if and only if the address is an IPv4 address. -/
theorem contr_target_round_trip_iff {node : Node} {brName : Option String} {w w' : Work}
    {ip : String} (hfresh : w.idl.controller.rowAt w.next = none)
    (hip : lastContent node "ip-address" = some ip) (haddr : ip.toList ∈ ipAddress)
    (hport : ∀ p, lastContent node "port" = some p → '[' ∉ p.toList)
    (h : txnAddContr node brName w = (.ok (), w')) :
    (∃ c target, w'.idl.controller.rowAt w.next = some c ∧ c.shown = some target ∧
      (newAddress node ip).ReadFrom target) ↔ ip.toList ∈ ipv4Address := by
  obtain ⟨ip', c, hip', hc, hshown⟩ := txnAddContr_ok hfresh h
  obtain rfl : ip = ip' := by simpa [hip] using hip'
  have hplain : (newAddress node ip).Plain := ⟨bracket_not_mem_ipAddress haddr, hport⟩
  have hiff := readFrom_target_iff hplain
  rw [mem_ipv4Address_iff haddr]
  constructor
  · rintro ⟨c', target, hc', htarget, hread⟩
    obtain rfl : c = c' := by simpa [hc] using hc'
    obtain rfl : (newAddress node ip).target = target := by simpa [hshown] using htarget
    exact hiff.mp hread
  · intro hno
    exact ⟨c, _, hc, hshown, hiff.mpr hno⟩

/-- A controller to add. -/
def controllerNode (ip : String) : Node :=
  elem "controller" none [elem "id" none [txt "c0"], elem "ip-address" none [txt ip],
    elem "port" none [txt "6633"], elem "protocol" none [txt "tcp"]]

/-- A database with one bridge. -/
def oneBridge : Work :=
  { idl := { bridge := [⟨0, false, true, { name := some "br0" }⟩] }, next := 1 }

/-- An IPv4 address is read back. -/
theorem contr_target_round_trip_ipv4 :
    ∃ c target,
      (txnAddContr (controllerNode "1.2.3.4") (some "br0") oneBridge).2.idl.controller.rowAt
        1 = some c ∧ c.shown = some target ∧
      parseTargetToAddr target = some ("tcp", "1.2.3.4", some "6633") := by
  have hdigit (c : Char) (h : '0' ≤ c ∧ c ≤ '9') : [c] ∈ digit := ⟨c, decide_eq_true h, rfl⟩
  have haddr : "1.2.3.4".toList ∈ ipv4Address :=
    mem_ipv4Address_of_digits (hdigit '1' (by decide)) (hdigit '2' (by decide))
      (hdigit '3' (by decide)) (hdigit '4' (by decide))
  have hport : ∀ p, lastContent (controllerNode "1.2.3.4") "port" = some p → '[' ∉ p.toList := by
    have h : lastContent (controllerNode "1.2.3.4") "port" = some "6633" := by decide
    intro p hp
    obtain rfl := Option.some.inj (h.symm.trans hp)
    decide
  have hrun : txnAddContr (controllerNode "1.2.3.4") (some "br0") oneBridge =
      (.ok (), (txnAddContr (controllerNode "1.2.3.4") (some "br0") oneBridge).2) :=
    Prod.ext (by decide) rfl
  exact (contr_target_round_trip_iff (by decide) (by decide) (.inl haddr) hport hrun).mpr haddr

/-- The first colon of an IPv6 address is taken for the one before the
port. -/
theorem ipv6_target_misread :
    "::1".toList ∈ ipv6Address ∧
    (txnAddContr (controllerNode "::1") (some "br0") oneBridge).1 = .ok () ∧
    ((txnAddContr (controllerNode "::1") (some "br0") oneBridge).2.idl.controller.rowAt 1).bind
      Controller.shown = some "tcp:::1:6633" ∧
    parseTargetToAddr "tcp:::1:6633" = some ("tcp", "", some ":1:6633") :=
  ⟨mem_ipv6Address_loopback, by decide, by decide, by decide⟩

/-! ### Edits of a target -/

/-- A call of `txn_mod_contr_target`: the leaf and its new value, null for a
deleted one. -/
inductive ContrUpdate where
  | ip (value : Option String)
  | port (value : Option String)
  | protocol (value : Option Protocol)
deriving DecidableEq, Repr

/-- The name of the leaf. -/
def ContrUpdate.name : ContrUpdate → String
  | .ip _ => "ip-address"
  | .port _ => "port"
  | .protocol _ => "protocol"

/-- The text of the leaf. -/
def ContrUpdate.value : ContrUpdate → Option String
  | .ip v => v
  | .port v => v
  | .protocol p => p.map Protocol.text

/-- What the call is for: a deleted address stays until a new one comes, a
deleted protocol is the default. -/
def Address.update (a : Address) : ContrUpdate → Address
  | .ip v => { a with ip := v.getD a.ip }
  | .port v => { a with port := v }
  | .protocol p => { a with proto := p.getD .tls }

/-- The call sets the column. -/
def ContrUpdate.sets : ContrUpdate → Bool
  | .ip v => v.isSome
  | .port v => v.isSome
  | .protocol _ => false

/-- An address of four numbers, as far as a target is concerned. -/
structure Address.Simple (a : Address) : Prop extends a.Plain where
  colon : ':' ∉ a.ip.toList

/-- The values of an update are such. -/
def ContrUpdate.Simple : ContrUpdate → Prop
  | .ip v => ∀ s, v = some s → '[' ∉ s.toList ∧ ':' ∉ s.toList
  | .port v => ∀ s, v = some s → '[' ∉ s.toList
  | .protocol _ => True

theorem Address.Simple.update {a : Address} (h : a.Simple) {u : ContrUpdate} (hu : u.Simple) :
    (a.update u).Simple := by
  cases u with
  | ip v =>
    cases v with
    | none => exact h
    | some s => exact ⟨⟨(hu s rfl).1, h.port⟩, (hu s rfl).2⟩
  | port v => exact ⟨⟨h.ip, hu⟩, h.colon⟩
  | protocol p => exact ⟨⟨h.ip, h.port⟩, h.colon⟩

theorem Address.Simple.updates {a : Address} (h : a.Simple) {us : List ContrUpdate}
    (hus : ∀ v ∈ us, v.Simple) : (us.foldl Address.update a).Simple := by
  induction us generalizing a with
  | nil => exact h
  | cons v us ih => exact ih (h.update (hus v (by simp))) (fun x hx => hus x (by simp [hx]))

/-- A simple address is what its target is read as, and nothing else. -/
theorem readFrom_target {a b : Address} (h : a.Simple) : b.ReadFrom a.target ↔ b = a := by
  have hread : parseTargetToAddr a.target = some (a.proto.text, a.ip, a.port) :=
    (readFrom_target_iff h.toPlain).mpr h.colon
  rw [Address.ReadFrom, hread]
  constructor
  · intro heq
    simp only [Option.some.injEq, Prod.mk.injEq] at heq
    obtain ⟨hproto, hip, hport⟩ := heq
    have hp : b.proto = a.proto := by
      revert hproto
      cases a.proto <;> cases b.proto <;> simp [Protocol.text]
    obtain ⟨bp, bi, bo⟩ := b
    obtain ⟨ap, ai, ao⟩ := a
    simp_all
  · rintro rfl
    rfl

theorem splitTarget_target {a : Address} (h : a.Simple) :
    splitTarget a.target = some ({ a with port := none }.target, a.port) := by
  have htoList : a.target.toList =
      a.proto.scheme.toList ++ ':' :: (a.ip.toList ++ portPart a.port) := by
    rw [Address.target, String.toList_ofList]
  rw [splitTarget, htoList]
  simp only [dropWhile_ne_append (colon_not_mem_scheme a.proto),
    takeWhile_ne_append (colon_not_mem_scheme a.proto)]
  cases hp : a.port with
  | none =>
    simp only [portPart, Option.map_none, Option.getD_none, List.append_nil,
      takeWhile_ne_self h.colon, dropWhile_ne_self h.colon, Address.target]
  | some p =>
    simp only [portPart, Option.map_some, Option.getD_some, takeWhile_ne_append h.colon,
      dropWhile_ne_append h.colon, Address.target, Option.map_none, Option.getD_none,
      List.append_nil, String.ofList_toList]

/-- Setting the protocol in place. -/
theorem withProto_target (a : Address) (p : Protocol) :
    withProto p.scheme a.target = { a with proto := p }.target := by
  rw [withProto, ← String.toList_inj]
  cases hp : a.proto <;> simp [Address.target, hp, Protocol.scheme]

/-- Setting the port. -/
theorem portless_append (a : Address) (p : String) :
    { a with port := none }.target ++ ":" ++ p = { a with port := some p }.target := by
  rw [← String.toList_inj]
  simp [Address.target, portPart]

theorem three_le_length_target (a : Address) : ¬ a.target.length < 3 := by
  have hscheme : a.proto.scheme.toList.length = 3 := by cases a.proto <;> decide
  rw [← String.length_toList, Address.target, String.toList_ofList, List.length_append, hscheme]
  omega

/-- Setting the address. -/
theorem withIp_target (a : Address) (ip : String) :
    withIp a.target ip a.port = { a with ip := ip }.target := by
  unfold withIp
  rw [if_neg (three_le_length_target a), ← String.toList_inj]
  cases hp : a.proto <;> cases ho : a.port <;>
    simp [Address.target, hp, ho, Protocol.scheme, portPart]

/-- What an update of the protocol writes. -/
theorem withProto_value (a : Address) (p : Option Protocol) :
    withProto (if p.map Protocol.text = some "tcp" then "tcp" else "ssl") a.target =
      { a with proto := p.getD .tls }.target := by
  rcases p with _ | p
  · exact withProto_target a .tls
  · cases p
    · exact withProto_target a .tcp
    · exact withProto_target a .tls

/-- A controller with a given string in the copy, and another one that has
been set. -/
def retarget (c : Controller) (copy : Address) (set : Option Address) : Controller :=
  { c with target := some copy.target, targetSet := set.map Address.target }

@[simp] theorem externalIds_retarget (c : Controller) (copy : Address) (set : Option Address) :
    (retarget c copy set).externalIds = c.externalIds := rfl

/-- A call on a controller whose column has been set goes on with that
string. -/
theorem modTarget_set (c : Controller) (a : Address) {b : Address} (hb : b.Simple)
    (u : ContrUpdate) :
    (retarget c a (some b)).modTarget u.name u.value = some (retarget c a (some (b.update u))) := by
  cases u with
  | ip v =>
    cases v with
    | none => rfl
    | some v =>
      simp [Controller.modTarget, Controller.shown, ContrUpdate.name, ContrUpdate.value,
        splitTarget_target hb, withIp_target, Controller.setTarget, Address.update, retarget]
  | port v =>
    cases v with
    | none =>
      simp [Controller.modTarget, Controller.shown, ContrUpdate.name, ContrUpdate.value,
        splitTarget_target hb, Controller.writeTarget, Address.update, retarget]
    | some v =>
      simp [Controller.modTarget, Controller.shown, ContrUpdate.name, ContrUpdate.value,
        splitTarget_target hb, Controller.writeTarget, Controller.setTarget, Address.update,
        portless_append, retarget]
  | protocol p =>
    simp only [Controller.modTarget, Controller.shown, ContrUpdate.name, ContrUpdate.value,
      Controller.writeTarget, Address.update, retarget, Option.map_some, ← withProto_value b p]
    simp [three_le_length_target]

/-- A call on a controller whose column has not been set. If it does not set it,
it changes the string of the copy in place; if it does, the string of the copy does
not matter any more. -/
theorem modTarget_unset (c : Controller) {a : Address} (ha : a.Simple) (u : ContrUpdate) :
    ∃ copy, (retarget c a none).modTarget u.name u.value =
        some (retarget c copy (if u.sets then some (a.update u) else none)) ∧
      (u.sets = false → copy = a.update u) := by
  cases u with
  | ip v =>
    cases v with
    | none => exact ⟨a, rfl, fun _ => rfl⟩
    | some v =>
      refine ⟨a, ?_, by simp [ContrUpdate.sets]⟩
      simp [Controller.modTarget, Controller.shown, ContrUpdate.name, ContrUpdate.value,
        splitTarget_target ha, withIp_target, Controller.setTarget, Address.update,
        ContrUpdate.sets, retarget]
  | port v =>
    cases v with
    | none =>
      refine ⟨{ a with port := none }, ?_, fun _ => rfl⟩
      simp [Controller.modTarget, Controller.shown, ContrUpdate.name, ContrUpdate.value,
        splitTarget_target ha, Controller.writeTarget, ContrUpdate.sets, retarget]
    | some v =>
      -- the port is cut off in place before the new one is set
      refine ⟨{ a with port := none }, ?_, by simp [ContrUpdate.sets]⟩
      simp [Controller.modTarget, Controller.shown, ContrUpdate.name, ContrUpdate.value,
        splitTarget_target ha, Controller.writeTarget, Controller.setTarget, Address.update,
        portless_append, ContrUpdate.sets, retarget]
  | protocol p =>
    refine ⟨{ a with proto := p.getD .tls }, ?_, fun _ => rfl⟩
    simp only [Controller.modTarget, Controller.shown, ContrUpdate.name, ContrUpdate.value,
      Controller.writeTarget, ContrUpdate.sets, retarget, Option.map_none,
      ← withProto_value a p]
    simp [three_le_length_target]

/-! ### Sequences of edits -/

/-- The calls of a sequence. -/
def modContrTargets (contrId : String) (us : List ContrUpdate) : Txn Unit :=
  Prog.forEach us (fun u => txnModContrTarget (some contrId) u.name u.value)

/-- The search for the controller finds a row with the given value. -/
structure Finds (contrId : String) (u : Uuid) (c : Controller) (db : Db) : Prop where
  distinct : db.controller.Distinct
  row : ∃ r, findContr contrId db = some r ∧ r.uuid = u ∧ r.val = c

variable {contrId : String} {u : Uuid} {c : Controller} {w : Work}

/-- One call on the row it finds; the next call finds it again. -/
theorem Finds.step (h : Finds contrId u c w.idl) (upd : ContrUpdate) {c' : Controller}
    (hc : c.modTarget upd.name upd.value = some c') (hids : c'.externalIds = c.externalIds) :
    ∃ w', txnModContrTarget (some contrId) upd.name upd.value w = (.ok (), w') ∧
      Finds contrId u c' w'.idl := by
  obtain ⟨r, hr, rfl, rfl⟩ := h.row
  have hrun : txnModContrTarget (some contrId) upd.name upd.value w =
      (.ok (), { w with idl := { w.idl with
        controller := w.idl.controller.update r.uuid (fun _ => c') } }) := by
    simp only [txnModContrTarget, getContr, argument, Prog.ofOption, Prog.bind_run, Prog.ret_run,
      readDb, Prog.read_run, hr, Prog.pure_run, deref, hc, updateController, modifyDb,
      Prog.update_run]
  have hid : c'.id = some contrId := by
    rw [Controller.id, hids]
    exact of_decide_eq_true (Table.first_some hr).2
  have hfind : (w.idl.controller.update r.uuid (fun _ => c')).first
      (fun d => decide (d.id = some contrId)) = some { r with val := c' } :=
    h.distinct.first_update hr (decide_eq_true hid)
  exact ⟨_, hrun, h.distinct.update r.uuid (fun _ => c'), _, hfind, rfl, rfl⟩

/-- A sequence on a controller whose column has been set. -/
theorem modContrTargets_set {us : List ContrUpdate} {a b : Address} (hb : b.Simple)
    (hus : ∀ v ∈ us, v.Simple) (h : Finds contrId u (retarget c a (some b)) w.idl) :
    ∃ w', modContrTargets contrId us w = (.ok (), w') ∧
      Finds contrId u (retarget c a (some (us.foldl Address.update b))) w'.idl := by
  induction us generalizing w b with
  | nil => exact ⟨w, rfl, h⟩
  | cons v us ih =>
    obtain ⟨w₁, hrun, h₁⟩ := h.step v (modTarget_set c a hb v) rfl
    obtain ⟨w₂, hrest, h₂⟩ :=
      ih (hb.update (hus v (by simp))) (fun x hx => hus x (by simp [hx])) h₁
    exact ⟨w₂, (Prog.bind_run_ok hrun).trans hrest, h₂⟩

/-- A sequence on a controller whose column has not been set. From the first call
on that sets it the calls work on the string that was set, which has all changes
that were made in place before. -/
theorem modContrTargets_unset {us : List ContrUpdate} {a : Address} (ha : a.Simple)
    (hus : ∀ v ∈ us, v.Simple) (h : Finds contrId u (retarget c a none) w.idl) :
    ∃ w' copy, modContrTargets contrId us w = (.ok (), w') ∧
      Finds contrId u (retarget c copy
        (if us.any ContrUpdate.sets then some (us.foldl Address.update a) else none)) w'.idl := by
  induction us generalizing w a with
  | nil => exact ⟨w, a, rfl, h⟩
  | cons v us ih =>
    have hv := ha.update (hus v (by simp))
    have hrest : ∀ x ∈ us, x.Simple := fun x hx => hus x (by simp [hx])
    obtain ⟨copy, hmod, hcopy⟩ := modTarget_unset c ha v
    obtain ⟨w₁, hrun, h₁⟩ := h.step v hmod rfl
    cases hs : v.sets with
    | true =>
      simp only [hs, if_true] at h₁
      obtain ⟨w₂, hruns, h₂⟩ := modContrTargets_set hv hrest h₁
      refine ⟨w₂, copy, (Prog.bind_run_ok hrun).trans hruns, ?_⟩
      simpa only [List.any_cons, hs, Bool.true_or, if_true, List.foldl_cons] using h₂
    | false =>
      rw [hcopy hs] at h₁
      simp only [hs, Bool.false_eq_true, if_false] at h₁
      obtain ⟨w₂, copy', hruns, h₂⟩ := ih hv hrest h₁
      refine ⟨w₂, copy', (Prog.bind_run_ok hrun).trans hruns, ?_⟩
      simpa only [List.any_cons, hs, Bool.false_or, List.foldl_cons] using h₂

/-- The target of a controller that the transaction asks the database to
store. -/
def writtenTarget (stored idl : Db) (u : Uuid) : Option String :=
  ((pending stored idl).controller.deref u).bind Controller.target

/-- It is the one that was set, and else the one the database has. -/
theorem writtenTarget_eq {stored idl : Db} (h : Finds contrId u c idl) :
    writtenTarget stored idl u =
      c.targetSet.or ((stored.controller.deref u).bind Controller.target) := by
  obtain ⟨r, hr, rfl, rfl⟩ := h.row
  have hlive := (Table.first_some hr).1
  have hmem : { r with fresh := false, val := { r.val with
      target := r.val.targetSet.or ((stored.controller.deref r.uuid).bind Controller.target)
      targetSet := none } } ∈ (pending stored idl).controller :=
    List.mem_map.mpr ⟨{ r with fresh := false }, List.mem_map.mpr ⟨r, hlive, rfl⟩, rfl⟩
  have hdist : (pending stored idl).controller.Distinct := by
    have hsettle := h.distinct.settle
    simpa [Table.Distinct, pending, Function.comp_def] using hsettle
  have halive : { r with fresh := false, val := { r.val with
      target := r.val.targetSet.or ((stored.controller.deref r.uuid).bind Controller.target)
      targetSet := none } } ∈ (pending stored idl).controller.live :=
    List.mem_filter.mpr ⟨hmem, (List.mem_filter.mp hlive).2⟩
  rw [writtenTarget, hdist.deref (hdist.rowAt halive)]
  rfl

/-- The edits of a controller's address in one transaction are written if and
only if they leave the address as it was, or one of them sets the column: a new
address or a new port does, a protocol and the removal of a port do not. -/
theorem contr_target_written_iff {stored : Db} {us : List ContrUpdate} {a : Address}
    (ha : a.Simple) (hus : ∀ v ∈ us, v.Simple)
    (h : Finds contrId u (retarget c a none) w.idl)
    (hstored : (stored.controller.deref u).bind Controller.target = some a.target) :
    ∃ w', modContrTargets contrId us w = (.ok (), w') ∧
      ((∃ target, writtenTarget stored w'.idl u = some target ∧
        (us.foldl Address.update a).ReadFrom target) ↔
      us.foldl Address.update a = a ∨ us.any ContrUpdate.sets = true) := by
  obtain ⟨w', copy, hrun, h'⟩ := modContrTargets_unset ha hus h
  refine ⟨w', hrun, ?_⟩
  have hfinal := ha.updates hus
  rw [writtenTarget_eq h', hstored]
  cases hsets : us.any ContrUpdate.sets with
  | false =>
    -- the database keeps the old target
    have hkept : (∃ target, some a.target = some target ∧
        (us.foldl Address.update a).ReadFrom target) ↔ us.foldl Address.update a = a := by
      rw [← readFrom_target ha]
      exact ⟨fun ⟨t, ht, hread⟩ => Option.some.inj ht ▸ hread, fun hread => ⟨_, rfl, hread⟩⟩
    simpa [retarget] using hkept
  | true => simpa [retarget] using (readFrom_target hfinal).mpr rfl

/-- The address of a controller on `1.2.3.4`. -/
def oldAddress : Address := ⟨.tcp, "1.2.3.4", some "6633"⟩

/-- A database with that controller. -/
def oneController : Db :=
  { controller := [⟨0, false, true, retarget { externalIds := [("ofconfig-id", "c0")] } oldAddress
      none⟩] }

/-- The protocol is changed and the port replaced, that is deleted and created:
the new target is written, with the protocol that was changed in place. -/
theorem contr_target_written_port :
    let us : List ContrUpdate := [.protocol (some .tls), .port none, .port (some "6653")]
    ∃ w', modContrTargets "c0" us { idl := oneController } = (.ok (), w') ∧
      ∃ target, writtenTarget oneController w'.idl 0 = some target ∧
        parseTargetToAddr target = some ("tls", "1.2.3.4", some "6653") := by
  intro us
  have ha : oldAddress.Simple := by
    refine ⟨⟨by decide, fun p hp => ?_⟩, by decide⟩
    obtain rfl := Option.some.inj hp
    decide
  have hus : ∀ v ∈ us, v.Simple := by
    intro v hv
    have hcases : v = .protocol (some .tls) ∨ v = .port none ∨ v = .port (some "6653") := by
      simpa [us] using hv
    rcases hcases with rfl | rfl | rfl
    · trivial
    · intro s hs
      cases hs
    · intro s hs
      cases hs
      decide
  have hfinds : Finds "c0" 0 (retarget { externalIds := [("ofconfig-id", "c0")] } oldAddress none)
      oneController :=
    ⟨by simp [Table.Distinct, oneController], _, rfl, rfl, rfl⟩
  have hstored : (oneController.controller.deref 0).bind Controller.target =
      some oldAddress.target := by decide
  obtain ⟨w', hrun, hiff⟩ :=
    contr_target_written_iff (w := { idl := oneController }) ha hus hfinds hstored
  exact ⟨w', hrun, hiff.mpr (.inr (by decide))⟩

/-- The protocol is changed in place: the database keeps the old target. -/
theorem protocol_not_written :
    (modContrTargets "c0" [.protocol (some .tls)] { idl := oneController }).1 = .ok () ∧
    writtenTarget oneController
      (modContrTargets "c0" [.protocol (some .tls)] { idl := oneController }).2.idl 0 =
      some "tcp:1.2.3.4:6633" ∧
    parseTargetToAddr "tcp:1.2.3.4:6633" = some ("tcp", "1.2.3.4", some "6633") ∧
    oldAddress.update (.protocol (some .tls)) = ⟨.tls, "1.2.3.4", some "6633"⟩ := by
  decide

end OfConfig.Proofs
