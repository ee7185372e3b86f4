import OfConfig.Lib.Markup
import OfConfig.Ovs.Backend

/-!
# `OfConfig.Proofs.ReadBack`: the running configuration read as XML

`ofc_get_config_data` puts the configuration together with `printf` formats,
and its callers parse the string. What the string is meant to say is a tree
(`configTrees`): the elements in the order of the source, each leaf with the
stored value. `writes_config` shows that the string is the tree with the
values put between the tags as they are.

* `running_reads_back_iff`: the string is a document and its elements have
  exactly the stored values if and only if every value stands for itself
  (XML characters without `<`, `&`, carriage returns and `]]>`) and every tunnel
  type is a name.
* `ampersand_not_read_back`: a switch called `a&b`.
-/

set_option autoImplicit false

namespace OfConfig.Ovs

open OfConfig.Lib OfConfig.Lib.Markup

/-! ### What the string is meant to say -/

/-- A leaf for a value, if there is one. -/
def leafOption (elem : String) (value : Option String) : List Element :=
  (value.map (Element.leaf elem)).toList

/-- A container, if it has content. -/
def nodeNonempty (elem : String) (ts : List Element) : List Element :=
  if ts.isEmpty then [] else [.node elem ts]

/-- The trees of a loop, one after the other. -/
def treesAll {α : Type} (f : α → Option (List Element)) (xs : List α) : Option (List Element) :=
  (xs.mapM f).map List.flatten

/-- A flow table that some switch refers to. -/
def flowTableTrees (db : Db) (row : Row FlowTable) : List Element :=
  match findFlowtableId db row.uuid with
  | none => []
  | some key =>
    [.node "flow-table" (.leaf "table-id" (toString key) ::
      (leafOption "resource-id" ((row.val.externalIds.get ofcResourceId).filter (· ≠ "")) ++
        leafOption "name" row.val.name))]

/-- The properties of a queue. -/
def propertyTrees (q : Queue) : List Element :=
  ["min-rate", "max-rate", "experimenter-id", "experimenter-data"].flatMap
    (fun key => leafOption key (q.otherConfig.get key))

/-- A queue with a `resource-id`. -/
def queueTrees (db : Db) (row : Row Queue) : List Element :=
  match row.val.rid.filter (· ≠ "") with
  | none => []
  | some rid =>
    [.node "queue" (.leaf "resource-id" rid ::
      (leafOption "id" (row.val.externalIds.get "ofc_id") ++
      leafOption "port" ((findQueuePort rid db).map (fun p => orNull p.val.name)) ++
      nodeNonempty "properties" (propertyTrees row.val)))]

/-- The features of a port. -/
def featureTrees (mask : BitVec 32) : List Element :=
  (maskTexts rates mask).map (Element.leaf "rate") ++
  [.leaf "auto-negotiate" (if autonegBit &&& mask ≠ 0 then "true" else "false")] ++
  (maskTexts medium mask).map (Element.leaf "medium") ++
  [.leaf "pause" (if asymPauseBit &&& mask ≠ 0 then "asymmetric"
    else if pauseBit &&& mask ≠ 0 then "symmetric" else "unsupported")]

/-- The configuration of a port. -/
def portConfigurationTrees (env : Env) (bridge name : String) (row : Interface) : List Element :=
  match env.ofPort bridge name with
  | some c =>
    [.node "configuration" [.leaf "admin-state" (if c .portDown then "down" else "up"),
      .leaf "no-receive" (confBit (c .noRecv)), .leaf "no-forward" (confBit (c .noFwd)),
      .leaf "no-packet-in" (confBit (c .noPacketIn))]]
  | none =>
    (row.adminState.map (fun s => Element.node "configuration" [.leaf "admin-state" s])).toList

/-- The tunnel of a port. -/
def tunnelTrees (row : Interface) : List Element :=
  match row.externalIds.get "tunnel_type" with
  | none => []
  | some type =>
    [.node type (leafOption "local-endpoint-ipv4-adress" (row.options.get "local_ip") ++
      leafOption "remote-endpoint-ipv4-adress" (row.options.get "remote_ip") ++
      (if type = "ipgre-tunnel" then
        leafOption "checksum-present" (row.options.get "csum") ++
        leafOption "key" (row.options.get "key")
      else if type = "vxlan-tunnel" then leafOption "vni" (row.options.get "key")
      else []))]

/-- One interface of a port of a bridge. -/
def interfaceTrees (env : Env) (w : World) (bridge : String) (row : Interface) : List Element :=
  let name := orNull row.name
  [.node "port" (.leaf "name" name ::
    (leafOption "requested-number" (row.ofportRequest.map (fun n => toString (n % 2 ^ 64))) ++
      portConfigurationTrees env bridge name row ++
      (if env.isSystem name then
        [.node "features" [.node "advertised" (featureTrees (w.advertising name))]] else []) ++
      tunnelTrees row))]

/-- The ports of a bridge, one for each interface. -/
def portsTrees (env : Env) (w : World) (b : Bridge) : Option (List Element) :=
  treesAll (fun u => do
    let p ← w.idl.port.deref u
    treesAll (fun i => (w.idl.interface.deref i).map (interfaceTrees env w (orNull b.name)))
      p.interfaces) b.ports

/-- A controller. -/
def controllerTrees (row : Controller) : Option (List Element) := do
  let (protocol, address, port) ← parseTargetToAddr (← row.shown)
  return [.node "controller" ([.leaf "id" (orNull row.id), .leaf "ip-address" address] ++
    leafOption "port" port ++ leafOption "local-ip-address" row.localIp ++
    [.leaf "protocol" protocol])]

/-- The references of a switch. -/
def referenceTrees (db : Db) (b : Bridge) (cert : Option String) : Option (List Element) := do
  let ports ← treesAll (fun u => (db.port.deref u).map (fun p => [.leaf "port" (orNull p.name)]))
    b.ports
  let queues ← treesAll (fun u =>
    (db.port.deref u).map (fun p => (portQueueIds db p).map (Element.leaf "queue"))) b.ports
  return ports ++ b.flowTables.map (fun t => Element.leaf "flow-table" (toString t.1)) ++ queues ++
    leafOption "certificate" cert

/-- A switch with the given text for its datapath id. -/
def switchTrees (db : Db) (cert : Option String) (row : Bridge) (dpid : Option String) :
    Option (List Element) := do
  let controllers ← treesAll (fun u => (db.controller.deref u).bind controllerTrees)
    row.controller
  let resources ← referenceTrees db row cert
  return [.node "switch" (.leaf "id" (orNull row.name) :: (leafOption "datapath-id" dpid ++
    leafOption "lost-connection-behavior" (row.failMode.map failModeText) ++
    (if row.controller.isEmpty then [] else [.node "controllers" controllers]) ++
    nodeNonempty "resources" resources))]

/-- A switch. -/
def bridgeTrees (db : Db) (cert : Option String) (row : Bridge) : Option (List Element) :=
  match row.datapathId with
  | none => switchTrees db cert row none
  | some d => (datapathText d).bind (fun dpid => switchTrees db cert row (some dpid))

/-- The owned certificate. -/
def ownedCertificateTrees (w : World) : List Element :=
  let parts : Option (List Element) := do
    let ssl ← w.idl.ssl.first (fun _ => true)
    let certificate ← ssl.val.certificate
    let privateKey ← ssl.val.privateKey
    let resid ← ssl.val.externalIds.get ofcResidOwn
    let cert ← certOfFile w certificate
    let (type, data) ← keyOfFile w privateKey
    return [.node "owned-certificate" [.leaf "resource-id" resid, .leaf "certificate" cert,
      .node "private-key" [.leaf "key-type" type, .leaf "key-data" data]]]
  parts.getD []

/-- The external certificate. -/
def externalCertificateTrees (w : World) : List Element :=
  let parts : Option (List Element) := do
    let ssl ← w.idl.ssl.first (fun _ => true)
    let caCert ← ssl.val.caCert
    let resid ← ssl.val.externalIds.get ofcResidExt
    let cert ← certOfFile w caCert
    return [.node "external-certificate" [.leaf "resource-id" resid, .leaf "certificate" cert]]
  parts.getD []

/-- The elements below `/capable-switch` for a switch with the given id. -/
def configTrees (env : Env) (w : World) (id : String) : Option (List Element) := do
  let ports ← treesAll (fun b => portsTrees env w b.val) w.idl.bridge.live
  let switches ← treesAll (fun r => bridgeTrees w.idl (ownCertificate w.idl) r.val)
    w.idl.bridge.live
  return .leaf "id" id :: (nodeNonempty "resources" (ports ++
      w.idl.queue.live.flatMap (queueTrees w.idl) ++ ownedCertificateTrees w ++
      externalCertificateTrees w ++ w.idl.flowTable.live.flatMap (flowTableTrees w.idl)) ++
    nodeNonempty "logical-switches" switches)

/-! ### The string holds the trees -/

/-- The string is the text of the trees. -/
def Writes (s : String) (ts : List Element) : Prop := s.toList = rawAll ts

theorem rawAll_append (ts us : List Element) : rawAll (ts ++ us) = rawAll ts ++ rawAll us := by
  induction ts with
  | nil => rfl
  | cons t ts ih => rw [List.cons_append, rawAll, rawAll, ih, List.append_assoc]

/-- The format of the source is the one of the trees. -/
theorem toList_put (elem value : String) :
    (put elem value).toList = between elem.toList value.toList := by
  have hlt : "<".toList = ['<'] := rfl
  have hgt : ">".toList = ['>'] := rfl
  have hend : "</".toList = ['<', '/'] := rfl
  unfold put between
  rw [String.toList_append, String.toList_append, String.toList_append, String.toList_append,
    String.toList_append, String.toList_append, hlt, hgt, hend]
  simp only [List.append_assoc, List.cons_append, List.nil_append]

namespace Writes

variable {s s' : String} {ts ts' : List Element}

theorem nil : Writes "" [] := rfl

theorem leaf (elem value : String) : Writes (put elem value) [.leaf elem value] := by
  unfold Writes
  rw [toList_put, rawAll, Element.raw, rawAll, List.append_nil]

theorem node (elem : String) (h : Writes s ts) : Writes (put elem s) [.node elem ts] := by
  unfold Writes at *
  rw [toList_put, h, rawAll, Element.raw, rawAll, List.append_nil]

theorem append (h : Writes s ts) (h' : Writes s' ts') : Writes (s ++ s') (ts ++ ts') := by
  unfold Writes at *
  rw [String.toList_append, h, h', rawAll_append]

theorem option (elem : String) (value : Option String) :
    Writes (putOption elem value) (leafOption elem value) := by
  cases value with
  | none => exact nil
  | some v => exact leaf elem v

/-- A container is left out together with its trees: a tree's text is never
empty. -/
theorem nonempty (elem : String) (h : Writes s ts) :
    Writes (putNonempty elem s) (nodeNonempty elem ts) := by
  unfold putNonempty nodeNonempty
  cases ts with
  | nil =>
    rw [if_pos (String.toList_eq_nil_iff.mp h), if_pos List.isEmpty_nil]
    exact nil
  | cons t ts =>
    have hne : s ≠ "" := by
      rintro rfl
      have hlen : (rawAll (t :: ts)).length = 0 := congrArg List.length h.symm
      rw [rawAll, List.length_append] at hlen
      have hpos : 0 < t.raw.length := t.length_raw_pos
      omega
    rw [if_neg hne, if_neg (by simp)]
    exact node elem h

/-- A part that is written under a condition. -/
theorem ite {p : Prop} [Decidable p] (h : Writes s ts) (h' : Writes s' ts') :
    Writes (if p then s else s') (if p then ts else ts') := by
  split
  · exact h
  · exact h'

theorem join (elem : String) (values : List String) :
    Writes (String.join (values.map (put elem))) (values.map (Element.leaf elem)) := by
  induction values with
  | nil => exact nil
  | cons v values ih =>
    rw [List.map_cons, String.join_cons]
    exact (leaf elem v).append ih

end Writes

section Loops

variable {α : Type} {f : α → Option String} {g : α → Option (List Element)}

/-- Two results, or none. -/
theorem Writes.bind {o : Option String} {o' : Option (List Element)} {k : String → Option String}
    {k' : List Element → Option (List Element)} (h : Option.Rel Writes o o')
    (hk : ∀ s ts, Writes s ts → Option.Rel Writes (k s) (k' ts)) :
    Option.Rel Writes (o.bind k) (o'.bind k') := by
  cases h with
  | none => exact .none
  | some h => exact hk _ _ h

/-- The same value decides on both sides. -/
theorem Writes.bind_same {β : Type} (o : Option β) {k : β → Option String}
    {k' : β → Option (List Element)} (hk : ∀ x, Option.Rel Writes (k x) (k' x)) :
    Option.Rel Writes (o.bind k) (o.bind k') := by
  cases o with
  | none => exact .none
  | some x => exact hk x

theorem Writes.map {β : Type} (o : Option β) {k : β → String} {k' : β → List Element}
    (hk : ∀ x, Writes (k x) (k' x)) : Option.Rel Writes (o.map k) (o.map k') := by
  cases o with
  | none => exact .none
  | some x => exact .some (hk x)

/-- A part that is left out when it cannot be had. -/
theorem Writes.getD {o : Option String} {o' : Option (List Element)} (h : Option.Rel Writes o o') :
    Writes (o.getD "") (o'.getD []) := by
  cases h with
  | none => exact .nil
  | some h => exact h

/-- A loop writes the trees of its rounds. -/
theorem Writes.all (h : ∀ x, Option.Rel Writes (f x) (g x)) (xs : List α) :
    Option.Rel Writes (putAll f xs) (treesAll g xs) := by
  induction xs with
  | nil => exact .some Writes.nil
  | cons x xs ih =>
    have hcons : treesAll g (x :: xs) =
        (g x).bind (fun ts => (treesAll g xs).bind (fun us => some (ts ++ us))) := by
      unfold treesAll
      rw [List.mapM_cons]
      cases g x with
      | none => rfl
      | some ts => cases List.mapM g xs <;> rfl
    rw [hcons]
    exact Writes.bind (h x) fun s ts hs => Writes.bind ih fun s' us hs' => .some (hs.append hs')

/-- A loop whose rounds cannot fail. -/
theorem Writes.allSome {f : α → String} {g : α → List Element} (h : ∀ x, Writes (f x) (g x))
    (xs : List α) : ∃ s, putAll (fun x => some (f x)) xs = some s ∧ Writes s (xs.flatMap g) := by
  induction xs with
  | nil => exact ⟨"", rfl, .nil⟩
  | cons x xs ih =>
    obtain ⟨s, hs, hw⟩ := ih
    refine ⟨f x ++ s, ?_, (h x).append hw⟩
    rw [putAll, hs]
    rfl

end Loops

/-! ### The functions of the source -/

theorem writes_flowTable (db : Db) (row : Row FlowTable) :
    Writes (flowTableConfig db row) (flowTableTrees db row) := by
  unfold flowTableConfig flowTableTrees
  cases findFlowtableId db row.uuid with
  | none => exact .nil
  | some key =>
    refine .node _ ?_
    rw [String.append_assoc]
    exact (Writes.leaf _ _).append ((Writes.option _ _).append (.option _ _))

theorem writes_queueProperties (q : Queue) : Writes (queueProperties q) (propertyTrees q) := by
  unfold queueProperties propertyTrees
  rw [String.append_assoc, String.append_assoc, List.flatMap_cons, List.flatMap_cons,
    List.flatMap_cons, List.flatMap_cons, List.flatMap_nil, List.append_nil]
  exact (Writes.option _ _).append ((Writes.option _ _).append
    ((Writes.option _ _).append (.option _ _)))

theorem writes_queue (db : Db) (row : Row Queue) :
    Writes (queueConfig db row) (queueTrees db row) := by
  unfold queueConfig queueTrees
  cases row.val.rid.filter (· ≠ "") with
  | none => exact .nil
  | some rid =>
    refine .node _ ?_
    rw [String.append_assoc, String.append_assoc, List.append_assoc]
    exact (Writes.leaf _ _).append ((Writes.option _ _).append
      ((Writes.option _ _).append (.nonempty _ (writes_queueProperties row.val))))

theorem writes_features (mask : BitVec 32) :
    Writes (dumpPortFeatures mask) (featureTrees mask) :=
  (((Writes.join _ _).append (.leaf _ _)).append (.join _ _)).append (.leaf _ _)

theorem writes_portConfiguration (env : Env) (bridge name : String) (row : Interface) :
    Writes (portConfiguration env bridge name row)
      (portConfigurationTrees env bridge name row) := by
  unfold portConfiguration portConfigurationTrees
  cases env.ofPort bridge name with
  | some c =>
    exact .node _ ((((Writes.leaf _ _).append (.leaf _ _)).append (.leaf _ _)).append (.leaf _ _))
  | none =>
    cases row.adminState with
    | none => exact .nil
    | some s => exact .node _ (.leaf _ _)

theorem writes_tunnel (row : Interface) : Writes (portTunnel row) (tunnelTrees row) := by
  unfold portTunnel tunnelTrees
  cases row.externalIds.get "tunnel_type" with
  | none => exact .nil
  | some type =>
    exact .node _ (((Writes.option _ _).append (.option _ _)).append
      (.ite ((Writes.option _ _).append (.option _ _)) (.ite (.option _ _) .nil)))

theorem writes_interface (env : Env) (w : World) (bridge : String) (row : Interface) :
    Writes (interfaceConfig env w bridge row) (interfaceTrees env w bridge row) := by
  unfold interfaceConfig interfaceTrees
  refine .node _ ?_
  rw [String.append_assoc, String.append_assoc, String.append_assoc, List.append_assoc,
    List.append_assoc]
  exact (Writes.leaf _ _).append ((Writes.option _ _).append
    ((writes_portConfiguration env bridge _ row).append
      ((Writes.ite (.node _ (.node _ (writes_features _))) .nil).append (writes_tunnel row))))

theorem writes_ports (env : Env) (w : World) (b : Bridge) :
    Option.Rel Writes (getPortsConfig env w b) (portsTrees env w b) := by
  refine Writes.all (fun u => ?_) b.ports
  unfold portConfig
  exact Writes.bind_same _ fun p =>
    Writes.all (fun i => Writes.map _ (writes_interface env w _)) p.interfaces

theorem writes_controller (row : Controller) :
    Option.Rel Writes (getControllerConfig row) (controllerTrees row) :=
  Writes.bind_same _ fun _ => Writes.bind_same _ fun _ => .some (.node _
    (((((Writes.leaf _ _).append (.leaf _ _)).append (.option _ _)).append
      (.option _ _)).append (.leaf _ _)))

theorem writes_references (db : Db) (b : Bridge) (cert : Option String) :
    Option.Rel Writes (bridgeResources db b cert) (referenceTrees db b cert) := by
  have htable : ∀ t : Int × Uuid, Writes (put "flow-table" (toString t.1))
      [Element.leaf "flow-table" (toString t.1)] := fun t => .leaf _ _
  obtain ⟨ts, hts, htables⟩ := Writes.allSome htable b.flowTables
  rw [← List.map_eq_flatMap] at htables
  have hports := Writes.all (fun u => Writes.map (db.port.deref u)
    (fun p => .leaf "port" (orNull p.name))) b.ports
  have hqueues := Writes.all (fun u => Writes.map (db.port.deref u)
    (fun p => .join "queue" (portQueueIds db p))) b.ports
  unfold bridgeResources referenceTrees
  refine Writes.bind hports fun ps pts hps => ?_
  rw [hts]
  dsimp only [Option.bind_eq_bind, Option.bind_some]
  refine Writes.bind hqueues fun qs qts hqs => ?_
  exact .some (((hps.append htables).append hqs).append (.option _ _))

theorem writes_bridge (db : Db) (cert : Option String) (row : Bridge) :
    Option.Rel Writes (bridgeConfig db cert row) (bridgeTrees db cert row) := by
  have hcontrollers := Writes.all (fun u => Writes.bind_same (db.controller.deref u)
    writes_controller) row.controller
  have hswitch : ∀ dpid controllers cts resources rts, Writes controllers cts →
      Writes resources rts → Writes
        (put "switch" (put "id" (orNull row.name) ++ putOption "datapath-id" dpid ++
          putOption "lost-connection-behavior" (row.failMode.map failModeText) ++
          (if row.controller.isEmpty then "" else put "controllers" controllers) ++
          putNonempty "resources" resources))
        [.node "switch" (.leaf "id" (orNull row.name) :: (leafOption "datapath-id" dpid ++
          leafOption "lost-connection-behavior" (row.failMode.map failModeText) ++
          (if row.controller.isEmpty then [] else [.node "controllers" cts]) ++
          nodeNonempty "resources" rts))] := by
    intro dpid controllers cts resources rts hcs hrs
    refine .node _ ?_
    rw [String.append_assoc, String.append_assoc, String.append_assoc, List.append_assoc,
      List.append_assoc]
    exact (Writes.leaf _ _).append ((Writes.option _ _).append ((Writes.option _ _).append
      ((Writes.ite .nil (.node _ hcs)).append (.nonempty _ hrs))))
  unfold bridgeConfig bridgeTrees switchTrees
  cases row.datapathId with
  | none =>
    exact Writes.bind hcontrollers fun _ _ hcs =>
      Writes.bind (writes_references db row cert) fun _ _ hrs => .some (hswitch _ _ _ _ _ hcs hrs)
  | some d =>
    dsimp only
    cases datapathText d with
    | none => exact .none
    | some dpid =>
      exact Writes.bind hcontrollers fun _ _ hcs =>
        Writes.bind (writes_references db row cert) fun _ _ hrs =>
          .some (hswitch _ _ _ _ _ hcs hrs)

theorem writes_ownedCertificates (w : World) :
    Writes (getOwnedCertificatesConfig w) (ownedCertificateTrees w) :=
  Writes.getD (Writes.bind_same _ fun _ => Writes.bind_same _ fun _ => Writes.bind_same _ fun _ =>
    Writes.bind_same _ fun _ => Writes.bind_same _ fun _ => Writes.bind_same _ fun _ =>
      .some (.node _ (((Writes.leaf _ _).append (.leaf _ _)).append
        (.node _ ((Writes.leaf _ _).append (.leaf _ _))))))

theorem writes_externalCertificates (w : World) :
    Writes (getExternalCertificatesConfig w) (externalCertificateTrees w) :=
  Writes.getD (Writes.bind_same _ fun _ => Writes.bind_same _ fun _ => Writes.bind_same _ fun _ =>
    Writes.bind_same _ fun _ => .some (.node _ ((Writes.leaf _ _).append (.leaf _ _))))

/-- Everything in front of the root element's content. -/
def documentHead : String :=
  "<?xml version=\"1.0\"?><capable-switch xmlns=\"urn:onf:config:yang\">"

/-- The namespace declaration of the root element, and what it is read as. -/
def rootTag : List Char := " xmlns=\"urn:onf:config:yang\"".toList

def rootAttrs : List (List Char × List Char) :=
  [("xmlns".toList, "urn:onf:config:yang".toList)]

/-- `ofc_get_config_data` writes the trees between the tags of the root. -/
theorem writes_config (env : Env) {w : World} {id : String} (hid : w.csId = some id) :
    Option.Rel
      (fun s ts => ∃ body, Writes body ts ∧ s = documentHead ++ body ++ "</capable-switch>")
      (ofcGetConfigData env w) (configTrees env w id) := by
  obtain ⟨qs, hqs, hqueues⟩ := Writes.allSome (writes_queue w.idl) w.idl.queue.live
  obtain ⟨ts, hts, htables⟩ := Writes.allSome (writes_flowTable w.idl) w.idl.flowTable.live
  have hports := Writes.all (fun b : Row Bridge => writes_ports env w b.val) w.idl.bridge.live
  have hbridges := Writes.all
    (fun r : Row Bridge => writes_bridge w.idl (ownCertificate w.idl) r.val) w.idl.bridge.live
  unfold ofcGetConfigData configTrees resourcesConfig getBridgesConfig getQueuesConfig
    getFlowTablesConfig
  rw [hid, hqs, hts]
  dsimp only
  generalize putAll (fun b : Row Bridge => getPortsConfig env w b.val) w.idl.bridge.live = ps,
    treesAll (fun b : Row Bridge => portsTrees env w b.val) w.idl.bridge.live = pts at hports ⊢
  generalize putAll (fun r : Row Bridge => bridgeConfig w.idl (ownCertificate w.idl) r.val)
      w.idl.bridge.live = bs,
    treesAll (fun r : Row Bridge => bridgeTrees w.idl (ownCertificate w.idl) r.val)
      w.idl.bridge.live = bts at hbridges ⊢
  cases hports with
  | none => exact .none
  | some hps =>
    cases hbridges with
    | none => exact .none
    | some hbs =>
      refine .some ⟨_, (Writes.leaf "id" id).append ((Writes.nonempty "resources"
        ((((hps.append hqueues).append (writes_ownedCertificates w)).append
          (writes_externalCertificates w)).append htables)).append
        (.nonempty "logical-switches" hbs)), ?_⟩
      simp only [documentHead, String.append_assoc]

/-! ### Reading it back -/

/-- `ofc_get_config_data` returns a well-formed document, and its elements are
those of the configuration, each leaf with exactly the stored value. -/
def ReadsBack (env : Env) (w : World) (id : String) : Prop :=
  ∃ text ts, ofcGetConfigData env w = some text ∧ configTrees env w id = some ts ∧
    document xml10 text.toList =
      some [.elem "capable-switch".toList rootAttrs (itemAll xml10 ts)]

/-- A text between the tags of the root element. -/
theorem toList_document (body : String) : (documentHead ++ body ++ "</capable-switch>").toList =
    "<?xml version=\"1.0\"?>".toList ++ '<' :: ("capable-switch".toList ++ (rootTag ++
      '>' :: (body.toList ++ '<' :: '/' :: ("capable-switch".toList ++ ['>'])))) := by
  have hhead : documentHead.toList = "<?xml version=\"1.0\"?>".toList ++
      '<' :: ("capable-switch".toList ++ (rootTag ++ ['>'])) := by decide
  have hend : "</capable-switch>".toList = '<' :: '/' :: ("capable-switch".toList ++ ['>']) := by
    decide
  rw [String.toList_append, String.toList_append, hhead, hend]
  simp only [List.append_assoc, List.cons_append, List.nil_append]

/-- For every database, every environment and every id: the running
configuration can be read back if and only if every name in it is one and
every value stands for itself. -/
theorem running_reads_back_iff (env : Env) (w : World) (id : String) (hid : w.csId = some id) :
    ReadsBack env w id ↔ ∃ ts, configTrees env w id = some ts ∧ ReadableAll ts := by
  have hread : ∀ {body : String} {ts : List Element}, Writes body ts →
      (document xml10 (documentHead ++ body ++ "</capable-switch>").toList =
        some [.elem "capable-switch".toList rootAttrs (itemAll xml10 ts)] ↔ ReadableAll ts) := by
    intro body ts hbody
    rw [toList_document, hbody]
    refine document_raw_iff (fun cs => rfl) (by decide) ?_ (fun r => rfl)
    rintro c ⟨⟩
    decide
  have hwrites := writes_config env hid
  constructor
  · rintro ⟨text, ts, htext, hts, hdoc⟩
    rw [htext, hts] at hwrites
    cases hwrites with
    | some h =>
      obtain ⟨body, hbody, rfl⟩ := h
      exact ⟨ts, hts, (hread hbody).mp hdoc⟩
  · rintro ⟨ts, hts, hok⟩
    rw [hts] at hwrites
    generalize htext : ofcGetConfigData env w = o at hwrites
    cases hwrites with
    | some h =>
      obtain ⟨body, hbody, rfl⟩ := h
      exact ⟨_, ts, htext, hts, (hread hbody).mpr hok⟩

/-- A switch of the given name, with nothing else. -/
def namedSwitch (name : String) : World :=
  { idl := { bridge := [⟨1, false, true, { name := some name }⟩] }, csId := some "openvswitch" }

/-- The name `br0` is read back. -/
theorem running_reads_back_br0 : ReadsBack grantingEnv (namedSwitch "br0") "openvswitch" := by
  have hok : (configTrees grantingEnv (namedSwitch "br0") "openvswitch").any
      (fun ts => decide (ReadableAll ts)) = true := by decide
  obtain ⟨ts, hts, hread⟩ := (Option.any_eq_true _ _).mp hok
  exact (running_reads_back_iff grantingEnv (namedSwitch "br0") "openvswitch" rfl).mpr
    ⟨ts, hts, of_decide_eq_true hread⟩

/-- The string for a switch that is called `a&b`. -/
def ampersandText : String :=
  documentHead ++
    "<id>openvswitch</id><logical-switches><switch><id>a&b</id></switch></logical-switches>" ++
    "</capable-switch>"

/-- An edit may name a switch `a&amp;b`. The string then has the name as it is
stored, and is not a document. -/
theorem ampersand_not_read_back :
    ofcGetConfigData grantingEnv (namedSwitch "a&b") = some ampersandText ∧
    (document xml10 ampersandText.toList).isNone = true ∧
    ¬ ReadsBack grantingEnv (namedSwitch "a&b") "openvswitch" := by
  have htext : ofcGetConfigData grantingEnv (namedSwitch "a&b") = some ampersandText := by
    decide +kernel
  have hnone : (document xml10 ampersandText.toList).isNone = true := by decide +kernel
  refine ⟨htext, hnone, ?_⟩
  rintro ⟨text, ts, htext', -, hdoc⟩
  obtain rfl : ampersandText = text := Option.some.inj (htext.symm.trans htext')
  rw [hdoc] at hnone
  cases hnone

end OfConfig.Ovs
