import OfConfig.Ovs.Db
import OfConfig.Ovs.Number

/-!
# `OfConfig.Ovs.Port`: ports, interfaces and tunnels

The functions of `ovs-data.c` below `/capable-switch/resources/port`. A
port of OF-CONFIG is a row of `Port` and a row of `Interface` with the
same name; some of its leaves are not in the database at all but set by
`ioctl` or OpenFlow.
-/

set_option autoImplicit false

namespace OfConfig.Ovs

open OfConfig.Lib OfConfig.Xml OfConfig.Edit

/-- `aux->children->content`, where the code does not check for a
child. -/
def contentOf (n : Node) : Txn (Option String) :=
  match n.children with
  | [] => crash
  | c :: _ => pure c.label.content

/-- The error for a port that is not there. -/
def noSuchPort : NcErr := badElem "name" "Port does not exist in OVSDB"

/-- The first interface of a name. -/
def findInterface (name : Option String) (db : Db) : Option (Row Interface) :=
  db.interface.first (fun i => name = i.name)

/-- The first port of a name. -/
def findPort (name : Option String) (db : Db) : Option (Row Port) :=
  db.port.first (fun p => name = p.name)

/-- Change an interface. -/
def updateInterface (u : Uuid) (f : Interface → Interface) : Txn Unit :=
  modifyDb (fun db => { db with interface := db.interface.update u f })

/-- Change a port. -/
def updatePort (u : Uuid) (f : Port → Port) : Txn Unit :=
  modifyDb (fun db => { db with port := db.port.update u f })

/-- `txn_del_port` -/
def txnDelPort (portName : Option String) : Txn Unit := do
  let _ ← argument portName
  let port ← readDb (findPort portName)
  let iface ← readDb (findInterface portName)
  match iface, port with
  | some i, some p =>
    modifyDb (fun db => { db with port := db.port.delete p.uuid
                                  interface := db.interface.delete i.uuid })
  | _, _ => fail noSuchPort

/-- `txn_mod_port_reqnumber` -/
def txnModPortReqnumber (portName value : Option String) : Txn Unit := do
  let _ ← argument portName
  match ← readDb (findInterface portName) with
  | none => fail noSuchPort
  | some i => updateInterface i.uuid (fun r => { r with ofportRequest := value.map strtol })

/-! ### Tunnels -/

/-- The option of the interface for an element of a tunnel. -/
def tunnelOption (name : String) : Option String :=
  if name = "local-endpoint-ipv4-adress" then some "local_ip"
  else if name = "remote-endpoint-ipv4-adress" then some "remote_ip"
  else if name = "key" ∨ name = "vni" then some "key"
  else none

/-- `smap_add_once` with a value that may be null. -/
def addOption (u : Uuid) (key : String) (value : Option String) (present : Bool) : Txn Unit :=
  if present then pure ()
  else do
    let v ← deref value
    updateInterface u (fun r => { r with options := r.options.addOnce key v })

/-- `strcmp(ifc->name, port_name)` over the interfaces, up to the first
that is equal: a null name on the way is fatal. -/
def searchInterface (name : String) : List (Row Interface) → Txn (Row Interface)
  | [] => fail noSuchPort
  | r :: rs => do
      let n ← deref r.val.name
      if n = name then pure r else searchInterface name rs

/-- `txn_add_port_tunnel` -/
def txnAddPortTunnel (portName : Option String) (node : Node) : Txn Unit := do
  let name ← argument portName
  let ifc ← searchInterface name (← readDb (fun db => db.interface.live))
  Prog.forEach node.children (fun c => do
    match if c.label.isElement then tunnelOption c.label.name else none with
    | none => pure ()
    | some key =>
      let r ← readDb (fun db => db.interface.deref ifc.uuid)
      addOption ifc.uuid key (firstContent c) ((r.bind (fun r => r.options.get key)).isSome))
  updateInterface ifc.uuid (fun r =>
    { r with type := some (if node.label.name = "vxlan-tunnel" then "vxlan" else "gre")
             externalIds := r.externalIds.replace "tunnel_type" node.label.name })

/-- The type of an interface without a tunnel. -/
def plainType (env : Env) (name : String) : String :=
  if env.isSystem name then "system" else "internal"

/-- `txn_del_port_tunnel` -/
def txnDelPortTunnel (env : Env) (portName : Option String) (_ : Node) : Txn Unit := do
  match ← readDb (findInterface portName) with
  | none => fail (badElem "name" "Port not found in OVSDB.")
  | some i =>
    updateInterface i.uuid (fun r =>
      { r with options := ((r.options.remove "local_ip").remove "remote_ip").remove "key"
               externalIds := r.externalIds.remove "tunnel_type" })
    let name ← deref portName
    updateInterface i.uuid (fun r => { r with type := some (plainType env name) })

/-- The option of the interface that `txn_mod_port_tunnel_opt` sets. -/
def tunnelOptKey (name : String) : Option String :=
  if name = "checksum-present" then some "csum" else tunnelOption name

/-- `txn_mod_port_tunnel_opt` -/
def txnModPortTunnelOpt (portName : Option String) (nodeName : String) (value : Option String) :
    Txn Unit :=
  match tunnelOptKey nodeName with
  | none => fail { tag := .badElem, badElem := some nodeName }
  | some key => do
      match ← readDb (findInterface portName) with
      | none => fail { tag := .dataMissing }
      | some i =>
        updateInterface i.uuid (fun r =>
          { r with options :=
              match value with
              | some v => r.options.replace key v
              | none => r.options.remove key })

/-! ### Advertised features -/

/-- The bit of `ethtool.h` with the given number. -/
def bit (n : Nat) : BitVec 32 := 1#32 <<< n

/-- `ADVERTISED_Autoneg` -/
def autonegBit : BitVec 32 := bit 6

/-- `ADVERTISED_Pause` -/
def pauseBit : BitVec 32 := bit 13

/-- `ADVERTISED_Asym_Pause` -/
def asymPauseBit : BitVec 32 := bit 14

/-- The table `rates`. -/
def rates : List (BitVec 32 × String) :=
  [(bit 0, "10Mb-HD"), (bit 1, "10Mb-FD"), (bit 2, "100Mb-HD"), (bit 3, "100Mb-FD"),
   (bit 4, "1Gb-HD"), (bit 5, "1Gb-FD"), (bit 17, "1Gb-FD"), (bit 12, "10Gb"), (bit 18, "10Gb"),
   (bit 19, "10Gb"), (bit 23, "40Gb"), (bit 24, "40Gb"), (bit 25, "40Gb"), (bit 26, "40Gb")]

/-- The table `medium`. -/
def medium : List (BitVec 32 × String) := [(bit 7, "copper"), (bit 10, "fiber")]

/-- The bits of the first entry of a table with the given text; none if
there is no such entry. -/
def tableBits (table : List (BitVec 32 × String)) (text : Option String) : BitVec 32 :=
  ((table.find? (fun e => text = some e.2)).map Prod.fst).getD 0

/-- What an element of `advertised` sets on a new port. -/
def newAdvert (name : String) (text : Option String) (mask : BitVec 32) : BitVec 32 :=
  if name = "rate" then mask ||| tableBits rates text
  else if name = "medium" then mask ||| tableBits medium text
  else if name = "auto-negotiate" then
    if text = some "false" then mask &&& ~~~autonegBit else mask
  else if name = "pause" then
    if text = some "symetric" then mask ||| pauseBit
    else if text = some "asymetric" then mask ||| asymPauseBit
    else mask
  else mask

/-- What an element of `advertised` sets on an existing port. -/
def addAdvert (name : String) (text : Option String) (mask : BitVec 32) : BitVec 32 :=
  if name = "rate" then mask ||| tableBits rates text
  else if name = "medium" then mask ||| tableBits medium text
  else if name = "auto-negotiate" then
    if text = some "false" then mask &&& ~~~autonegBit
    else if text = some "true" then mask ||| autonegBit
    else mask
  else if name = "pause" then
    if text = some "asymetric" then (mask &&& ~~~pauseBit) ||| asymPauseBit
    else if text = some "symetric" then (mask &&& ~~~asymPauseBit) ||| pauseBit
    else mask
  else mask

/-- What a deleted element of `advertised` clears. -/
def delAdvert (name : String) (text : Option String) (mask : BitVec 32) : BitVec 32 :=
  if name = "rate" then mask &&& ~~~tableBits rates text
  else if name = "medium" then mask &&& ~~~tableBits medium text
  else if name = "auto-negotiate" then mask ||| autonegBit
  else if name = "pause" then (mask &&& ~~~pauseBit) &&& ~~~asymPauseBit
  else mask

/-- Does the code read the content of the element? -/
def readsAdvert (deleting : Bool) (name : String) : Bool :=
  name = "rate" || name = "medium" || (!deleting && (name = "auto-negotiate" || name = "pause"))

/-- `dev_set_ethtool` -/
def setAdvertising (name : String) (mask : BitVec 32) : Txn Unit :=
  Prog.update (fun w =>
    { w with advertising := fun n => if n = name then mask else w.advertising n })

/-- The content of an element of `advertised`, where the code reads it. -/
def advertText (deleting : Bool) (node : Node) : Txn (Option String) :=
  if readsAdvert deleting node.label.name then contentOf node else pure none

/-- The common part of `txn_add_port_advert` and `txn_del_port_advert`. -/
def modPortAdvert (env : Env) (deleting : Bool)
    (f : String → Option String → BitVec 32 → BitVec 32) (portName : Option String)
    (node : Node) : Txn Unit := do
  let name ← argument portName
  if !env.isSystem name then
    fail (opFailed "Unable to set advertised values on this type of interface")
  else do
    let text ← advertText deleting node
    let mask ← Prog.read (fun w => w.advertising name)
    setAdvertising name (f node.label.name text mask)

/-- `txn_add_port_advert` -/
def txnAddPortAdvert (env : Env) (portName : Option String) (node : Node) : Txn Unit :=
  modPortAdvert env false addAdvert portName node

/-- `txn_del_port_advert` -/
def txnDelPortAdvert (env : Env) (portName : Option String) (node : Node) : Txn Unit :=
  modPortAdvert env true delAdvert portName node

/-! ### Configuration over OpenFlow -/

/-- `find_bridge_with_port`. A null name is compared with the first
interface that is met. -/
def findBridgeWithPort (portName : Option String) (db : Db) : Option (Option String) :=
  let names := fun (b : Bridge) =>
    (b.ports.filterMap db.port.deref).flatMap (fun p =>
      (p.interfaces.filterMap db.interface.deref).map Interface.name)
  ((db.bridge.live.find? (fun b => (names b.val).any (fun n => n = portName))).map
    (fun b => b.val.name))

/-- Is there any interface in any bridge? -/
def bridgesHaveInterface (db : Db) : Bool :=
  db.bridge.live.any (fun b =>
    (b.val.ports.filterMap db.port.deref).any (fun p => !p.interfaces.isEmpty))

/-- `IFF_UP` -/
def iffUp : BitVec 32 := 1#32

/-- What `SIOCGIFFLAGS` gives of a flag word: `ifr_flags` is a `short`. -/
def readIfrFlags (word : BitVec 32) : BitVec 32 := (word.setWidth 16).signExtend 32

/-- The flag word after `SIOCSIFFLAGS`. -/
def writeIfrFlags (word flags : BitVec 32) : BitVec 32 :=
  word.extractLsb' 16 16 ++ flags.setWidth 16

/-- `dev_get_flags`: zero when the ioctl fails. -/
def devGetFlags (name : String) : Txn (BitVec 32) :=
  Prog.read (fun w => ((w.flags name).map readIfrFlags).getD 0)

/-- `dev_set_flags`, whose result is not looked at. -/
def devSetFlags (name : String) (flags : BitVec 32) : Txn Unit :=
  Prog.update (fun w =>
    match w.flags name with
    | some word =>
      { w with flags := fun n =>
          if n = name then some (writeIfrFlags word flags) else w.flags n }
    | none => w)

/-- The check at the end of `txn_mod_port_admin_state`. -/
def checkFlags (name : String) (up : Bool) : Txn Unit := do
  let flags ← devGetFlags name
  if (flags &&& iffUp != 0) = up then pure ()
  else fail (opFailed "Interface admin state not set to the requested value.")

/-- `txn_mod_port_admin_state`. For a deleted value the code tests
`flags && IFF_UP`, which is true for every flag word but zero. -/
def txnModPortAdminState (portName value : Option String) : Txn Unit := do
  let name ← argument portName
  let flags ← devGetFlags name
  match value with
  | none =>
    if flags ≠ 0 then pure ()
    else do
      devSetFlags name (flags ||| iffUp)
      checkFlags name true
  | some v =>
    if v = "up" then do
      devSetFlags name (flags ||| iffUp)
      checkFlags name true
    else if v = "down" then do
      devSetFlags name (flags &&& ~~~iffUp)
      checkFlags name false
    else fail (badElem "admin-state" "Invalid value to set.")

/-- The bit of an element of `configuration`. -/
def portBit (name : String) : Option PortBit :=
  if name = "no-receive" then some .noRecv
  else if name = "no-forward" then some .noFwd
  else if name = "no-packet-in" then some .noPacketIn
  else if name = "admin-state" then some .portDown
  else none

/-- The value of a bit; a deleted element has its default. -/
def portBitValue (b : PortBit) (value : Option String) : Option Bool :=
  let off := if b = .portDown then "up" else "false"
  let on := if b = .portDown then "down" else "true"
  if value = none ∨ value = some off then some false
  else if value = some on then some true
  else none

/-- `of_mod_port_cfg` -/
def ofModPortCfg (env : Env) (portName : Option String) (nodeName : String)
    (value : Option String) : Txn Unit := do
  if portName.isNone && (← readDb bridgesHaveInterface) then crash
  else
    match ← readDb (findBridgeWithPort portName) with
    | none | some none =>
      fail (opFailed "The bridge with the port being modified not found.")
    | some (some br) => do
        let name ← deref portName
        match portBit nodeName with
        | none => fail (badElem nodeName "Invalid element name.")
        | some b =>
          if b = .portDown ∧ env.isSystem name then txnModPortAdminState portName value
          else
            match portBitValue b value with
            | none => fail (badElem nodeName "Invalid element value.")
            | some v =>
              match env.portMod br name b v with
              | none => pure ()
              | some e => fail e

/-- The namespace of OF-CONFIG. -/
def ofcNs : String := "urn:onf:config:yang"

/-- The elements `//ofc:port/ofc:configuration/..` of a document. -/
def portsWithConfiguration (root : Node) : List Node :=
  let inNs := fun (n : Node) (name : String) =>
    n.label.isElement && n.label.name = name && n.label.ns = some ofcNs
  ((Rose.positions [root]).map Prod.snd).filter (fun n =>
    inNs n "port" && n.children.any (fun c => inNs c "configuration"))

/-- `of_post_ports` -/
def ofPostPorts (env : Env) (cfg : Option Node) : Txn Unit := do
  let added ← Prog.read Work.addedInterface
  match cfg with
  | none => pure ()
  | some root =>
    if !added then pure ()
    else
      Prog.forEach (portsWithConfiguration root) (fun port =>
        match go2node port.children "configuration" with
        | none => pure ()
        | some conf =>
          Prog.forEach conf.children (fun c =>
            ofModPortCfg env (getKey (some port) "name") c.label.name (firstContent c)))

/-! ### A new port -/

/-- The variables of `txn_add_port`: the two rows, the flag `tunnel`, and
`port_name`, which is set by a tunnel only. -/
structure NewPort where
  port : Uuid
  iface : Uuid
  tunnel : Bool := false
  portName : Option String := none

/-- The name of an interface of the copy. -/
def interfaceName (u : Uuid) (db : Db) : Option String :=
  (db.interface.deref u).bind Interface.name

/-- The element `features` of a new port. `port_name` is not initialised
unless a tunnel was before it. -/
def addFeatures (env : Env) (st : NewPort) (node : Node) : Txn Unit :=
  match go2node node.children "advertised" with
  | none => pure ()
  | some advert => do
      let name ← deref st.portName
      if !env.isSystem name then pure ()
      else do
        let ifname ← deref (← readDb (interfaceName st.iface))
        setAdvertising ifname autonegBit
        Prog.forEach advert.children (fun c =>
          if c.label.isElement && readsAdvert false c.label.name then do
            let text ← contentOf c
            let mask ← Prog.read (fun w => w.advertising ifname)
            setAdvertising ifname (newAdvert c.label.name text mask)
          else pure ())

/-- One child of the new port. -/
def addPortChild (env : Env) (node : Node) (st : NewPort) (c : Node) : Txn NewPort :=
  let name := c.label.name
  if !c.label.isElement then pure st
  else if name = "name" then
    match firstContent c with
    | none => fail (badElem "name" "Invalid name of the port.")
    | some v => do
        updateInterface st.iface (fun r => { r with name := some v })
        updatePort st.port (fun r => { r with name := some v })
        return st
  else if name = "requested-number" then do
    txnModPortReqnumber (← readDb (interfaceName st.iface)) (firstContent c)
    return st
  else if name = "configuration" then do
    Prog.update (fun w => { w with addedInterface := true })
    return st
  else if isTunnel (some name) then
    if st.tunnel then
      fail (badElem name "Multiple branches of the \"tunnel-type\" choice.")
    else do
      let portName := getKey (some node) "name"
      txnAddPortTunnel portName c
      return { st with tunnel := true, portName := portName }
  else if name = "features" then do
    addFeatures env st c
    return st
  else pure st

/-- The loop over the children of the new port. -/
def addPortChildren (env : Env) (node : Node) : List Node → NewPort → Txn NewPort
  | [], st => pure st
  | c :: cs, st => do addPortChildren env node cs (← addPortChild env node st c)

/-- `txn_add_port` -/
def txnAddPort (env : Env) (node : Node) : Txn Unit := do
  let p ← newUuid
  let i ← newUuid
  modifyDb (fun db => { db with port := db.port.insert p { interfaces := [i] }
                                interface := db.interface.insert i {} })
  let st ← addPortChildren env node node.children ⟨p, i, false, none⟩
  if st.tunnel then pure ()
  else do
    let name ← deref ((← readDb (fun db => db.port.deref p)).bind Port.name)
    updateInterface i (fun r => { r with type := some (plainType env name) })
  Prog.update (fun w => { w with addedInterface := true })

end OfConfig.Ovs
