import OfConfig.Ovs.Switch

/-!
# `OfConfig.Ovs.Render`: the running configuration as a text

`ofc_get_config_data` and the functions it calls. The document is put
together with `printf` formats; values are written as they are. A
function here gives the string it would return, empty for a null pointer,
or `none` where the code uses a pointer it must not use.
-/

set_option autoImplicit false

namespace OfConfig.Ovs

open OfConfig.Lib OfConfig.Xml OfConfig.Edit

/-- The format `<%s>%s</%s>`. -/
def put (elem value : String) : String := "<" ++ elem ++ ">" ++ value ++ "</" ++ elem ++ ">"

/-- A leaf that is written only when there is a value. -/
def putOption (elem : String) (value : Option String) : String :=
  match value with
  | none => ""
  | some v => put elem v

/-- A container that is written only when it has content. -/
def putNonempty (elem content : String) : String := if content = "" then "" else put elem content

/-- A null pointer as the C library prints it. -/
def orNull (s : Option String) : String := s.getD "(null)"

/-- The outputs of a loop, one after the other. -/
def putAll {α : Type} (f : α → Option String) : List α → Option String
  | [] => some ""
  | x :: xs => do return (← f x) ++ (← putAll f xs)

/-- `find_and_append_smap_val` -/
def findAndAppendSmapVal (s : Smap) (key elem : String) : String := putOption elem (s.get key)

/-! ### Resources -/

/-- `find_flowtable_id`: the key under which the first bridge refers to the
table. -/
def findFlowtableId (db : Db) (u : Uuid) : Option Int :=
  ((db.bridge.live.flatMap (fun b => b.val.flowTables)).find? (fun t => t.2 = u)).map Prod.fst

/-- One flow table. -/
def flowTableConfig (db : Db) (row : Row FlowTable) : String :=
  match findFlowtableId db row.uuid with
  | none => ""
  | some key =>
    put "flow-table" (put "table-id" (toString key) ++
      putOption "resource-id" ((row.val.externalIds.get ofcResourceId).filter (· ≠ "")) ++
      putOption "name" row.val.name)

/-- `get_flow_tables_config` -/
def getFlowTablesConfig (db : Db) : Option String :=
  putAll (fun r => some (flowTableConfig db r)) db.flowTable.live

/-- The properties of a queue. -/
def queueProperties (q : Queue) : String :=
  findAndAppendSmapVal q.otherConfig "min-rate" "min-rate" ++
  findAndAppendSmapVal q.otherConfig "max-rate" "max-rate" ++
  findAndAppendSmapVal q.otherConfig "experimenter-id" "experimenter-id" ++
  findAndAppendSmapVal q.otherConfig "experimenter-data" "experimenter-data"

/-- One queue. -/
def queueConfig (db : Db) (row : Row Queue) : String :=
  match row.val.rid.filter (· ≠ "") with
  | none => ""
  | some rid =>
    put "queue" (put "resource-id" rid ++ putOption "id" (row.val.externalIds.get "ofc_id") ++
      putOption "port" ((findQueuePort rid db).map (fun p => orNull p.val.name)) ++
      putNonempty "properties" (queueProperties row.val))

/-- `get_queues_config` -/
def getQueuesConfig (db : Db) : Option String :=
  putAll (fun r => some (queueConfig db r)) db.queue.live

/-- The texts of a table whose bits are in the mask. -/
def maskTexts (table : List (BitVec 32 × String)) (mask : BitVec 32) : List String :=
  (table.filter (fun e => e.1 &&& mask ≠ 0)).map Prod.snd

/-- `dump_port_features` -/
def dumpPortFeatures (mask : BitVec 32) : String :=
  String.join ((maskTexts rates mask).map (put "rate")) ++
  put "auto-negotiate" (if autonegBit &&& mask ≠ 0 then "true" else "false") ++
  String.join ((maskTexts medium mask).map (put "medium")) ++
  put "pause" (if asymPauseBit &&& mask ≠ 0 then "asymmetric"
    else if pauseBit &&& mask ≠ 0 then "symmetric" else "unsupported")

/-- `OFC_PORT_CONF_BIT` -/
def confBit (b : Bool) : String := if b then "true" else "false"

/-- The configuration of a port: from OpenFlow, else from the database. -/
def portConfiguration (env : Env) (bridge name : String) (row : Interface) : String :=
  match env.ofPort bridge name with
  | some c =>
    put "configuration" (put "admin-state" (if c .portDown then "down" else "up") ++
      put "no-receive" (confBit (c .noRecv)) ++ put "no-forward" (confBit (c .noFwd)) ++
      put "no-packet-in" (confBit (c .noPacketIn)))
  | none =>
    match row.adminState with
    | none => ""
    | some s => put "configuration" (put "admin-state" s)

/-- The tunnel of a port. Its type is the name of the element. -/
def portTunnel (row : Interface) : String :=
  match row.externalIds.get "tunnel_type" with
  | none => ""
  | some type =>
    put type (findAndAppendSmapVal row.options "local_ip" "local-endpoint-ipv4-adress" ++
      findAndAppendSmapVal row.options "remote_ip" "remote-endpoint-ipv4-adress" ++
      (if type = "ipgre-tunnel" then
        findAndAppendSmapVal row.options "csum" "checksum-present" ++
        findAndAppendSmapVal row.options "key" "key"
      else if type = "vxlan-tunnel" then findAndAppendSmapVal row.options "key" "vni"
      else ""))

/-- One interface of a port of a bridge. -/
def interfaceConfig (env : Env) (w : World) (bridge : String) (row : Interface) : String :=
  let name := orNull row.name
  put "port" (put "name" name ++
    putOption "requested-number" (row.ofportRequest.map (fun n => toString (n % 2 ^ 64))) ++
    portConfiguration env bridge name row ++
    (if env.isSystem name then
      put "features" (put "advertised" (dumpPortFeatures (w.advertising name))) else "") ++
    portTunnel row)

/-- The interfaces of one port of a bridge. -/
def portConfig (env : Env) (w : World) (bridge : String) (u : Uuid) : Option String := do
  let p ← w.idl.port.deref u
  putAll (fun i => (w.idl.interface.deref i).map (interfaceConfig env w bridge)) p.interfaces

/-- `get_ports_config` -/
def getPortsConfig (env : Env) (w : World) (b : Bridge) : Option String :=
  putAll (portConfig env w (orNull b.name)) b.ports

/-! ### Logical switches -/

/-- `parse_target_to_addr`: protocol, address and port. Without a colon
the search for a bracket starts from a null pointer. -/
def parseTargetToAddr (t : String) : Option (String × String × Option String) :=
  let cs := t.toList
  match cs.dropWhile (· ≠ ':') with
  | [] => none
  | _ :: rest =>
    let proto := String.ofList (cs.takeWhile (· ≠ ':'))
    let isIpv6 := rest.contains '['
    -- the character after the colon is taken for the bracket
    let addr := if isIpv6 then rest.drop 1 else rest
    let stop := if isIpv6 then ']' else ':'
    let after := addr.dropWhile (· ≠ stop)
    let delim := if isIpv6 then after.drop 1 else after
    let port := match delim with
      | ':' :: p => some (String.ofList p)
      | _ => none
    some (if proto = "ssl" then "tls" else proto,
      String.ofList (addr.takeWhile (· ≠ stop)), port)

/-- `get_controller_config` -/
def getControllerConfig (row : Controller) : Option String := do
  let target ← row.shown
  let (protocol, address, port) ← parseTargetToAddr target
  return put "controller" (put "id" (orNull row.id) ++ put "ip-address" address ++
    putOption "port" port ++ putOption "local-ip-address" row.localIp ++ put "protocol" protocol)

/-- The rounds of the loop that writes a datapath id with colons, at the
place `j - 1`, from the byte `i` of the id on; `none` when one reads beyond
its end. -/
def colonLoop (id : List UInt8) : Nat → Nat → Nat → Option (List UInt8)
  | 0, _, _ => some []
  | n + 1, i, j =>
    if j % 3 = 0 then (colonLoop id n i (j + 1)).map (colonByte :: ·)
    else do
      let c ← byteAt id i
      return c :: (← colonLoop id n (i + 1) (j + 1))

/-- The string that `dpid[24]` holds after its loop. -/
def insertColons (id : List UInt8) : Option (List UInt8) :=
  (colonLoop id 23 0 1).bind (fun buf => cString (buf ++ [0]))

/-- The id of a datapath as it is written. -/
def datapathText (dpid : String) : Option String := (insertColons (bytesOf dpid)).map textOf

/-- The behaviour without a controller. -/
def failModeText (mode : String) : String :=
  if mode = "standalone" then "failStandaloneMode" else "failSecureMode"

/-- The `resource-id`s of the queues of a port of a bridge. -/
def portQueueIds (db : Db) (p : Port) : List String :=
  (portQueues db p).filterMap (fun q => (db.queue.deref q.2).bind Queue.rid)

/-- The references of a switch. -/
def bridgeResources (db : Db) (b : Bridge) (cert : Option String) : Option String := do
  let ports ← putAll (fun u => (db.port.deref u).map (fun p => put "port" (orNull p.name))) b.ports
  let tables ← putAll (fun t => some (put "flow-table" (toString t.1))) b.flowTables
  let queues ← putAll (fun u =>
    (db.port.deref u).map (fun p => String.join ((portQueueIds db p).map (put "queue")))) b.ports
  return ports ++ tables ++ queues ++ putOption "certificate" cert

/-- One switch. -/
def bridgeConfig (db : Db) (cert : Option String) (row : Bridge) : Option String := do
  let dpid ← match row.datapathId with
    | none => some none
    | some d => (datapathText d).map some
  let controllers ← putAll (fun u => (db.controller.deref u).bind getControllerConfig)
    row.controller
  let resources ← bridgeResources db row cert
  return put "switch" (put "id" (orNull row.name) ++ putOption "datapath-id" dpid ++
    putOption "lost-connection-behavior" (row.failMode.map failModeText) ++
    (if row.controller.isEmpty then "" else put "controllers" controllers) ++
    putNonempty "resources" resources)

/-- The owned certificate that all switches refer to. -/
def ownCertificate (db : Db) : Option String := do
  let ovs ← db.openVswitch.first (fun _ => true)
  let ssl ← ovs.val.ssl.bind db.ssl.deref
  ssl.externalIds.get ofcResidOwn

/-- `get_bridges_config` -/
def getBridgesConfig (db : Db) : Option String :=
  putAll (fun r => bridgeConfig db (ownCertificate db) r.val) db.bridge.live

/-! ### Certificates -/

/-- What is printed of a text from a position on, when terminating zeros
are written at the given positions. -/
def printFrom (cs : List Char) (start : Nat) (zeros : List Nat) : String :=
  match (zeros.filter (start ≤ ·)).min? with
  | some z => String.ofList ((cs.drop start).take (z - start))
  | none => String.ofList (cs.drop start)

/-- The certificate in a file. -/
def certOfFile (w : World) (path : String) : Option String := do
  let cs := (← w.files.get path).toList
  let b ← strstr "-----BEGIN CERTIFICATE-----\n".toList cs
  let e ← strstr "\n-----END CERTIFICATE-----".toList cs
  return printFrom cs (b + 28) [e]

/-- The type and the data of the private key in a file. -/
def keyOfFile (w : World) (path : String) : Option (String × String) := do
  let cs := (← w.files.get path).toList
  let (b, e) ← pemMarkers cs
  return (String.ofList ((cs.drop (e + 10)).take 3), printFrom cs (b + 32) [e, e + 13])

/-- `get_owned_certificates_config` -/
def getOwnedCertificatesConfig (w : World) : String :=
  let parts : Option String := do
    let ssl ← w.idl.ssl.first (fun _ => true)
    let certificate ← ssl.val.certificate
    let privateKey ← ssl.val.privateKey
    let resid ← ssl.val.externalIds.get ofcResidOwn
    let cert ← certOfFile w certificate
    let (type, data) ← keyOfFile w privateKey
    return put "owned-certificate" (put "resource-id" resid ++ put "certificate" cert ++
      put "private-key" (put "key-type" type ++ put "key-data" data))
  parts.getD ""

/-- `get_external_certificates_config` -/
def getExternalCertificatesConfig (w : World) : String :=
  let parts : Option String := do
    let ssl ← w.idl.ssl.first (fun _ => true)
    let caCert ← ssl.val.caCert
    let resid ← ssl.val.externalIds.get ofcResidExt
    let cert ← certOfFile w caCert
    return put "external-certificate" (put "resource-id" resid ++ put "certificate" cert)
  parts.getD ""

/-! ### The document -/

/-- Everything below `/capable-switch/resources`. -/
def resourcesConfig (env : Env) (w : World) : Option String := do
  let ports ← putAll (fun b => getPortsConfig env w b.val) w.idl.bridge.live
  let queues ← getQueuesConfig w.idl
  let flowTables ← getFlowTablesConfig w.idl
  return ports ++ queues ++ getOwnedCertificatesConfig w ++ getExternalCertificatesConfig w ++
    flowTables

/-- `ofc_get_config_data`. Without an id there is no data. -/
def ofcGetConfigData (env : Env) (w : World) : Option String :=
  match w.csId with
  | none => some ""
  | some id => do
      let resources ← resourcesConfig env w
      let bridges ← getBridgesConfig w.idl
      return "<?xml version=\"1.0\"?><capable-switch xmlns=\"urn:onf:config:yang\">" ++
        put "id" id ++ putNonempty "resources" resources ++
        putNonempty "logical-switches" bridges ++ "</capable-switch>"

end OfConfig.Ovs
