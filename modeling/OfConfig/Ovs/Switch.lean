import OfConfig.Ovs.Bytes
import OfConfig.Ovs.Cert

/-!
# `OfConfig.Ovs.Switch`: flow tables, logical switches and controllers

The functions of `ovs-data.c` below `/capable-switch/resources/flow-table`
and `/capable-switch/logical-switches`. A logical switch is a row of
`Bridge`; its columns refer to the rows of its ports, flow tables and
controllers.
-/

set_option autoImplicit false

namespace OfConfig.Ovs

open OfConfig.Lib OfConfig.Xml OfConfig.Edit

/-! ### Flow tables -/

/-- The id of a flow table. -/
def FlowTable.id (t : FlowTable) : Option String := t.externalIds.get "table_id"

/-- `find_flowtable` -/
def findFlowtable (tableId : Option String) (db : Db) : Option (Row FlowTable) :=
  match tableId with
  | none => none
  | some tid => db.flowTable.first (fun t => t.id = some tid)

/-- Change a flow table. -/
def updateFlowTable (u : Uuid) (f : FlowTable → FlowTable) : Txn Unit :=
  modifyDb (fun db => { db with flowTable := db.flowTable.update u f })

/-- The check of one `table-id`; an empty one is passed on as a null
pointer. -/
def checkTableId (n : Node) : Txn Unit := do
  match scanI64 (← deref (firstContent n)) with
  | none => fail (badElem "table_id" "Invalid value.")
  | some _ => pure ()

/-- `txn_add_flow_table` -/
def txnAddFlowTable (node : Node) : Txn Unit := do
  Prog.forEach (node.children.filter (fun c =>
    c.label.isElement && c.label.name = "table-id")) checkTableId
  match lastContent node "table-id" with
  | none => fail (badElem "flow-table" "The list element misses key.")
  | some tid => do
      let ids := Smap.replace [] "table_id" tid
      let ids := match lastContent node "resource-id" with
        | none => ids
        | some rid => Smap.replace ids ofcResourceId rid
      let u ← newUuid
      modifyDb (fun db =>
        { db with flowTable := db.flowTable.insert u ⟨lastContent node "name", ids⟩ })

/-- The error for a flow table that is not there. -/
def noSuchFlowTable : NcErr := badElem "table-id" "Flow table does not exist in OVSDB"

mutual
/-- `xmlNodeGetContent` -/
def nodeGetContent : Node → String
  | .node (.element _ _ _) cs => nodesGetContent cs
  | .node (.text s) _ => s
  | .node (.cdata s) _ => s
  | .node (.comment _) _ => ""
  | .node (.pi _ _) _ => ""

/-- The contents of the children of an element. -/
def nodesGetContent : List Node → String
  | [] => ""
  | n :: ns => nodeGetContent n ++ nodesGetContent ns
end

/-- `txn_mod_flowtable_name` -/
def txnModFlowtableName (tableId : Option String) (node : Option Node) : Txn Unit := do
  let _ ← argument tableId
  match ← readDb (findFlowtable tableId) with
  | none => fail noSuchFlowTable
  | some ft =>
    updateFlowTable ft.uuid (fun t => { t with name := some ((node.map nodeGetContent).getD "") })

/-- `txn_mod_flowtable_resid` -/
def txnModFlowtableResid (tableId : Option String) (node : Option Node) : Txn Unit := do
  let _ ← argument tableId
  match ← readDb (findFlowtable tableId) with
  | none => fail noSuchFlowTable
  | some ft =>
    match node with
    | some n => do
        let rid ← deref (firstContent n)
        updateFlowTable ft.uuid (fun t =>
          { t with externalIds := t.externalIds.replace ofcResourceId rid })
    | none =>
      updateFlowTable ft.uuid (fun t =>
        { t with externalIds := t.externalIds.remove ofcResourceId })

/-- `txn_del_flow_table` -/
def txnDelFlowTable (tableId : Option String) : Txn Unit := do
  let _ ← argument tableId
  match ← readDb (findFlowtable tableId) with
  | none => fail (badElem "table_id" "Flow-table does not exist in OVSDB")
  | some ft => modifyDb (fun db => { db with flowTable := db.flowTable.delete ft.uuid })

/-! ### References of a switch -/

/-- The first bridge of a name. -/
def findBridge (name : Option String) (db : Db) : Option (Row Bridge) :=
  db.bridge.first (fun b => name = b.name)

/-- Change a bridge. -/
def updateBridge (u : Uuid) (f : Bridge → Bridge) : Txn Unit :=
  modifyDb (fun db => { db with bridge := db.bridge.update u f })

/-- `ovsrec_bridge_set_ports` -/
def setPorts (u : Uuid) (ps : List Uuid) : Txn Unit :=
  modifyDb (fun db => { db with
    bridge := db.bridge.update u (fun b => { b with ports := db.port.refs ps })
    written := db.written ++ [.ports u ps] })

/-- `ovsrec_bridge_set_flow_tables` -/
def setFlowTables (u : Uuid) (ts : List (Int × Uuid)) : Txn Unit :=
  modifyDb (fun db => { db with
    bridge := db.bridge.update u (fun b => { b with flowTables := db.flowTable.keyedRefs ts })
    written := db.written ++ [.flowTables u ts] })

/-- `ovsrec_bridge_set_controller` -/
def setController (u : Uuid) (cs : List Uuid) : Txn Unit :=
  modifyDb (fun db => { db with
    bridge := db.bridge.update u (fun b => { b with controller := db.controller.refs cs })
    written := db.written ++ [.controller u cs] })

/-- The loop that copies the references it keeps into an array with `n` places:
whether it stopped because the array was full, and what it stored. -/
def copyOthers {α : Type} (remove : α → Bool) (n : Nat) : List α → List α → Bool × List α
  | [], dst => (false, dst)
  | x :: xs, dst =>
    if remove x then copyOthers remove n xs dst
    else if dst.length = n then (true, dst)
    else copyOthers remove n xs (dst ++ [x])

/-- What a loop that copies the references it keeps into an array with one
place less than before ends with. -/
inductive Kept (α : Type) where
  /-- nothing to remove: the array is full before the end -/
  | full
  /-- one reference was removed -/
  | rest (xs : List α)
  /-- several were: the end of the array is not initialised -/
  | garbage

/-- What `copyOthers` leaves behind. -/
def keepOthers {α : Type} (remove : α → Bool) (xs : List α) : Kept α :=
  let rest := xs.filter (fun x => !remove x)
  if rest.length = xs.length then .full
  else if rest.length + 1 = xs.length then .rest rest
  else .garbage

/-- The error for a bridge that is not there. -/
def noSuchBridge (which : String) : NcErr := badElem "id" (which ++ " does not exist in OVSDB")

/-- The id of the flow table a bridge refers to. -/
def flowTableId (db : Db) (u : Uuid) : Txn String := do
  let ft ← deref (db.flowTable.deref u)
  match ft.id with
  | none => fail (opFailed "Flow-table with no table-id found in OVSDB")
  | some tid => pure tid

/-- `txn_del_bridge_flowtable`. The loop stops with success when there is
nothing to remove. -/
def txnDelBridgeFlowtable (brName : Option String) (tableId : String) : Txn Unit := do
  let _ ← argument brName
  match ← readDb (findBridge brName) with
  | none => fail (noSuchBridge "Logical-switch")
  | some br => do
      let db ← readDb id
      Prog.forEach br.val.flowTables (fun t => do let _ ← flowTableId db t.2)
      let same (t : Int × Uuid) : Bool :=
        (db.flowTable.deref t.2).bind FlowTable.id = some tableId
      match keepOthers same br.val.flowTables with
      | .full => pure ()
      | .rest ts => setFlowTables br.uuid ts
      | .garbage => crash

/-- `txn_del_bridge_port` -/
def txnDelBridgePort (brName : Option String) (portName : String) : Txn Unit := do
  let _ ← argument brName
  match ← readDb (findBridge brName) with
  | none => fail (noSuchBridge "Logical-switch")
  | some br => do
      let db ← readDb id
      Prog.forEach br.val.ports (fun p => do let _ ← deref (db.port.deref p))
      match keepOthers (fun p => (db.port.deref p).bind Port.name = some portName)
          br.val.ports with
      | .full => pure ()
      | .rest ps => setPorts br.uuid ps
      | .garbage => crash

/-- `txn_add_bridge_port` -/
def txnAddBridgePort (brName : Option String) (portName : String) : Txn Unit := do
  let _ ← argument brName
  match ← readDb (findPort (some portName)), ← readDb (findBridge brName) with
  | none, _ => fail (badElem "port" "Invalid port leafref")
  | some _, none => fail (noSuchBridge "Logical switch")
  | some port, some br => setPorts br.uuid (br.val.ports ++ [port.uuid])

/-- `txn_bridge_insert_flowtable` -/
def txnBridgeInsertFlowtable (br : Uuid) (b : Bridge) (ft : Row FlowTable) : Txn Unit :=
  match ft.val.id with
  | none => fail (opFailed "Invalid flow table record, internal error")
  | some tid => setFlowTables br (b.flowTables ++ [((scanI64 tid).getD 0, ft.uuid)])

/-- `txn_add_bridge_flowtable` -/
def txnAddBridgeFlowtable (brName : Option String) (tableId : String) : Txn Unit := do
  let _ ← argument brName
  match ← readDb (findFlowtable (some tableId)), ← readDb (findBridge brName) with
  | none, _ => fail (badElem "flow-table" "Invalid flow-table leafref")
  | some _, none => fail (noSuchBridge "Logical switch")
  | some ft, some br =>
    setFlowTables br.uuid (br.val.flowTables ++ [((scanI64 tableId).getD 0, ft.uuid)])

/-! ### Controllers -/

/-- The id of a controller. -/
def Controller.id (c : Controller) : Option String := c.externalIds.get "ofconfig-id"

/-- The first controller of an id, in the whole table. -/
def findContr (contrId : String) (db : Db) : Option (Row Controller) :=
  db.controller.first (fun c => c.id = some contrId)

/-- Change a controller. -/
def updateController (u : Uuid) (f : Controller → Controller) : Txn Unit :=
  modifyDb (fun db => { db with controller := db.controller.update u f })

/-- The error for a controller that is not there. -/
def noSuchContr : NcErr := badElem "id" "Controller does not exist in OVSDB"

/-- The search for a controller by its id. -/
def getContr (contrId : Option String) : Txn (Row Controller) := do
  let c ← argument contrId
  match ← readDb (findContr c) with
  | none => fail noSuchContr
  | some contr => pure contr

/-- `txn_mod_contr_lip` -/
def txnModContrLip (contrId value : Option String) : Txn Unit := do
  let contr ← getContr contrId
  updateController contr.uuid (fun c => { c with localIp := value })

/-- `ovsrec_controller_set_target` -/
def Controller.setTarget (t : String) (c : Controller) : Controller :=
  { c with targetSet := some t }

/-- What `txn_add_contr` has collected from the children it has visited. -/
structure NewContr where
  proto : String := "ssl"
  ip : Option String := none
  port : Option String := none

/-- One child of a new controller. -/
def addContrChild (u : Uuid) (n : NewContr) (c : Node) : Txn NewContr :=
  if !c.label.isElement then pure n
  else if c.label.name = "id" then do
    let id ← deref (← contentOf c)
    updateController u (fun r => { r with externalIds := r.externalIds.replace "ofconfig-id" id })
    return n
  else if c.label.name = "ip-address" then return { n with ip := ← contentOf c }
  else if c.label.name = "port" then return { n with port := ← contentOf c }
  else if c.label.name = "protocol" then do
    return if (← contentOf c) = some "tcp" then { n with proto := "tcp" } else n
  else if c.label.name = "local-ip-address" then do
    let lip ← contentOf c
    updateController u (fun r => { r with localIp := lip })
    return n
  else pure n

/-- The children of a new controller. -/
def addContrChildren (u : Uuid) : NewContr → List Node → Txn NewContr
  | n, [] => pure n
  | n, c :: cs => do
      let n' ← addContrChild u n c
      addContrChildren u n' cs

/-- `txn_add_contr` -/
def txnAddContr (node : Node) (brName : Option String) : Txn Unit := do
  let _ ← argument brName
  let u ← newUuid
  modifyDb (fun db =>
    { db with controller := db.controller.insert u { connectionMode := some "in-band" } })
  let n ← addContrChildren u {} node.children
  match n.ip with
  | none => fail { tag := .missingElem, badElem := some "ip-address" }
  | some ip => do
      let target := n.proto ++ ":" ++ ip ++ (match n.port with | none => "" | some p => ":" ++ p)
      updateController u (Controller.setTarget target)
      match ← readDb (findBridge brName) with
      | none => fail (noSuchBridge "Bridge")
      | some br => setController br.uuid (br.val.controller ++ [u])

/-- The controllers of a bridge without the one to delete. A single one is
removed whatever it is. -/
def otherControllers (contr : Uuid) (cs : List Uuid) : Kept Uuid :=
  if cs.length = 1 then .rest [] else keepOthers (fun u => u = contr) cs

/-- `txn_del_contr` -/
def txnDelContr (contrId brName : Option String) : Txn Unit := do
  let _ ← argument contrId
  let _ ← argument brName
  let contr ← getContr contrId
  match ← readDb (findBridge brName) with
  | none => fail (noSuchBridge "Bridge")
  | some br =>
    match otherControllers contr.uuid br.val.controller with
    | .full =>
      fail (opFailed "Controller to delete is not connected with the specified bridge")
    | .garbage => crash
    | .rest cs => do
        setController br.uuid cs
        modifyDb (fun db => { db with controller := db.controller.delete contr.uuid })

/-- Write into the string `contr->target` itself. -/
def Controller.writeTarget (f : String → String) (c : Controller) : Controller :=
  match c.targetSet with
  | some t => { c with targetSet := some (f t) }
  | none => { c with target := c.target.map f }

/-- A string up to its second colon, and what follows that colon; `none`
when there is no colon at all and the code searches from a null
pointer. -/
def splitTarget (target : String) : Option (String × Option String) :=
  let cs := target.toList
  match cs.dropWhile (· ≠ ':') with
  | [] => none
  | c :: rest =>
    let ip := rest.takeWhile (· ≠ ':')
    let upTo := String.ofList (cs.takeWhile (· ≠ ':') ++ c :: ip)
    match rest.dropWhile (· ≠ ':') with
    | [] => some (upTo, none)
    | _ :: port => some (upTo, some (String.ofList port))

/-- The first three characters of a string, replaced. -/
def withProto (proto : String) (target : String) : String :=
  String.ofList (proto.toList ++ target.toList.drop 3)

/-- The new value of `target` for an `ip-address`: the protocol and the
port are kept. -/
def withIp (target ip : String) (port : Option String) : String :=
  if target.length < 3 then target
  else String.ofList (target.toList.take 3) ++ ":" ++ ip ++
    (match port with | none => "" | some p => ":" ++ p)

/-- What `txn_mod_contr_target` does to the controller it has found; `none`
where it uses memory it must not use. Removing the port and setting the
protocol write into the string, the rest sets the column. -/
def Controller.modTarget (name : String) (value : Option String) (contr : Controller) :
    Option Controller := do
  -- prepare empty template
  let c := if contr.shown.isNone then contr.setTarget "ssl:" else contr
  let target := c.shown.getD ""
  if name = "port" then do
    let (upTo, _) ← splitTarget target
    let hidden := c.writeTarget (fun _ => upTo)
    match value with
    | none => some hidden
    | some v => some (hidden.setTarget (upTo ++ ":" ++ v))
  else if name = "protocol" then
    if target.length < 3 then none
    else some (c.writeTarget (withProto (if value = some "tcp" then "tcp" else "ssl")))
  else if name = "ip-address" then
    match value with
    -- mandatory, a following create replaces it
    | none => some c
    | some v => do
        let (_, port) ← splitTarget target
        some (c.setTarget (withIp target v port))
  else some c

/-- `txn_mod_contr_target` -/
def txnModContrTarget (contrId : Option String) (name : String) (value : Option String) :
    Txn Unit := do
  let contr ← getContr contrId
  let new ← deref (contr.val.modTarget name value)
  updateController contr.uuid (fun _ => new)

/-! ### Switches -/

/-- `while (j < xmlStrlen(value) && value[j] == ':') j++` -/
def skipColons (value : List UInt8) (j : Nat) : Nat :=
  j + ((value.drop j).takeWhile (· = colonByte)).length

/-- The rounds of the loop that copies the digits of a datapath id, from a
position of the value on; `none` when one reads beyond the end. -/
def datapathLoop (value : List UInt8) : Nat → Nat → Option (List UInt8)
  | 0, _ => some []
  | n + 1, j => do
      let j := skipColons value j
      let c ← byteAt value j
      return c :: (← datapathLoop value n (j + 1))

/-- The string that `dp[17]` holds after its loop. -/
def datapathDigits (value : List UInt8) : Option (List UInt8) :=
  (datapathLoop value 17 0).bind cString

/-- `txn_mod_bridge_datapath` -/
def txnModBridgeDatapath (brName value : Option String) : Txn Unit := do
  let _ ← argument brName
  match ← readDb (findBridge brName) with
  | none => fail (noSuchBridge "Bridge")
  | some br =>
    match value with
    | none =>
      updateBridge br.uuid (fun b => { b with otherConfig := b.otherConfig.remove "datapath-id" })
    | some v =>
      if xmlStrlen v ≠ 23 then fail (badElem "datapath-id" "Invalid value to set")
      else do
        let dp ← deref (datapathDigits (bytesOf v))
        updateBridge br.uuid (fun b =>
          { b with otherConfig := b.otherConfig.replace "datapath-id" (textOf dp) })

/-- `txn_mod_bridge_failmode` -/
def txnModBridgeFailmode (brName value : Option String) : Txn Unit := do
  let _ ← argument brName
  match ← readDb (findBridge brName) with
  | none => fail (noSuchBridge "Bridge")
  | some br =>
    let mode := if value = some "failStandaloneMode" then "standalone" else "secure"
    updateBridge br.uuid (fun b => { b with failMode := some mode })

/-- The row of `Open_vSwitch`, made if there is none. -/
def openVswitchRow : Txn (Uuid × OpenVswitch) := do
  match ← readDb (fun db => db.openVswitch.first (fun _ => true)) with
  | some o => pure (o.uuid, o.val)
  | none => do
      let u ← newUuid
      modifyDb (fun db => { db with openVswitch := db.openVswitch.insert u {} })
      return (u, {})

/-- `ovsrec_open_vswitch_set_bridges` -/
def setBridges (u : Uuid) (bs : List Uuid) : Txn Unit :=
  modifyDb (fun db => { db with
    openVswitch := db.openVswitch.update u (fun o => { o with bridges := db.bridge.refs bs })
    written := db.written ++ [.bridges u bs] })

/-- `txn_del_bridge`. Without any bridge the loop does not run, and the
function succeeds. -/
def txnDelBridge (brName : Option String) : Txn Unit := do
  let name ← argument brName
  let (o, ovs) ← openVswitchRow
  let db ← readDb id
  Prog.forEach ovs.bridges (fun b => do let _ ← deref (db.bridge.deref b))
  let same (b : Uuid) : Bool := (db.bridge.deref b).bind Bridge.name = some name
  match ovs.bridges.find? same, keepOthers same ovs.bridges with
  | some b, .rest bs => do
      setBridges o bs
      modifyDb (fun db => { db with bridge := db.bridge.delete b })
  | some _, _ => crash
  | none, _ =>
    if ovs.bridges.isEmpty then pure () else fail (badElem "name" "switch to remove not found")

/-- One reference in the `resources` of a new switch. -/
def addBridgeResource (u : Uuid) (leaf : Node) : Txn Unit := do
  let b ← deref (← readDb (fun db => db.bridge.deref u))
  if leaf.label.name = "port" then
    match ← readDb (fun db => (firstContent leaf).bind (fun v => findPort (some v) db)) with
    | none => fail (badElem "port" "Invalid port leafref in switch.")
    | some port => setPorts u (b.ports ++ [port.uuid])
  else if leaf.label.name = "flow-table" then
    match ← readDb (findFlowtable (firstContent leaf)) with
    | none => fail (badElem "flow-table" "Invalid flow-table leafref in switch.")
    | some ft => txnBridgeInsertFlowtable u b ft
  else pure ()

/-- One child of a new switch. -/
def addBridgeChild (u : Uuid) (name : String) (c : Node) : Txn Unit :=
  if c.label.name = "datapath-id" then txnModBridgeDatapath (some name) (firstContent c)
  else if c.label.name = "resources" then Prog.forEach c.children (addBridgeResource u)
  else if c.label.name = "controllers" then
    Prog.forEach c.children (fun leaf => txnAddContr leaf (some name))
  else if c.label.name = "lost-connection-behavior" then do
    txnModBridgeFailmode (some name) (← contentOf c)
  else pure ()

/-- `txn_add_bridge` -/
def txnAddBridge (node : Node) : Txn Unit := do
  let elems := node.children.filter (fun c => c.label.isElement)
  let id := (elems.find? (fun c => c.label.name = "id")).bind firstContent
  match ← readDb (findBridge id) with
  | some _ => fail (badElem "id" "Bridge already exists in OVSDB")
  | none => do
      let (o, ovs) ← openVswitchRow
      let u ← newUuid
      modifyDb (fun db => { db with bridge := db.bridge.insert u {} })
      setBridges o (ovs.bridges ++ [u])
      let name ← deref id
      updateBridge u (fun b => { b with name := some name })
      Prog.forEach elems (addBridgeChild u name)
      if elems.any (fun c => c.label.name = "lost-connection-behavior") then pure ()
      else txnModBridgeFailmode (some name) none

/-- `ofc_check_bridge_queue` -/
def ofcCheckBridgeQueue (brName : Option String) (queueRid : String) (db : Db) : QueueRef :=
  if brName.isNone || (findQueue (some queueRid) db).isNone then .invalid
  else
    match findQueuePort queueRid db with
    | none => .unlinked
    | some port =>
      match findBridge brName db with
      | none => .invalid
      | some br =>
        if br.val.ports.any (fun p => (db.port.deref p).map Port.name = some port.val.name)
        then .linked else .unlinked

end OfConfig.Ovs
