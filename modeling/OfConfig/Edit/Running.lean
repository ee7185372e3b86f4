import OfConfig.Edit.Ops

/-!
# `OfConfig.Edit.Running`: edits of the running configuration

With the `running` flag `edit_delete` and `edit_create` turn a node into
calls of `ovs-data.c`, chosen by long chains of comparisons on the names
of the node and of its ancestors. `deleteAction` and `createAction` are
those two chains, in the order of the source; they differ in more than
their calls. `applyNode` is the frame both functions share: it performs
the action, walks down where the source has
`while (node->children)`, and unlinks a node that was handled.

`ovs-data.c` is a `Backend` here: a state and a function for every kind
of call. The OVSDB model instantiates it.
-/

set_option autoImplicit false

namespace OfConfig.Edit

open OfConfig.Lib OfConfig.Xml

/-- The calls of `ovs-data.c` that change the configuration. A key or a
value that `get_key` or the code did not find is `none`. -/
inductive TxnOp where
  | setSwitchid (node : Option Node)
  | addPort (node : Node)
  | delPort (name : Option String)
  | modPortReqnumber (name value : Option String)
  | addPortTunnel (name : Option String) (node : Node)
  | delPortTunnel (name : Option String) (node : Node)
  | modPortTunnelOpt (name : Option String) (opt : String) (value : Option String)
  | addPortAdvert (name : Option String) (node : Node)
  | delPortAdvert (name : Option String) (node : Node)
  | ofModPortCfg (name : Option String) (bit : String) (value : Option String)
  | addQueue (node : Node)
  | delQueue (rid : Option String)
  | modQueueId (rid value : Option String)
  | addQueuePort (rid port : Option String)
  | delQueuePort (rid : Option String)
  | modQueueOptions (rid : Option String) (opt : String) (node : Option Node)
  | addOwnedCertificate (node : Node)
  | delOwnedCertificate (node : Node)
  | modOwnCertCertificate (rid : Option String) (node : Option Node)
  | modOwnCertKeyType (rid : Option String) (node : Option Node)
  | modOwnCertKeyData (rid : Option String) (node : Option Node)
  | addExternalCertificate (node : Node)
  | delExternalCertificate (node : Node)
  | modExtCertCertificate (rid : Option String) (node : Option Node)
  | addFlowTable (node : Node)
  | delFlowTable (tableId : Option String)
  | modFlowtableName (tableId : Option String) (node : Option Node)
  | modFlowtableResid (tableId : Option String) (node : Option Node)
  | addBridge (node : Node)
  | delBridge (br : Option String)
  | modBridgeDatapath (br value : Option String)
  | modBridgeFailmode (br value : Option String)
  | addBridgePort (br : Option String) (port : String)
  | delBridgePort (br : Option String) (port : String)
  | addBridgeFlowtable (br : Option String) (table : String)
  | delBridgeFlowtable (br : Option String) (table : String)
  | addContr (node : Node) (br : Option String)
  | delContr (id br : Option String)
  | modContrLip (id value : Option String)
  | modContrTarget (id : Option String) (name : String) (value : Option String)

/-- The answers of `ofc_check_bridge_queue`: 0, 1 and 2. -/
inductive QueueRef where
  | linked
  | invalid
  | unlinked
deriving DecidableEq, Repr

/-- What `ofc_get_config_data` ends with. -/
inductive ConfigData where
  | null
  | text (s : String)
  | crash
deriving DecidableEq, Repr

/-- `ovs-data.c` as the rest of the server sees it. -/
structure Backend (σ : Type) where
  exec : TxnOp → σ → Reply × σ
  delAll : σ → Reply × σ
  checkBridgeQueue : Option String → String → σ → QueueRef
  getConfigData : σ → ConfigData × σ
  txnInit : σ → σ
  txnAbort : σ → σ
  txnCommit : σ → Reply × σ
  postPorts : Option Node → σ → Reply × σ

/-- What `edit_delete` and `edit_create` do with one element. -/
inductive Action where
  /-- no call -/
  | nothing
  /-- one call -/
  | call (op : TxnOp)
  /-- a loop of calls that stops at the first failure -/
  | calls (ops : List TxnOp)
  /-- `while (node->children)`, the function itself on the first child -/
  | children
  /-- the function itself on the child `advertised`, if there is one -/
  | advertised
  /-- `txn_del_all`, and a return without unlinking the node -/
  | delAll
  /-- `ofc_check_bridge_queue` on a queue reference -/
  | queueRef (br : Option String) (queue : String)
  /-- an error of the function itself -/
  | fail (e : NcErr)

/-- `node->children ? node->children->content : NULL` -/
def firstContent (n : Node) : Option String :=
  match n.children with
  | [] => none
  | c :: _ => c.label.content

/-- The names of the tunnel containers of a port. -/
def isTunnel (name : Option String) : Bool :=
  name = some "ipgre-tunnel" || name = some "vxlan-tunnel" || name = some "tunnel"

/-- The error for a reference in a switch's `resources` without a value. -/
def invalidLeafref (name : String) : NcErr :=
  { tag := .badElem, badElem := some name, msg := some "invalid resources leafref" }

/-- The chain of comparisons of `edit_delete`. -/
def deleteAction (node : Node) (anc : List Node) : Action :=
  let n := node.label.name
  let p := nameAt anc 0
  let parentKey := getKey anc[0]?
  let grandKey := getKey anc[1]?
  if anc.isEmpty then .delAll
  else if p = some "capable-switch" then
    if n = "id" then .call (.setSwitchid none) else .children
  else if p = some "resources" then
    if nameAt anc 1 = some "capable-switch" then
      if n = "port" then .call (.delPort (getKey (some node) "name"))
      else if n = "queue" then .call (.delQueue (getKey (some node) "resource-id"))
      else if n = "owned-certificate" then .call (.delOwnedCertificate node)
      else if n = "external-certificate" then .call (.delExternalCertificate node)
      else if n = "flow-table" then .call (.delFlowTable (getKey (some node) "table-id"))
      else .nothing
    else
      match firstContent node with
      | none => .fail (invalidLeafref n)
      | some aux =>
        if n = "port" then .call (.delBridgePort (grandKey "id") aux)
        else if n = "flow-table" then .call (.delBridgeFlowtable (grandKey "id") aux)
        -- certificate and queue references are ignored on purpose
        else .nothing
  else if p = some "port" then
    if n = "requested-number" then .call (.modPortReqnumber (parentKey "name") none)
    else if isTunnel (some n) then .call (.delPortTunnel (parentKey "name") node)
    else if n = "features" then .advertised
    else .children
  else if p = some "configuration" then .call (.ofModPortCfg (grandKey "name") n none)
  else if n = "advertised" then .calls (node.children.map (.delPortAdvert (grandKey "name")))
  else if p = some "advertised" then .call (.delPortAdvert (getKey anc[2]? "name") node)
  else if isTunnel p then .call (.modPortTunnelOpt (grandKey "name") n none)
  else if p = some "queue" then
    if n = "port" then .call (.delQueuePort (parentKey "resource-id"))
    else if n = "properties" then .children
    -- id is mandatory, a following create replaces it
    else .nothing
  else if p = some "properties" then .call (.modQueueOptions (grandKey "resource-id") n none)
  else if p = some "owned-certificate" then
    .call (.modOwnCertCertificate (parentKey "resource-id") none)
  else if n = "private-key" then .children
  else if p = some "private-key" then
    if n = "key-type" then .call (.modOwnCertKeyType (grandKey "resource-id") none)
    else if n = "key-data" then .call (.modOwnCertKeyData (grandKey "resource-id") none)
    else .nothing
  else if p = some "external-certificate" then
    .call (.modExtCertCertificate (parentKey "resource-id") none)
  else if p = some "flow-table" then
    if n = "name" then .call (.modFlowtableName (parentKey "table-id") none)
    else if n = "resource-id" then .call (.modFlowtableResid (parentKey "table-id") none)
    else .nothing
  else if n = "switch" then .call (.delBridge (getKey (some node) "id"))
  else if p = some "switch" then
    if n = "datapath-id" then .call (.modBridgeDatapath (parentKey "id") none)
    else if n = "controllers" ∨ n = "resources" then .children
    else if n = "lost-connection-behavior" then .call (.modBridgeFailmode (parentKey "id") none)
    else .nothing
  else if n = "controller" then .call (.delContr (getKey (some node) "id") (grandKey "id"))
  else if p = some "controller" then
    if n = "local-ip-address" then .call (.modContrLip (parentKey "id") none)
    else if n = "ip-address" ∨ n = "port" ∨ n = "protocol" then
      .call (.modContrTarget (parentKey "id") n none)
    else .nothing
  else .nothing

/-- The error of `edit_create` for a capable-switch without an id. -/
def missingSwitchId : NcErr :=
  { tag := .missingElem, badElem := some "id", msg := some "Missing capable-switch's id" }

/-- The chain of comparisons of `edit_create`. It tests `private-key`
before `owned-certificate`, where `edit_delete` has them the other way
round. -/
def createAction (node : Node) (anc : List Node) : Action :=
  let n := node.label.name
  let p := nameAt anc 0
  let aux := firstContent node
  let parentKey := getKey anc[0]?
  let grandKey := getKey anc[1]?
  if anc.isEmpty then
    if (getKey (some node) "id").isNone then .fail missingSwitchId else .children
  else if p = some "capable-switch" then
    if n = "id" then .call (.setSwitchid (some node)) else .children
  else if p = some "resources" then
    if nameAt anc 1 = some "capable-switch" then
      if n = "port" then .call (.addPort node)
      else if n = "queue" then .call (.addQueue node)
      else if n = "owned-certificate" then .call (.addOwnedCertificate node)
      else if n = "external-certificate" then .call (.addExternalCertificate node)
      else if n = "flow-table" then .call (.addFlowTable node)
      else .nothing
    else
      match aux with
      | none => .fail (invalidLeafref n)
      | some aux =>
        if n = "port" then .call (.addBridgePort (grandKey "id") aux)
        else if n = "flow-table" then .call (.addBridgeFlowtable (grandKey "id") aux)
        else if n = "queue" then .queueRef (grandKey "id") aux
        -- certificate references are ignored on purpose
        else .nothing
  else if p = some "port" then
    if n = "requested-number" then .call (.modPortReqnumber (parentKey "name") aux)
    else if isTunnel (some n) then .call (.addPortTunnel (parentKey "name") node)
    else if n = "features" then .advertised
    else .children
  else if p = some "configuration" then .call (.ofModPortCfg (grandKey "name") n aux)
  else if n = "advertised" then .calls (node.children.map (.addPortAdvert (grandKey "name")))
  else if p = some "advertised" then .call (.addPortAdvert (getKey anc[2]? "name") node)
  else if isTunnel p then .call (.modPortTunnelOpt (grandKey "name") n aux)
  else if p = some "queue" then
    if n = "id" then .call (.modQueueId (parentKey "resource-id") aux)
    else if n = "port" then .call (.addQueuePort (parentKey "resource-id") aux)
    else if n = "properties" then .children
    else .nothing
  else if p = some "properties" then
    .call (.modQueueOptions (grandKey "resource-id") n (some node))
  else if n = "private-key" then .children
  else if p = some "owned-certificate" then
    .call (.modOwnCertCertificate (parentKey "resource-id") (some node))
  else if p = some "external-certificate" then
    .call (.modExtCertCertificate (parentKey "resource-id") (some node))
  else if p = some "private-key" then
    if n = "key-type" then .call (.modOwnCertKeyType (grandKey "resource-id") (some node))
    else if n = "key-data" then .call (.modOwnCertKeyData (grandKey "resource-id") (some node))
    else .nothing
  else if p = some "flow-table" then
    if n = "name" then .call (.modFlowtableName (parentKey "table-id") (some node))
    else if n = "resource-id" then .call (.modFlowtableResid (parentKey "table-id") (some node))
    else .nothing
  else if n = "switch" then .call (.addBridge node)
  else if p = some "switch" then
    if n = "datapath-id" then .call (.modBridgeDatapath (parentKey "id") aux)
    else if n = "controllers" ∨ n = "resources" then .children
    else if n = "lost-connection-behavior" then .call (.modBridgeFailmode (parentKey "id") aux)
    else .nothing
  else if n = "controller" then .call (.addContr node (grandKey "id"))
  else if p = some "controller" then
    if n = "local-ip-address" then .call (.modContrLip (parentKey "id") aux)
    else if n = "ip-address" ∨ n = "port" ∨ n = "protocol" then
      .call (.modContrTarget (parentKey "id") n aux)
    else .nothing
  else .nothing

/-! ### Performing the actions -/

/-- What is left after a node has been handled: the reply, the node if
it is still linked, and the state of the backend. -/
structure Applied (σ : Type) where
  out : Reply
  left : Option Node
  world : σ

variable {σ : Type}

/-- A loop of calls, left at the first one that does not succeed. -/
def execAll (B : Backend σ) : List TxnOp → σ → Reply × σ
  | [], s => (.success, s)
  | op :: ops, s =>
    match B.exec op s with
    | (.success, s') => execAll B ops s'
    | (o, s') => (o, s')

/-- The answer of `edit_create` for a queue reference. -/
def queueRefReply : QueueRef → Reply
  | .linked => .success
  | .invalid =>
    .failure (some { tag := .badElem, badElem := some "queue",
                     msg := some "Invalid queue leafref" })
  | .unlinked =>
    .failure (some { tag := .opFailed,
                     msg := some ("Assigning queue to the bridge (port) must " ++
                       "be done by the port element in the queue") })

/-- The label `end:` of both functions: a node that was handled with
success is unlinked. -/
def finish (node : Node) (r : Reply × σ) : Applied σ :=
  ⟨r.1, if r.1 = .success then none else some node, r.2⟩

/-- What `edit_delete` and `edit_create` differ in: what they do to the
node itself before anything else, and the action they choose. -/
structure Handler where
  strip : Label → Label
  action : Node → List Node → Action

mutual
/-- The common frame of `edit_delete` and `edit_create` with the
`running` flag. The context gives the current siblings and ancestors. -/
def applyNode (h : Handler) (B : Backend σ) :
    Node → List (Rose.Frame Label) → σ → Applied σ
  | .node l cs, ctx, s =>
    let node : Node := .node (h.strip l) cs
    -- comments and texts are simply removed
    if !l.isElement then ⟨.success, none, s⟩
    else
      match h.action node (Rose.ancestors node ctx) with
      | .nothing => ⟨.success, none, s⟩
      | .call op => finish node (B.exec op s)
      | .calls ops => finish node (execAll B ops s)
      | .children =>
        let r := applyChildren h B (h.strip l) cs ctx s
        finish (.node (h.strip l) r.2.1) (r.1, r.2.2)
      | .advertised =>
        let r := applyAdvertised h B (h.strip l) [] cs ctx s
        finish (.node (h.strip l) r.2.1) (r.1, r.2.2)
      | .delAll =>
        let r := B.delAll s
        ⟨r.1, some node, r.2⟩
      | .queueRef br q => finish node (queueRefReply (B.checkBridgeQueue br q s), s)
      | .fail e => ⟨.failure (some e), some node, s⟩

/-- `while (node->children)`: the first child is handled and thereby
unlinked until none is left. The children that remain are returned. -/
def applyChildren (h : Handler) (B : Backend σ) (l : Label) :
    List Node → List (Rose.Frame Label) → σ → Reply × List Node × σ
  | [], _, s => (.success, [], s)
  | c :: rest, ctx, s =>
    let r := applyNode h B c (⟨[], l, rest⟩ :: ctx) s
    match r.out with
    | .success => applyChildren h B l rest ctx r.world
    | o => (o, r.left.toList ++ rest, r.world)

/-- The child `advertised` of `features`; `done` are the children before
it. -/
def applyAdvertised (h : Handler) (B : Backend σ) (l : Label) (done : List Node) :
    List Node → List (Rose.Frame Label) → σ → Reply × List Node × σ
  | [], _, s => (.success, done, s)
  | c :: rest, ctx, s =>
    if c.label.isElement && c.label.name = "advertised" then
      let r := applyNode h B c (⟨done, l, rest⟩ :: ctx) s
      (r.out, done ++ r.left.toList ++ rest, r.world)
    else applyAdvertised h B l (done ++ [c]) rest ctx s
end

/-- `edit_delete(node, 1, …)` -/
def editDelete (B : Backend σ) (node : Node) (ctx : List (Rose.Frame Label)) (s : σ) :
    Applied σ :=
  applyNode ⟨id, deleteAction⟩ B node ctx s

/-- `edit_create(orig_doc, edit, 1, …)`; the datastore document is not
used. -/
def editCreateRunning (B : Backend σ) (node : Node) (ctx : List (Rose.Frame Label)) (s : σ) :
    Applied σ :=
  applyNode ⟨dropOpAttr, createAction⟩ B node ctx s

end OfConfig.Edit
