import OfConfig.Proofs.Apply
import OfConfig.Proofs.Ops

/-!
# `OfConfig.Proofs.Controllers`: edits of a controller and their switch

A controller is an entry of a switch, and its id is unique in that switch
only. The functions of `ovs-data.c` look for it by its id in the whole
table. `contr_edits_stay_inside_iff`: all edits of the controller `c` of a
switch change nothing but that controller, exactly when it is the first
row with the id `c`.
-/

set_option autoImplicit false

namespace OfConfig.Proofs

open OfConfig.Lib OfConfig.Xml OfConfig.Edit OfConfig.Ovs

variable {anc : List Node} {br : Row Bridge} {c name : String} {node : Node} {r : Row Controller}
  {w : Work}

/-! ### The edits of a controller -/

/-- The leaves of a controller that can be edited. -/
def contrLeaves : List String := ["ip-address", "port", "protocol", "local-ip-address"]

/-- An edit of the controller `c` of the switch `name`: the entry is
deleted, or one of its leaves is set or deleted. -/
inductive ContrEdit (name c : String) :
    EditFun → Node → List (Rose.Frame Label) → Prop where
  | entry (node : Node) (ctx : List (Rose.Frame Label)) (he : node.label.isElement = true)
      (hn : node.label.name = "controller")
      (hp : nameAt (Rose.ancestors node ctx) 0 = some "controllers")
      (hc : getKey (some node) "id" = some c)
      (hb : getKey (Rose.ancestors node ctx)[1]? "id" = some name) :
      ContrEdit name c .delete node ctx
  | leaf (f : EditFun) (node : Node) (ctx : List (Rose.Frame Label))
      (he : node.label.isElement = true) (hn : node.label.name ∈ contrLeaves)
      (hp : nameAt (Rose.ancestors (f.seen node) ctx) 0 = some "controller")
      (hc : getKey (Rose.ancestors (f.seen node) ctx)[0]? "id" = some c)
      (hb : getKey (Rose.ancestors (f.seen node) ctx)[2]? "id" = some name) :
      ContrEdit name c f node ctx

/-- The calls such an edit can lead to. -/
inductive ContrCall (name c : String) : TxnOp → Prop where
  | del : ContrCall name c (.delContr (some c) (some name))
  | lip (value : Option String) : ContrCall name c (.modContrLip (some c) value)
  | target (leaf : String) (value : Option String) :
      ContrCall name c (.modContrTarget (some c) leaf value)

theorem isEmpty_of_nameAt {s : String} (h : nameAt anc 0 = some s) : anc.isEmpty = false := by
  cases anc with
  | nil => simp [nameAt] at h
  | cons a anc => rfl

theorem deleteAction_contr (hn : node.label.name = "controller")
    (hp : nameAt anc 0 = some "controllers") :
    deleteAction node anc =
      .call (.delContr (getKey (some node) "id") (getKey anc[1]? "id")) := by
  simp [deleteAction, isEmpty_of_nameAt hp, hp, hn, isTunnel]

/-- The call for a leaf of a controller. -/
def contrLeafOp (c : Option String) (leaf : String) (value : Option String) : TxnOp :=
  if leaf = "local-ip-address" then .modContrLip c value else .modContrTarget c leaf value

theorem deleteAction_contrLeaf (hn : node.label.name ∈ contrLeaves)
    (hp : nameAt anc 0 = some "controller") :
    deleteAction node anc =
      .call (contrLeafOp (getKey anc[0]? "id") node.label.name none) := by
  simp only [contrLeaves, List.mem_cons, List.not_mem_nil, or_false] at hn
  rcases hn with hn | hn | hn | hn <;>
    simp [deleteAction, isEmpty_of_nameAt hp, hp, hn, isTunnel, contrLeafOp]

theorem createAction_contrLeaf (hn : node.label.name ∈ contrLeaves)
    (hp : nameAt anc 0 = some "controller") :
    createAction node anc =
      .call (contrLeafOp (getKey anc[0]? "id") node.label.name (firstContent node)) := by
  simp only [contrLeaves, List.mem_cons, List.not_mem_nil, or_false] at hn
  rcases hn with hn | hn | hn | hn <;>
    simp [createAction, isEmpty_of_nameAt hp, hp, hn, isTunnel, contrLeafOp]

theorem contrCall_leaf (name c leaf : String) (value : Option String) :
    ContrCall name c (contrLeafOp (some c) leaf value) := by
  unfold contrLeafOp
  split
  · exact .lip value
  · exact .target leaf value

/-- An edit of a controller is one call. -/
theorem ContrEdit.call {f : EditFun} {ctx : List (Rose.Frame Label)}
    (h : ContrEdit name c f node ctx) (env : Env) (w : World) :
    ∃ op, ContrCall name c op ∧ f.run env node ctx w = (execTxn env op w).2 := by
  cases h with
  | entry _ _ he hn hp hc hb =>
    refine ⟨_, .del, world_applyNode_call he ?_⟩
    cases node with
    | node l cs => rw [← hc, ← hb]; exact deleteAction_contr hn hp
  | leaf _ _ _ he hn hp hc hb =>
    cases f with
    | delete =>
      refine ⟨_, contrCall_leaf name c node.label.name none, world_applyNode_call he ?_⟩
      rw [← hc]
      exact deleteAction_contrLeaf hn hp
    | create =>
      refine ⟨_, contrCall_leaf name c (dropOpAttr node.label).name (firstContent node),
        world_applyNode_call he ?_⟩
      rw [← hc]
      exact createAction_contrLeaf ((name_dropOpAttr node.label).symm ▸ hn) hp

/-! ### What the calls change -/

/-- The database without one row of `Controller`. -/
def besides (u : Uuid) (w : Work) : Db :=
  { w.idl with controller := w.idl.controller.others u }

theorem keeps_updateController (u : Uuid) (f : Controller → Controller) :
    Prog.Keeps (besides u) (updateController u f) := by
  intro w
  simp [updateController, modifyDb, besides, Table.others_update]

theorem getContr_run (c : String) (w : Work) :
    getContr (some c) w =
      match findContr c w.idl with
      | none => (.error (.err noSuchContr), w)
      | some r => (.ok r, w) := by
  cases h : findContr c w.idl <;>
    simp [getContr, argument, Prog.ofOption, Prog.bind_run, readDb, h, fail]

/-- Setting `local-ip-address` changes the row that is found. -/
theorem modContrLip_run (c : String) (value : Option String) (h : findContr c w.idl = some r) :
    txnModContrLip (some c) value w =
      updateController r.uuid (fun c => { c with localIp := value }) w := by
  have hrun : getContr (some c) w = (.ok r, w) := by rw [getContr_run, h]
  rw [txnModContrLip, Prog.bind_run_ok hrun]

theorem modContrTarget_keeps (c leaf : String) (value : Option String)
    (h : findContr c w.idl = some r) :
    besides r.uuid (txnModContrTarget (some c) leaf value w).2 = besides r.uuid w := by
  have hrun : getContr (some c) w = (.ok r, w) := by rw [getContr_run, h]
  rw [txnModContrTarget, Prog.bind_run_ok hrun]
  exact Prog.keeps_bind (Prog.keeps_ofOption _ _) (fun _ => keeps_updateController _ _) w

/-- A controller of a bridge is removed from the references of the
bridge, and only it. -/
theorem otherControllers_of_mem {u : Uuid} {cs : List Uuid} (hu : u ∈ cs) (hn : cs.Nodup) :
    otherControllers u cs = .rest (cs.erase u) := by
  have hlen : (cs.erase u).length + 1 = cs.length := by
    rw [List.length_erase_of_mem hu]
    have := List.length_pos_of_mem hu
    omega
  have hrest : cs.filter (fun x => !decide (x = u)) = cs.erase u := by
    rw [hn.erase_eq_filter]
    rfl
  unfold otherControllers
  split
  · next h1 =>
      have hnil : (cs.erase u).length = 0 := by omega
      rw [List.length_eq_zero_iff.mp hnil]
  · simp only [keepOthers, hrest]
    rw [if_neg (by omega), if_pos hlen]

/-- The controller `c` of the switch `name`: the bridge is found by its
name, its references are to different rows that are there, `own` is one of
them, and the only one with the id `c`. Another bridge may have a
controller with the same id. -/
structure ContrOf (db : Db) (br : Row Bridge) (name c : String) (own : Row Controller) : Prop where
  bridge : findBridge (some name) db = some br
  refsLive : ∀ u ∈ br.val.controller, db.controller.isLive u = true
  refsNodup : br.val.controller.Nodup
  live : own ∈ db.controller.live
  linked : own.uuid ∈ br.val.controller
  id : own.val.id = some c
  unique : ∀ r ∈ db.controller.live, r.uuid ∈ br.val.controller → r.val.id = some c → r = own

/-- Only the controller `own` of the bridge has changed: all other rows of
`Controller` are as before, the bridges too, but for the reference to
`own`, and the rest of the database as well. -/
structure StaysInside (br : Row Bridge) (own : Uuid) (db db' : Db) : Prop where
  controllers : db'.controller.others own = db.controller.others own
  bridges : (db'.bridge = db.bridge ∧ db'.written = db.written) ∨
    (db'.bridge =
        db.bridge.update br.uuid (fun b => { b with controller := br.val.controller.erase own }) ∧
      db'.written = db.written ++ [.controller br.uuid (br.val.controller.erase own)])
  rest : { db' with
    controller := db.controller, bridge := db.bridge, written := db.written } = db

theorem StaysInside.of_besides {own : Uuid} {w' : Work} (h : besides own w' = besides own w) :
    StaysInside br own w.idl w'.idl := by
  have hc := congrArg Db.controller h
  have hb := congrArg Db.bridge h
  have hw := congrArg Db.written h
  refine ⟨hc, .inl ⟨hb, hw⟩, ?_⟩
  exact congrArg (fun db : Db =>
    { db with
        controller := w.idl.controller, bridge := w.idl.bridge, written := w.idl.written }) h

theorem delContr_staysInside {own : Row Controller} (h : ContrOf w.idl br name c own)
    (hfirst : findContr c w.idl = some own) :
    StaysInside br own.uuid w.idl (txnDelContr (some c) (some name) w).2.idl := by
  have hrun : getContr (some c) w = (.ok own, w) := by rw [getContr_run, hfirst]
  have hrefs : w.idl.controller.refs (br.val.controller.erase own.uuid) =
      br.val.controller.erase own.uuid :=
    Table.refs_of_live _ (fun u hu => h.refsLive u (List.mem_of_mem_erase hu))
      (h.refsNodup.erase _)
  have hdel : (txnDelContr (some c) (some name) w).2.idl =
      { w.idl with
          bridge := w.idl.bridge.update br.uuid (fun b =>
            { b with controller := br.val.controller.erase own.uuid })
          controller := w.idl.controller.delete own.uuid
          written := w.idl.written ++
            [.controller br.uuid (br.val.controller.erase own.uuid)] } := by
    simp [txnDelContr, argument, Prog.ofOption, Prog.bind_run, hrun, readDb, h.bridge,
      otherControllers_of_mem h.linked h.refsNodup, setController, modifyDb, hrefs]
  rw [hdel]
  exact ⟨Table.others_delete _ _, .inr ⟨rfl, rfl⟩, rfl⟩

/-- When the row that is found is the right one, no call leaves the
switch. -/
theorem contrCall_staysInside {env : Env} {w : World} {own : Row Controller}
    (h : ContrOf w.idl br name c own) (hfirst : findContr c w.idl = some own) {op : TxnOp}
    (hop : ContrCall name c op) : StaysInside br own.uuid w.idl (execTxn env op w).2.idl := by
  cases hop with
  | del => exact delContr_staysInside h hfirst
  | lip value =>
    have hkeeps := keeps_updateController own.uuid (fun c => { c with localIp := value }) w.toWork
    rw [← modContrLip_run c value hfirst] at hkeeps
    exact StaysInside.of_besides hkeeps
  | target leaf value => exact StaysInside.of_besides (modContrTarget_keeps c leaf value hfirst)

/-! ### The edit that leaves the switch -/

/-- The context of a leaf of the controller `c` of the switch `name`. -/
def contrCtx (name c : String) : List (Rose.Frame Label) :=
  [⟨[elem "id" none [txt c]], .element "controller" none [], []⟩,
   ⟨[], .element "controllers" none [], []⟩,
   ⟨[elem "id" none [txt name]], .element "switch" none [], []⟩]

theorem getKey_id (l : Label) (key : String) (rest : List Node) :
    getKey (some (.node l (elem "id" none [txt key] :: rest))) "id" =
      if isBlankNode (txt key) then none else some key := by
  have hid : (elem "id" none [txt key]).label.isElement = true ∧
      (elem "id" none [txt key]).label.name = "id" := ⟨rfl, rfl⟩
  rw [getKey, Rose.children_node, go2node_cons, if_pos hid]
  rfl

/-- A new value of `local-ip-address`. -/
def lipLeaf (v : String) : Node := elem "local-ip-address" none [txt v]

theorem getKey_contrCtx (hc : isBlankNode (txt c) = false) (v : String) :
    getKey (Rose.ancestors (EditFun.create.seen (lipLeaf v)) (contrCtx name c))[0]? "id" =
      some c := by
  have hkey := getKey_id (.element "controller" none []) c [EditFun.create.seen (lipLeaf v)]
  rwa [hc] at hkey

/-- It is an edit of the controller. -/
theorem contrEdit_lip (hname : isBlankNode (txt name) = false) (hc : isBlankNode (txt c) = false)
    (v : String) : ContrEdit name c .create (lipLeaf v) (contrCtx name c) := by
  have hleaf : (lipLeaf v).label.name ∈ contrLeaves := by
    show "local-ip-address" ∈ contrLeaves
    decide
  have hkey := getKey_id (.element "switch" none []) name
    [Rose.Frame.plug ⟨[], .element "controllers" none [], []⟩
      (Rose.Frame.plug ⟨[elem "id" none [txt c]], .element "controller" none [], []⟩
        (EditFun.create.seen (lipLeaf v)))]
  rw [hname] at hkey
  exact .leaf _ _ _ rfl hleaf rfl (getKey_contrCtx hc v) hkey

/-- It changes the first controller with the id. -/
theorem run_lip (env : Env) (hc : isBlankNode (txt c) = false) (v : String) {w : World}
    (hr : findContr c w.idl = some r) :
    (EditFun.create.run env (lipLeaf v) (contrCtx name c) w).idl.controller =
      w.idl.controller.update r.uuid (fun c => { c with localIp := some v }) := by
  have hleaf : (EditFun.create.seen (lipLeaf v)).label.name ∈ contrLeaves := by
    show "local-ip-address" ∈ contrLeaves
    decide
  have hact : createAction (EditFun.create.seen (lipLeaf v))
      (Rose.ancestors (EditFun.create.seen (lipLeaf v)) (contrCtx name c)) =
        .call (.modContrLip _ (some v)) := createAction_contrLeaf hleaf rfl
  rw [getKey_contrCtx hc v] at hact
  have hrun : EditFun.create.run env (lipLeaf v) (contrCtx name c) w =
      (execTxn env (.modContrLip (some c) (some v)) w).2 :=
    world_applyNode_call (h := EditFun.create.handler) rfl hact
  have hlip := modContrLip_run c (some v) (w := w.toWork) hr
  rw [hrun]
  show (txnModContrLip (some c) (some v) w.toWork).2.idl.controller = _
  rw [hlip]
  rfl

/-- All edits of the controller `c` of the switch `name` change only that
controller, exactly when it is the first row of the table with the id
`c`. -/
theorem contr_edits_stay_inside_iff (env : Env) (w : World) (br : Row Bridge) (name c : String)
    (own : Row Controller) (h : ContrOf w.idl br name c own)
    (hname : isBlankNode (txt name) = false) (hc : isBlankNode (txt c) = false) :
    (∀ f node ctx, ContrEdit name c f node ctx →
      StaysInside br own.uuid w.idl (f.run env node ctx w).idl) ↔
    findContr c w.idl = some own := by
  constructor
  · intro hall
    cases hr : findContr c w.idl with
    | none => exact absurd hr (Table.first_ne_none h.live (by simp [h.id]))
    | some r =>
      obtain ⟨hlive, hid⟩ := Table.first_some hr
      by_cases hu : r.uuid = own.uuid
      · rw [h.unique r hlive (hu ▸ h.linked) (by simpa using hid)]
      · -- set a value that the row which is found does not have
        obtain ⟨v, hv⟩ : ∃ v : String, some v ≠ r.val.localIp := by
          by_cases hx : r.val.localIp = some ""
          · exact ⟨"a", by rw [hx]; decide⟩
          · exact ⟨"", Ne.symm hx⟩
        have hin := (hall _ _ _ (contrEdit_lip hname hc v)).controllers
        rw [run_lip env hc v hr, Table.others_update_comm] at hin
        have hmem : r ∈ w.idl.controller.others own.uuid :=
          List.mem_filter.mpr ⟨(List.mem_filter.mp hlive).1, by simpa using hu⟩
        have heq := Table.eq_of_update_eq hin hmem rfl
        exact absurd (congrArg Controller.localIp heq) hv
  · intro hfirst f node ctx hedit
    obtain ⟨op, hop, hrun⟩ := hedit.call env w
    rw [hrun]
    exact contrCall_staysInside h hfirst hop

/-- A controller with the id `c1`. -/
def contrRow (u : Uuid) : Row Controller :=
  ⟨u, false, true, { target := some "tcp:192.0.2.1:6633", externalIds := [("ofconfig-id", "c1")] }⟩

/-- A switch with one controller. -/
def switchRow (u : Uuid) (name : String) (contr : Uuid) : Row Bridge :=
  ⟨u, false, true, { name := some name, controller := [contr] }⟩

/-- Two switches that both have a controller `c1`. -/
def twoSwitches : World :=
  { idl := { bridge := [switchRow 1 "s1" 3, switchRow 2 "s2" 4]
             controller := [contrRow 3, contrRow 4] } }

/-- The controller `c1` as an edit names it. -/
def contrEntry : Node := elem "controller" none [elem "id" none [txt "c1"]]

/-- The place of a controller of a switch. -/
def entryCtx (name : String) : List (Rose.Frame Label) :=
  [⟨[], .element "controllers" none [], []⟩,
   ⟨[elem "id" none [txt name]], .element "switch" none [], []⟩]

/-- The controller of the first switch is the first row with the id, so its edits
stay inside; its deletion leaves the controller `c1` of the second switch. -/
theorem contr_edits_stay_inside_first_switch :
    ContrEdit "s1" "c1" .delete contrEntry (entryCtx "s1") ∧
    StaysInside (switchRow 1 "s1" 3) 3 twoSwitches.idl
      (EditFun.delete.run grantingEnv contrEntry (entryCtx "s1") twoSwitches).idl := by
  have hedit : ContrEdit "s1" "c1" .delete contrEntry (entryCtx "s1") :=
    .entry _ _ rfl rfl rfl (by decide) (by decide)
  have hown : ContrOf twoSwitches.idl (switchRow 1 "s1" 3) "s1" "c1" (contrRow 3) :=
    ⟨by decide, by decide, by decide, by decide, by decide, by decide, by decide⟩
  exact ⟨hedit, (contr_edits_stay_inside_iff grantingEnv twoSwitches (switchRow 1 "s1" 3) "s1" "c1"
    (contrRow 3) hown (by decide) (by decide)).mpr (by decide) _ _ _ hedit⟩

/-- Deleting the controller of the second switch deletes the row of the
first one. -/
theorem delete_contr_of_other_switch :
    ContrOf twoSwitches.idl (switchRow 2 "s2" 4) "s2" "c1" (contrRow 4) ∧
    ContrEdit "s2" "c1" .delete contrEntry (entryCtx "s2") ∧
    (EditFun.delete.run grantingEnv contrEntry (entryCtx "s2") twoSwitches).idl.controller.live =
      [contrRow 4] ∧
    ¬ StaysInside (switchRow 2 "s2" 4) 4 twoSwitches.idl
      (EditFun.delete.run grantingEnv contrEntry (entryCtx "s2") twoSwitches).idl := by
  refine ⟨⟨by decide, by decide, by decide, by decide, by decide,
    by decide, by decide⟩, .entry _ _ rfl rfl rfl ?_ ?_, ?_, ?_⟩
  · decide
  · decide
  · decide
  · intro hin
    exact absurd hin.controllers (by decide)

end OfConfig.Proofs
