import OfConfig.Datastore
import OfConfig.Ovs.Render

/-!
# `OfConfig.Ovs.Backend`: `ovs-data.c` behind the edits

The functions of the OVSDB model as the `Backend` that the edits of the
running configuration call, and the server with that backend.
-/

set_option autoImplicit false

namespace OfConfig.Ovs

open OfConfig.Lib OfConfig.Xml OfConfig.Edit

/-- The function of `ovs-data.c` behind a call. -/
def execTxn (env : Env) : TxnOp → Global Unit
  | .setSwitchid n => ofcSetSwitchid n
  | .addPort n => (txnAddPort env n).global
  | .delPort p => (txnDelPort p).global
  | .modPortReqnumber p v => (txnModPortReqnumber p v).global
  | .addPortTunnel p n => (txnAddPortTunnel p n).global
  | .delPortTunnel p n => (txnDelPortTunnel env p n).global
  | .modPortTunnelOpt p o v => (txnModPortTunnelOpt p o v).global
  | .addPortAdvert p n => (txnAddPortAdvert env p n).global
  | .delPortAdvert p n => (txnDelPortAdvert env p n).global
  | .ofModPortCfg p b v => (ofModPortCfg env p b v).global
  | .addQueue n => (txnAddQueue n).global
  | .delQueue r => (txnDelQueue r).global
  | .modQueueId r v => (txnModQueueId r v).global
  | .addQueuePort r p => (txnAddQueuePort r p).global
  | .delQueuePort r => (txnDelQueuePort r).global
  | .modQueueOptions r o n => (txnModQueueOptions r o n).global
  | .addOwnedCertificate n => (txnAddOwnedCertificate env n).global
  | .delOwnedCertificate n => (txnDelOwnedCertificate env n).global
  | .modOwnCertCertificate r n => (txnModOwnCertCertificate env r n).global
  | .modOwnCertKeyType r n => (txnModOwnCertKeyType env r n).global
  | .modOwnCertKeyData r n => (txnModOwnCertKeyData env r n).global
  | .addExternalCertificate n => (txnAddExternalCertificate env n).global
  | .delExternalCertificate n => (txnDelExternalCertificate env n).global
  | .modExtCertCertificate r n => (txnModExtCertCertificate env r n).global
  | .addFlowTable n => (txnAddFlowTable n).global
  | .delFlowTable t => (txnDelFlowTable t).global
  | .modFlowtableName t n => (txnModFlowtableName t n).global
  | .modFlowtableResid t n => (txnModFlowtableResid t n).global
  | .addBridge n => (txnAddBridge n).global
  | .delBridge b => (txnDelBridge b).global
  | .modBridgeDatapath b v => (txnModBridgeDatapath b v).global
  | .modBridgeFailmode b v => (txnModBridgeFailmode b v).global
  | .addBridgePort b p => (txnAddBridgePort b p).global
  | .delBridgePort b p => (txnDelBridgePort b p).global
  | .addBridgeFlowtable b t => (txnAddBridgeFlowtable b t).global
  | .delBridgeFlowtable b t => (txnDelBridgeFlowtable b t).global
  | .addContr n b => (txnAddContr n b).global
  | .delContr c b => (txnDelContr c b).global
  | .modContrLip c v => (txnModContrLip c v).global
  | .modContrTarget c n v => (txnModContrTarget c n v).global

/-- `ofc_update`: the copy follows the server. It is in step with it
already, because the model has no other clients of the database. -/
def ofcUpdate (w : World) : World := w

/-- `ovs-data.c` -/
def ovsBackend (env : Env) : Backend World where
  exec op w := Global.reply (execTxn env op w)
  delAll w := Global.reply (txnDelAll env w)
  checkBridgeQueue br queue w := ofcCheckBridgeQueue br queue w.idl
  getConfigData w :=
    match ofcGetConfigData env w with
    | some s => (.text s, ofcUpdate w)
    | none => (.crash, ofcUpdate w)
  txnInit := txnInit
  txnAbort := txnAbort
  txnCommit w := Global.reply (txnCommit env w)
  postPorts root w := Global.reply ((ofPostPorts env root).global w)

theorem exec_snd (env : Env) (op : TxnOp) (w : World) :
    ((ovsBackend env).exec op w).2 = (execTxn env op w).2 := snd_reply _

theorem getConfigData_text {env : Env} {w : World} {s : String}
    (h : ofcGetConfigData env w = some s) :
    (ovsBackend env).getConfigData w = (.text s, w) := by
  simp only [ovsBackend, h, ofcUpdate]

theorem getConfigData_crash {env : Env} {w : World} (h : ofcGetConfigData env w = none) :
    (ovsBackend env).getConfigData w = (.crash, w) := by
  simp only [ovsBackend, h, ofcUpdate]

theorem getConfigData_snd (env : Env) (w : World) : ((ovsBackend env).getConfigData w).2 = w := by
  cases h : ofcGetConfigData env w with
  | none => rw [getConfigData_crash h]
  | some s => rw [getConfigData_text h]

@[simp] theorem afterSource_ovsBackend (env : Env) (source : Datastore) (srv : Server World) :
    afterSource (ovsBackend env) source srv = srv := by
  unfold afterSource
  split
  · rw [getConfigData_snd]
  · rfl

/-- The ways a commit can end: there is no transaction, the server stores
the changes, or it refuses them. -/
theorem txnCommit_cases (env : Env) (w : World) :
    (w.txn = none ∧ (ovsBackend env).txnCommit w = (.crash, w)) ∨
    (∃ base db, w.txn = some base ∧ (ovsBackend env).txnCommit w =
      (.success, { w with stored := db, idl := afterCommit w.stored db w.idl, txn := none })) ∨
    ∃ base msg, w.txn = some base ∧
      (ovsBackend env).txnCommit w = (.failure (some (opFailed msg)), txnAbort w) := by
  simp only [ovsBackend, txnCommit]
  cases htxn : w.txn with
  | none => exact .inl ⟨rfl, rfl⟩
  | some base =>
    refine .inr ?_
    cases hc : env.commit (pending w.stored w.idl) with
    | ok db => exact .inl ⟨base, db, rfl, rfl⟩
    | error msg => exact .inr ⟨base, msg, rfl, rfl⟩

/-- `txn_del_all` returns a success or not at all. -/
theorem delAll_reply (env : Env) (w : World) :
    ((ovsBackend env).delAll w).1 = .success ∨ ((ovsBackend env).delAll w).1 = .crash := by
  simp only [ovsBackend, txnDelAll_run]
  split
  · exact .inl rfl
  · exact .inr rfl

/-- An environment in which every request is granted. -/
def grantingEnv : Env where
  commit db := .ok db
  isSystem _ := false
  canWrite _ := true
  portMod _ _ _ _ := none
  ofPort _ _ := none
  dataDir := "/etc/ofconfig"

end OfConfig.Ovs
