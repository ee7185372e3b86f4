import OfConfig.Ovs.Backend

/-!
# `OfConfig.Proofs.AddedInterface`: who sets `added_interface`

`of_post_ports` runs after the commit and does nothing while
`ovsdb_handler->added_interface` is false. `txn_init` clears the flag, and of all
functions that an edit can call only `txn_add_port` sets it (`exec_added`): the
others read and change the client's copy of the database, the files, the interface
flags and the advertised features, and leave the flag as it is.
-/

set_option autoImplicit false

namespace OfConfig.Proofs

open OfConfig.Lib OfConfig.Xml OfConfig.Edit OfConfig.Ovs

/-- The program leaves `added_interface` as it is, whether it succeeds, fails or
crashes. The lemmas below give this for the steps all functions of `ovs-data.c` are
made of. -/
abbrev Quiet {α : Type} (p : Txn α) : Prop := Prog.Keeps Work.addedInterface p

section

variable {α : Type}

theorem quiet_readDb (f : Db → α) : Quiet (readDb f) := Prog.keeps_read _

theorem quiet_modifyDb (f : Db → Db) : Quiet (modifyDb f) := Prog.keeps_update (fun _ => rfl)

theorem quiet_fail (e : NcErr) : Quiet (fail e : Txn α) := Prog.keeps_stop _

theorem quiet_crash : Quiet (crash : Txn α) := Prog.keeps_stop _

theorem quiet_argument (o : Option α) : Quiet (argument o) := Prog.keeps_ofOption _ _

theorem quiet_deref (o : Option α) : Quiet (deref o) := Prog.keeps_ofOption _ _

theorem quiet_newUuid : Quiet newUuid :=
  Prog.keeps_bind (Prog.keeps_read _) (fun _ =>
    Prog.keeps_bind (Prog.keeps_update (fun _ => rfl)) (fun _ => Prog.keeps_pure _))

end

theorem quiet_contentOf (n : Node) : Quiet (contentOf n) := by
  unfold contentOf
  split
  · exact quiet_crash
  · exact Prog.keeps_pure _

theorem quiet_searchInterface (name : String) (rows : List (Row Interface)) :
    Quiet (searchInterface name rows) := by
  induction rows with
  | nil => exact quiet_fail _
  | cons r rows ih =>
    refine Prog.keeps_bind (quiet_deref _) (fun _ => ?_)
    exact Prog.keeps_ite (Prog.keeps_pure _) ih

theorem quiet_devSetFlags (name : String) (flags : BitVec 32) :
    Quiet (devSetFlags name flags) := by
  refine Prog.keeps_update (fun w => ?_)
  cases w.flags name <;> rfl

theorem quiet_addContrChildren (u : Uuid) (n : NewContr) (cs : List Node) :
    Quiet (addContrChildren u n cs) := by
  induction cs generalizing n with
  | nil => exact Prog.keeps_pure _
  | cons c cs ih =>
    refine Prog.keeps_bind ?_ (fun _ => ih _)
    simp only [addContrChild, updateController]
    repeat' first
      | with_reducible refine Prog.keeps_bind ?_ (fun _ => ?_)
      | with_reducible exact quiet_contentOf _
      | with_reducible exact quiet_deref _
      | with_reducible exact quiet_modifyDb _
      | with_reducible exact Prog.keeps_pure _
      | split

/-- `ofc_set_switchid` works on the id of the capable switch only. -/
theorem ofcSetSwitchid_added (m : Option Node) (w : World) :
    (ofcSetSwitchid m w).2.addedInterface = w.addedInterface := by
  cases m with
  | none => rfl
  | some n =>
    obtain ⟨l, cs⟩ := n
    rcases cs with _ | ⟨⟨m, ms⟩, cs⟩
    · rfl
    · cases m <;> rfl

/-- Only `txn_add_port` sets the flag. The other functions are opened here, down to
the steps above; nothing is assumed about their arguments or about how they end. -/
theorem exec_added {env : Env} {op : TxnOp} (h : ∀ n, op ≠ .addPort n) (w : World) :
    ((ovsBackend env).exec op w).2.addedInterface = w.addedInterface := by
  rw [exec_snd]
  have hglobal : ∀ p : Txn Unit, Quiet p → (p.global w).2.addedInterface = w.addedInterface :=
    fun p hp => hp w.toWork
  cases op with
  | setSwitchid m => exact ofcSetSwitchid_added m w
  | addPort n => exact absurd rfl (h n)
  | _ =>
    refine hglobal _ ?_
    repeat' first
      | with_reducible refine Prog.keeps_bind ?_ (fun _ => ?_)
      | with_reducible refine Prog.keeps_forEach (fun _ _ => ?_)
      | with_reducible exact quiet_readDb _
      | with_reducible exact quiet_modifyDb _
      | with_reducible exact quiet_fail _
      | with_reducible exact quiet_crash
      | with_reducible exact quiet_argument _
      | with_reducible exact quiet_deref _
      | with_reducible exact quiet_newUuid
      | with_reducible exact quiet_contentOf _
      | with_reducible exact quiet_searchInterface _ _
      | with_reducible exact quiet_devSetFlags _ _
      | with_reducible exact quiet_addContrChildren _ _ _
      | with_reducible exact Prog.keeps_pure _
      | with_reducible exact Prog.keeps_stop _
      | with_reducible exact Prog.keeps_read _
      | (with_reducible refine Prog.keeps_update (fun _ => ?_)); rfl
      | simp only [updateInterface, updatePort, txnDelPort, txnModPortReqnumber, addOption,
          txnAddPortTunnel, txnDelPortTunnel, txnModPortTunnelOpt, setAdvertising, advertText,
          txnAddPortAdvert, txnDelPortAdvert, modPortAdvert, devGetFlags, checkFlags,
          txnModPortAdminState, ofModPortCfg, updateQueue, setQueues, txnAddQueuePort,
          txnModQueueId, txnModQueueOptions, txnDelQosQueue, txnDelQueuePort, txnAddQueue,
          txnDelQueue, updateSsl, unlinkFile, findSsl, writeFile, writeCert, certRow, linkSsl,
          mandatory, storeOwned, txnAddOwnedCertificate, storeExternal,
          txnAddExternalCertificate, parsePem, putFile, modOwnCertKey, txnModOwnCertKeyType,
          txnModOwnCertKeyData, dropSsl, clearOwned, clearExternal, txnDelOwnedCertificate,
          txnDelExternalCertificate, txnModOwnCertCertificate, txnModExtCertCertificate,
          updateFlowTable, checkTableId, txnAddFlowTable, txnModFlowtableName,
          txnModFlowtableResid, txnDelFlowTable, updateBridge, setPorts, setFlowTables,
          setController, flowTableId, txnDelBridgeFlowtable, txnDelBridgePort, txnAddBridgePort,
          txnBridgeInsertFlowtable, txnAddBridgeFlowtable, updateController, getContr,
          txnModContrLip, txnModContrTarget, txnAddContr, txnDelContr, txnModBridgeDatapath,
          txnModBridgeFailmode, openVswitchRow, setBridges, txnDelBridge, addBridgeResource,
          addBridgeChild, txnAddBridge]
      | split

end OfConfig.Proofs
