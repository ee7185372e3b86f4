import OfConfig.Proofs.Rollback
import OfConfig.Proofs.XmlMode

/-!
# `OfConfig.Proofs.Atomicity`: failed edits of the local datastores

`ofcds_editconfig` edits the document of a local datastore in place and
has no way back. After the checks only the delete phase can fail, at an
element whose equivalent an earlier delete has taken away, and by then
the earlier delete has been carried out. So a failed edit is atomic
exactly when that does not happen.

* `deletesFound` replays the delete phase on the two documents and asks
  whether every element still has an equivalent when its turn comes.
* `phaseLoop_delete_isFailure`: the phase fails exactly when one has not.
* `sizes_phaseLoop_delete_lt`: a phase that starts with an equivalent
  makes the document smaller, whatever follows.
* `editconfig_failure_atomic_iff`: the result for a whole call.
-/

set_option autoImplicit false

namespace OfConfig.Proofs

open OfConfig.Lib OfConfig.Xml OfConfig.Edit

variable {σ : Type}
variable {cfg : Doc} {defop : DefOp} {env : Setup} {fuel : Nat}

/-! ### The delete phase -/

/-- Does every element of the node set still have an equivalent when the
ones before it have been deleted? A pointer that dangles ends the phase
without an answer to the client. -/
def deletesFound (removed : List Loc) : List Loc → Doc → Doc → Bool
  | [], _, _ => true
  | l :: ls, orig, edit =>
    match trackLoc removed l with
    | none => true
    | some l' =>
      match Rose.focus? edit l' with
      | none => true
      | some (n, ctx) =>
        match findElementEquiv orig (Rose.chain n ctx) with
        | none => false
        | some _ =>
          deletesFound (removed ++ [l']) ls
            (purge (Rose.chain n ctx) (Rose.sizes orig) orig) (Rose.unlink l' edit)

/-- One element of the delete phase on a local datastore. -/
theorem editDeleteOp_xml (B : Backend σ) (n : Node) (ctx : List (Rose.Frame Label)) (D : Doc)
    (s : σ) (hfuel : Rose.sizes D < fuel) :
    editDeleteOp fuel false B n ctx D s =
      match findElementEquiv D (Rose.chain n ctx) with
      | none => ⟨.failure (some { tag := .dataMissing }), some n, D, s⟩
      | some _ => ⟨.success, none, purge (Rose.chain n ctx) (Rose.sizes D) D, s⟩ := by
  rw [editDeleteOp]
  cases findElementEquiv D (Rose.chain n ctx) with
  | none => rfl
  | some f => simp [editRemove, deleteAll_xml B _ D s hfuel]

/-- The delete phase fails exactly when an element has lost its
equivalent. -/
theorem phaseLoop_delete_isFailure (B : Backend σ) (removed ls : List Loc) (st : EditState σ)
    (hfuel : Rose.sizes st.orig < fuel) :
    (phaseLoop (editDeleteOp fuel false B) removed ls st).1.isFailure =
      !deletesFound removed ls st.orig st.edit := by
  induction ls generalizing removed st with
  | nil => rfl
  | cons l ls ih =>
    simp only [phaseLoop, deletesFound]
    cases trackLoc removed l with
    | none => rfl
    | some l' =>
      simp only
      cases hfoc : Rose.focus? st.edit l' with
      | none => rfl
      | some p =>
        obtain ⟨n, ctx⟩ := p
        simp only [editDeleteOp_xml B n ctx st.orig st.world hfuel]
        cases hf : findElementEquiv st.orig (Rose.chain n ctx) with
        | none => rfl
        | some f =>
          have hle := sizes_purge_le (Rose.chain n ctx) (Rose.sizes st.orig) st.orig
          exact ih _ _ (Nat.lt_of_le_of_lt hle hfuel)

/-- The delete phase never makes the document larger. -/
theorem sizes_phaseLoop_delete_le (B : Backend σ) (removed ls : List Loc) (st : EditState σ)
    (hfuel : Rose.sizes st.orig < fuel) :
    Rose.sizes (phaseLoop (editDeleteOp fuel false B) removed ls st).2.orig ≤
      Rose.sizes st.orig := by
  induction ls generalizing removed st with
  | nil => exact Nat.le_refl _
  | cons l ls ih =>
    simp only [phaseLoop]
    cases trackLoc removed l with
    | none => exact Nat.le_refl _
    | some l' =>
      simp only
      cases hfoc : Rose.focus? st.edit l' with
      | none => exact Nat.le_refl _
      | some p =>
        obtain ⟨n, ctx⟩ := p
        simp only [editDeleteOp_xml B n ctx st.orig st.world hfuel]
        cases hf : findElementEquiv st.orig (Rose.chain n ctx) with
        | none => exact Nat.le_refl _
        | some f =>
          have hle := sizes_purge_le (Rose.chain n ctx) (Rose.sizes st.orig) st.orig
          exact Nat.le_trans (ih _ _ (Nat.lt_of_le_of_lt hle hfuel)) hle

/-- A delete phase whose first element has an equivalent makes the
document smaller. -/
theorem sizes_phaseLoop_delete_lt (B : Backend σ) {l : Loc} {ls : List Loc} {st : EditState σ}
    {n : Node} {ctx : List (Rose.Frame Label)} {f : Found} (hfuel : Rose.sizes st.orig < fuel)
    (hfoc : Rose.focus? st.edit l = some (n, ctx))
    (hf : findElementEquiv st.orig (Rose.chain n ctx) = some f) :
    Rose.sizes (phaseLoop (editDeleteOp fuel false B) [] (l :: ls) st).2.orig <
      Rose.sizes st.orig := by
  have hlt := sizes_purge_lt (sizes_pos_of_find hf) hf
  have hstep := editDeleteOp_xml B n ctx st.orig st.world hfuel
  rw [hf] at hstep
  simp only [phaseLoop, trackLoc, List.foldl_nil, hfoc, hstep]
  exact Nat.lt_of_le_of_lt
    (sizes_phaseLoop_delete_le B _ _ _ (Nat.lt_trans hlt hfuel)) hlt

/-! ### The document after a failed edit -/

/-- When a failed edit leaves the document as it was: the datastore is
absent, or the request is rejected before anything is edited, or no
`delete` element loses its equivalent to an earlier one. -/
def failsUnchanged (env : Setup) (defop : DefOp) (cfgds : Option Doc) (cfg : Doc) : Bool :=
  match cfgds, checkRequest env defop cfgds cfg, compactEditOperations env.noneCast defop cfg with
  | some orig, .success, some edit =>
    deletesFound [] (getOperationElements .delete edit) orig edit
  | _, _, _ => true

theorem checkRequest_success {cfgds : Option Doc}
    (h : checkRequest env defop cfgds cfg = .success) :
    checkKeys cfg = .success ∧ checkEditOps .delete defop env.mode cfgds cfg = .success ∧
      checkEditOps .create defop env.mode cfgds cfg = .success := by
  simp only [checkRequest] at h
  split at h
  · next hkeys =>
      split at h
      · next hdel => exact ⟨hkeys, hdel, h⟩
      · next hne => exact absurd h hne
  · next hne => exact absurd h hne

theorem untilDelete_of_ne_replace (fuel : Nat) (running : Bool) (B : Backend σ) (st : EditState σ)
    (h : defop ≠ .replace) :
    untilDelete fuel running B defop st = opPhase .delete (editDeleteOp fuel running B) st := by
  simp [untilDelete, h, andThen]

/-- After a default replace there is nothing left to delete. -/
theorem untilDelete_replace_not_failure (fuel : Nat) (running : Bool) (B : Backend σ)
    (st : EditState σ) : (untilDelete fuel running B .replace st).1.isFailure = false := by
  rw [untilDelete, if_pos rfl, andThen]
  split
  · next hs =>
      have hnil := defaultReplace_edit_nil (Prod.ext hs rfl)
      rw [opPhase, hnil, getOperationElements_nil]
      rfl
  · exact defaultReplace_not_failure running B fuel st

/-- The first element of the delete phase has an equivalent: the check
found it, and the compaction does not change what is found. -/
theorem find_of_compact_delete {orig edit : Doc}
    (hcheck : checkRequest env defop (some orig) cfg = .success)
    (hcompact : compactEditOperations env.noneCast defop cfg = some edit) {l : Loc}
    (hl : l ∈ getOperationElements .delete edit) :
    ∃ n ctx f, Rose.focus? edit l = some (n, ctx) ∧
      findElementEquiv orig (Rose.chain n ctx) = some f := by
  have hop := (mem_getOperationElements _ _ _).mp hl
  obtain ⟨d, n, ctx, f, hd, hfoc, hf⟩ :=
    checkEditOps_delete (checkRequest_success hcheck).2.1 (hasOp_of_compact hcompact hop)
  obtain rfl : orig = d := by simpa using hd
  obtain ⟨n', hn', -, -⟩ := hop
  obtain ⟨ctx', hfoc'⟩ := Rose.exists_focus? hn'
  refine ⟨n', ctx', f, hfoc', ?_⟩
  rw [findElementEquiv_congr (compact_chain hcompact hfoc hfoc'), hf]

/-- Where every `delete` element has its equivalent, `edit_operations` does
not fail. -/
theorem editOperations_not_failure (B : Backend σ) {st : EditState σ}
    (hfuel : Rose.sizes st.orig < fuel)
    (hfound : deletesFound [] (getOperationElements .delete st.edit) st.orig st.edit = true) :
    (editOperations fuel false B defop st).1.isFailure = false := by
  refine editOperations_xml_not_failure ?_
  by_cases hdefop : defop = .replace
  · rw [hdefop]
    exact untilDelete_replace_not_failure _ _ _ _
  · rw [untilDelete_of_ne_replace _ _ _ _ hdefop, opPhase,
      phaseLoop_delete_isFailure B [] _ _ hfuel, hfound]
    rfl

/-- `edit_operations` on a request that passed the checks: a failure
comes with a changed document, and it happens exactly when a `delete`
element has lost its equivalent. -/
theorem editOperations_failure_iff (B : Backend σ) {orig edit : Doc} (world : σ)
    (hcheck : checkRequest env defop (some orig) cfg = .success)
    (hcompact : compactEditOperations env.noneCast defop cfg = some edit)
    (hfuel : Rose.sizes orig < env.fuel) :
    ((editOperations env.fuel false B defop ⟨orig, edit, world⟩).1.isFailure = true →
      (editOperations env.fuel false B defop ⟨orig, edit, world⟩).2.orig = orig) ↔
    deletesFound [] (getOperationElements .delete edit) orig edit = true := by
  have hphase := phaseLoop_delete_isFailure B [] (getOperationElements .delete edit)
    ⟨orig, edit, world⟩ hfuel
  constructor
  · intro hsame
    by_contra hlost
    rw [Bool.not_eq_true] at hlost
    -- there is an element to delete, so the default operation is not replace
    obtain ⟨l, ls, hls⟩ : ∃ l ls, getOperationElements .delete edit = l :: ls := by
      cases hls : getOperationElements .delete edit with
      | nil => simp [hls, deletesFound] at hlost
      | cons l ls => exact ⟨l, ls, rfl⟩
    have hmem : l ∈ getOperationElements .delete edit := by simp [hls]
    have hdefop : defop ≠ .replace := by
      rintro rfl
      exact checkEditOps_delete_replace (checkRequest_success hcheck).2.1 l
        (hasOp_of_compact hcompact ((mem_getOperationElements _ _ _).mp hmem))
    have huntil := untilDelete_of_ne_replace env.fuel false B ⟨orig, edit, world⟩ hdefop
    have hfail : (untilDelete env.fuel false B defop ⟨orig, edit, world⟩).1.isFailure = true := by
      rw [huntil, opPhase, hphase, hlost]
      rfl
    obtain ⟨hfail', hst⟩ := editOperations_of_untilDelete_failure hfail
    obtain ⟨n, ctx, f, hfoc, hf⟩ := find_of_compact_delete hcheck hcompact hmem
    have hlt : Rose.sizes (phaseLoop (editDeleteOp env.fuel false B) [] (l :: ls)
        ⟨orig, edit, world⟩).2.orig < Rose.sizes orig :=
      sizes_phaseLoop_delete_lt B hfuel hfoc hf
    have hsame' := hsame hfail'
    rw [hst, huntil, opPhase] at hsame'
    simp only [hls] at hsame'
    rw [hsame'] at hlt
    exact absurd hlt (Nat.lt_irrefl _)
  · intro hfound hfail
    rw [editOperations_not_failure B hfuel hfound] at hfail
    exact absurd hfail (by simp)

/-- A failed edit of a local document leaves it as it was if and only if
no `delete` element loses its equivalent to an earlier one. -/
theorem editLocal_failure_iff (env : Setup) (B : Backend σ) (defop : DefOp)
    (cfgds : Option Doc) (cfg : Doc) (world : σ)
    (hfuel : ∀ d, cfgds = some d → Rose.sizes d < env.fuel) :
    ((editLocal env B defop cfgds cfg world).1.isFailure = true →
      (editLocal env B defop cfgds cfg world).2 = cfgds) ↔
    failsUnchanged env defop cfgds cfg = true := by
  cases hcheck : checkRequest env defop cfgds cfg with
  | success =>
    cases hcompact : compactEditOperations env.noneCast defop cfg with
    | none => simp [editLocal, failsUnchanged, hcheck, hcompact]
    | some edit =>
      cases cfgds with
      | none =>
        simp only [editLocal, failsUnchanged, hcheck, hcompact, iff_true]
        split <;> simp_all
      | some orig =>
        have h := editOperations_failure_iff B world hcheck hcompact (hfuel orig rfl)
        simpa [editLocal, failsUnchanged, hcheck, hcompact] using h
  | failure e => simp [editLocal, failsUnchanged, hcheck]
  | crash => simp [editLocal, failsUnchanged, hcheck]
  | timeout => simp [editLocal, failsUnchanged, hcheck]

/-- `failsUnchanged` for a call on a local datastore, from the request
and the state before it. -/
def editFailsUnchanged (env : Setup) (t : Datastore) (config : String) (defop : DefOp)
    (srv : Server σ) : Bool :=
  match (env.read config).filter validConfigRoot with
  | none => true
  | some cfg => failsUnchanged env (if defop = .notset then .merge else defop) (srv.gds t) cfg

theorem editFailsUnchanged_of_read {config : String}
    (h : (env.read config).filter validConfigRoot = some cfg) (t : Datastore) (defop : DefOp)
    (srv : Server σ) :
    editFailsUnchanged env t config defop srv =
      failsUnchanged env (if defop = .notset then .merge else defop) (srv.gds t) cfg := by
  simp only [editFailsUnchanged, h]

/-- A failed `ofcds_editconfig` on startup or candidate leaves both local
datastores as they were if and only if the datastore is absent, the
request is rejected before anything is edited, or no `delete` element
loses its equivalent to an earlier one. -/
theorem editconfig_failure_atomic_iff (env : Setup) (B : Backend σ) {t : Datastore}
    (ht : t.isLocal = true) (config : String) (defop : DefOp) (srv : Server σ)
    (hfuel : ∀ d, srv.gds t = some d → Rose.sizes d < env.fuel) :
    ((ofcdsEditconfig env B t config defop srv).1.isFailure = true →
      (ofcdsEditconfig env B t config defop srv).2.gdsStartup = srv.gdsStartup ∧
      (ofcdsEditconfig env B t config defop srv).2.gdsCand = srv.gdsCand) ↔
    editFailsUnchanged env t config defop srv = true := by
  simp only [ofcdsEditconfig, editFailsUnchanged]
  cases hcfg : (env.read config).filter validConfigRoot with
  | none => simp
  | some cfg =>
    have h := editLocal_failure_iff env B (if defop = .notset then .merge else defop)
      (srv.gds t) cfg srv.world hfuel
    cases t <;> simp [Datastore.isLocal] at ht
    · simpa [storeRollback, Server.gds] using h
    · simpa [storeRollback, Server.gds] using h

/-! ### Two deletes of one port -/

/-- A document that is known by its text is what an edit with that text works on. -/
theorem filter_read_ofDocs (cfg : Doc) (docs : List Doc) (h : validConfigRoot cfg = true) :
    ((Setup.ofDocs (cfg :: docs)).read (xmlText cfg)).filter validConfigRoot = some cfg := by
  rw [Setup.read_ofDocs, Option.filter_some, if_pos h]

/-- A port entry, with or without an operation. -/
def portEntry (name : String) (op : Option String) : Node :=
  .node (.element "port" none (op.toList.map (⟨some ncNsBase10, "operation", ·⟩)))
    [elem "name" none [txt name]]

/-- A capable-switch with the given ports. -/
def switchWithPorts (ports : List Node) : Doc :=
  [elem "capable-switch" none [elem "resources" none ports]]

/-- A server whose startup datastore holds the port `eth0`. -/
def startupWithPort : Server Unit :=
  ofcdsInit (some (switchWithPorts [portEntry "eth0" none])) ()

/-- A delete of a port that is not there is rejected by the check, and
the datastores stay as they were. -/
theorem editconfig_failure_atomic_missing_port :
    let cfg := switchWithPorts [portEntry "eth1" (some "delete")]
    (ofcdsEditconfig (.ofDocs [cfg]) idleBackend .startup (xmlText cfg) .merge
      startupWithPort).1.isFailure = true ∧
    (ofcdsEditconfig (.ofDocs [cfg]) idleBackend .startup (xmlText cfg) .merge
      startupWithPort).2.gdsStartup = startupWithPort.gdsStartup := by
  intro cfg
  have hread := filter_read_ofDocs cfg [] (by decide)
  have hsize : ∀ d, startupWithPort.gds .startup = some d →
      Rose.sizes d < (Setup.ofDocs [cfg]).fuel := by
    intro d hd
    cases hd
    decide
  have hiff := editconfig_failure_atomic_iff (.ofDocs [cfg]) idleBackend rfl (xmlText cfg) .merge
    startupWithPort hsize
  have hfail : (ofcdsEditconfig (.ofDocs [cfg]) idleBackend .startup (xmlText cfg) .merge
      startupWithPort).1.isFailure = true := by
    rw [ofcdsEditconfig_startup hread]
    decide +kernel
  refine ⟨hfail, (hiff.mpr ?_ hfail).1⟩
  rw [editFailsUnchanged_of_read hread]
  decide +kernel

/-- Two deletes of one port: the call fails, and the port is gone. -/
theorem editconfig_failure_not_atomic :
    let cfg := switchWithPorts [portEntry "eth0" (some "delete"), portEntry "eth0" (some "delete")]
    let r := ofcdsEditconfig (.ofDocs [cfg]) idleBackend .startup (xmlText cfg) .merge
      startupWithPort
    r.1 = .failure (some { tag := .dataMissing }) ∧
    startupWithPort.gdsStartup = some (switchWithPorts [portEntry "eth0" none]) ∧
    r.2.gdsStartup = some (switchWithPorts []) := by
  intro cfg
  have hread := filter_read_ofDocs cfg [] (by decide)
  rw [ofcdsEditconfig_startup hread]
  decide +kernel

end OfConfig.Proofs
