import OfConfig.Proofs.Addresses
import OfConfig.Proofs.CalmSteps
import OfConfig.Proofs.Granted
import OfConfig.Proofs.Transactions

/-!
# `OfConfig.Proofs.RootLoops`: the two endless loops of `edit_operations`

`Proofs.Finishes` says that `edit_operations` ends if the root of the running datastore is
handled by the loops it is in. Here this is a condition on the two documents and on the
calls that the OVSDB grants.

* The delete and remove phases find the root of the datastore again and again, because
  `edit_delete` does not unlink it. They get there if the root of the edit document has an
  equivalent and the operation `delete`, or the operation `remove` and the deletes before
  it are granted.
* The default replace tries a root that was refused again and again. A root whose `id` was
  handled before the refusal has none on the next try, and is refused for that from then
  on (`not_rootReplaced_of_noId`).

`editOperations_finishes` is the result: `RootHandled` is enough, and it is needed if the
server grants the commits of `txn_del_all` and the `id` comes first.
-/

set_option autoImplicit false

namespace OfConfig.Proofs

open OfConfig.Lib OfConfig.Xml OfConfig.Edit OfConfig.Ovs

variable {σ : Type}
variable {B : Backend σ} {fuel : Nat} {n : Node} {st : EditState σ}

/-! ### The condition -/

/-- What `edit_replace` of a root asks for: everything is deleted if the root has an
equivalent, then it is created. -/
def replaceAsks (orig : Doc) (root : Node) : List Ask :=
  (if (findElementEquiv orig [root]).isSome then [.delAll] else []) ++
    asks ⟨dropOpAttr, createAction⟩ root []

/-- Every `delete` element has an equivalent when its turn comes, and the calls for all
of them are granted. -/
def DeletesGranted (B : Backend σ) (st : EditState σ) : Prop :=
  ∃ plan, deletePlan [] (getOperationElements .delete st.edit) st.orig st.edit = some plan ∧
    (askAll B plan st.world).1 = .success

/-- The root of the edit document does not get into an endless loop. Under the default
replace no call for it is refused. Else, if it has an equivalent, its operation is not
`delete`, and it is not `remove` unless the delete phase ends before. -/
def RootHandled (B : Backend σ) (defop : DefOp) (st : EditState σ) : Prop :=
  ∀ root ∈ st.edit, root.label.isElement = true →
    if defop = .replace then
      (askAll B (replaceAsks st.orig root) st.world).1.outcome.isFailure = false
    else (findElementEquiv st.orig [root]).isSome = true →
      getOperation root.label ≠ .op .delete ∧
        (getOperation root.label = .op .remove → ¬ DeletesGranted B st)

/-- The root has no id, or its id is the first of its elements and the only one. -/
def IdFirst (root : Node) : Prop :=
  getKey (some root) "id" = none ∨
    ∃ before idn after, root.children = before ++ idn :: after ∧
      (∀ c ∈ before, c.label.isElement = false) ∧
      idn.label.isElement = true ∧ idn.label.name = "id" ∧
      ∀ c ∈ after, c.label.name ≠ "id"

/-! ### The labels at the top -/

/-- Whether a root has an equivalent depends on the labels at the top alone. -/
theorem find_root_isSome_iff {D : Doc} (hname : n.label.name = "capable-switch") :
    (findElementEquiv D [n]).isSome = true ↔ ∃ l ∈ D.map Rose.label, labelMatches n.label l := by
  constructor
  · intro h
    obtain ⟨f, hf⟩ := Option.isSome_iff_exists.mp h
    obtain ⟨d, hd, hm⟩ := hasRoot_of_find hf
    exact ⟨d.label, List.mem_map_of_mem hd, hm⟩
  · rintro ⟨l, hl, hm⟩
    obtain ⟨d, hd, rfl⟩ := List.mem_map.mp hl
    have hsome : (D.find? (fun t => labelMatches n.label t.label)).isSome = true :=
      List.find?_isSome.mpr ⟨d, hd, hm⟩
    obtain ⟨s, hs⟩ := Option.isSome_iff_exists.mp hsome
    obtain ⟨g, hg, -⟩ := find_root_of_find? hname hs
    simp [hg]

theorem map_label_editDeleteAt (running : Bool) (B : Backend σ) {l : Loc} (hl : 2 ≤ l.length)
    (D : Doc) (s : σ) :
    (editDeleteAt running B l D s).2.1.map Rose.label = D.map Rose.label := by
  rw [editDeleteAt]
  split
  · split
    · rfl
    · exact Rose.map_label_modify _ hl D
  · exact Rose.map_label_modify _ hl D

/-- The loop over the equivalents of a node below the root. -/
theorem map_label_deleteAll {running : Bool} {chain : List Node} (hlong : 2 ≤ chain.length)
    (D : Doc) (s : σ) :
    (deleteAll fuel running B chain D s).2.1.map Rose.label = D.map Rose.label := by
  rw [deleteAll]
  cases hr : Loop.run (deleteRound running B chain) fuel (D, s) with
  | none => rfl
  | some r =>
    have hlen : ∀ {D₁ : Doc} {f : Found}, findElementEquiv D₁ chain = some f →
        2 ≤ f.loc.length := by
      intro D₁ f hf
      rw [length_loc_of_find hf]
      exact hlong
    refine Loop.run_induct (fun st : Doc × σ => st.1.map Rose.label = D.map Rose.label)
      (fun r => r.2.1.map Rose.label = D.map Rose.label) ?_ ?_ rfl hr
    · rintro ⟨D₁, s₁⟩ st' hI hround
      simp only [deleteRound] at hround
      split at hround
      · simp at hround
      · next f hf =>
          have hmap := map_label_editDeleteAt running B (hlen hf) D₁ s₁
          split at hround
          · next hdel =>
              cases hround
              rw [hdel] at hmap
              exact hmap.trans hI
          · simp at hround
    · rintro ⟨D₁, s₁⟩ r hI hround
      simp only [deleteRound] at hround
      split at hround
      · cases hround
        exact hI
      · next f hf =>
          have hmap := map_label_editDeleteAt running B (hlen hf) D₁ s₁
          split at hround
          · simp at hround
          · cases hround
            exact hmap.trans hI

/-- A delete phase below the root keeps the labels at the top of both documents. -/
theorem map_label_deletePhase (fuel : Nat) (running : Bool) (B : Backend σ) (removed : List Loc)
    {ls : List Loc} (hls : ∀ l ∈ ls, 2 ≤ l.length) (st : EditState σ) :
    (phaseLoop (editDeleteOp fuel running B) removed ls st).2.orig.map Rose.label =
        st.orig.map Rose.label ∧
      (phaseLoop (editDeleteOp fuel running B) removed ls st).2.edit.map Rose.label =
        st.edit.map Rose.label := by
  have hstep : ∀ {removed l ls} {st₁ : EditState σ} {l' n ctx},
      (∀ x ∈ l :: ls, 2 ≤ x.length) → trackLoc removed l = some l' →
      Rose.focus? st₁.edit l' = some (n, ctx) →
      (editDeleteOp fuel running B n ctx st₁.orig st₁.world).orig.map Rose.label =
          st₁.orig.map Rose.label ∧ 2 ≤ l'.length := by
    intro removed l ls st₁ l' n ctx hls htrack hfoc
    have h1 := Rose.length_of_focus? hfoc
    have h2 := length_trackLoc htrack
    have h3 := hls l (by simp)
    refine ⟨?_, by omega⟩
    rw [editDeleteOp]
    split
    · rfl
    · exact map_label_deleteAll (by rw [Rose.length_chain]; omega) _ _
  refine phaseLoop_induct
    (fun _ ls st₁ => (∀ l ∈ ls, 2 ≤ l.length) ∧
      st₁.orig.map Rose.label = st.orig.map Rose.label ∧
      st₁.edit.map Rose.label = st.edit.map Rose.label)
    (fun r => r.2.orig.map Rose.label = st.orig.map Rose.label ∧
      r.2.edit.map Rose.label = st.edit.map Rose.label)
    ?_ ?_ ?_ ?_ ⟨hls, rfl, rfl⟩
  · exact fun removed st₁ h => h.2
  · exact fun removed l ls st₁ h => h.2
  · intro removed l ls st₁ l' n ctx h htrack hfoc _
    obtain ⟨horig, hlen⟩ := hstep h.1 htrack hfoc
    refine ⟨fun x hx => h.1 x (List.mem_cons_of_mem _ hx), horig.trans h.2.1, ?_⟩
    exact (Rose.map_label_modify _ hlen _).trans h.2.2
  · intro removed l ls st₁ l' n ctx h htrack hfoc _
    obtain ⟨horig, hlen⟩ := hstep h.1 htrack hfoc
    exact ⟨horig.trans h.2.1, (Rose.map_label_modify _ hlen _).trans h.2.2⟩

/-! ### The condition is enough -/

/-- A delete phase that succeeds has no root to delete. -/
theorem deep_of_deletePhase (hone : SingleRoot st.edit)
    (hout : (opPhase .delete (editDeleteOp fuel true B) st).1 = .success) :
    ∀ l ∈ getOperationElements .delete st.edit, 2 ≤ l.length := by
  rcases getOperationElements_shape .delete hone with hdeep | ⟨i, root, ls, hls, hi, he, -, -⟩
  · exact hdeep
  · exfalso
    have hfoc : Rose.focus? st.edit [i] = some (root, []) := by
      simp [Rose.focus?, hi, Rose.focusIn]
    have hfails : (editDeleteOp fuel true B root [] st.orig st.world).out ≠ .success := by
      cases hf : findElementEquiv st.orig [root] with
      | none =>
        have hf' : findElementEquiv st.orig (Rose.chain root []) = none := hf
        simp [editDeleteOp, hf']
      | some f => exact ((deletingStep_delete true B).root he hf st.world).1 fuel
    rw [opPhase, hls, phaseLoop_stop rfl hfoc hfails] at hout
    exact hfails hout

/-- The delete phase of a root that is not to be deleted, with enough rounds. -/
theorem deletePhase_granted_iff (B : Backend σ)
    (hdeep : ∀ l ∈ getOperationElements .delete st.edit, 2 ≤ l.length)
    (hfuel : Rose.sizes st.orig < fuel) :
    (opPhase .delete (editDeleteOp fuel true B) st).1 = .success ↔ DeletesGranted B st := by
  have hiff := deletePhase_success_iff B hdeep [] st hfuel
  constructor
  · intro hout
    obtain ⟨plan, hplan, hask⟩ := (hiff _).mp ⟨hout, rfl⟩
    exact ⟨plan, hplan, congrArg Prod.fst hask⟩
  · rintro ⟨plan, hplan, hask⟩
    exact ((hiff _).mpr ⟨plan, hplan, Prod.ext hask rfl⟩).1

/-- `edit_replace` of a root is asking for its calls. -/
theorem editReplace_root_out (B : Backend σ) {root : Node} (he : root.label.isElement = true)
    (D : Doc) (s : σ) :
    (editReplace true B root [] D s).out = (askAll B (replaceAsks D root) s).1.outcome := by
  have hcreate : ∀ D s, (editCreate true B root [] D s).out =
      (askAll B (asks ⟨dropOpAttr, createAction⟩ root []) s).1.outcome := by
    intro D s
    have hask : ((editCreateRunning B root [] s).out, (editCreateRunning B root [] s).world) =
        askAll B (asks ⟨dropOpAttr, createAction⟩ root []) s := applyNode_askAll _ B root [] s
    rw [← hask]
    rfl
  cases hf : findElementEquiv D [root] with
  | none =>
    have hf' : findElementEquiv D (Rose.chain root []) = none := hf
    simp only [editReplace, hf', replaceAsks, hf, hcreate]
    rfl
  | some f =>
    have hf' : findElementEquiv D (Rose.chain root []) = some f := hf
    have hask : askAll B (replaceAsks D root) s = if (B.delAll s).1 = .success then
        askAll B (asks ⟨dropOpAttr, createAction⟩ root []) (B.delAll s).2 else B.delAll s := by
      simp only [replaceAsks, hf, Option.isSome_some, if_true, List.singleton_append]
      exact askAll_cons B .delAll _ s
    simp only [editReplace, hf', editDeleteAt_root B he hf, hask]
    by_cases hdel : (B.delAll s).1 = .success
    · simp only [hdel, Reply.outcome, if_true, hcreate]
    · rw [if_neg hdel]
      split
      · next heq => simp [hdel] at heq
      · next heq => exact (congrArg Prod.fst heq).symm

/-- A root that is handled does not keep `edit_operations` from ending. -/
theorem finishes_of_rootHandled {defop : DefOp} (h : ConfigRoot st.edit)
    (hroot : RootHandled B defop st) : Finishes true B defop st := by
  refine (finishes_iff true B defop h).mpr fun _ => ?_
  by_cases hdef : defop = .replace
  · simp only [RootHandled, if_pos hdef] at hroot
    rw [RootEnds, if_pos hdef]
    intro root hmem he
    refine .done fun hfail => ?_
    rw [editReplace_root_out B he, hroot root hmem he] at hfail
    cases hfail
  · simp only [RootHandled, if_neg hdef] at hroot
    rw [RootEnds, if_neg hdef]
    constructor
    · rintro ⟨root, hmem, he, hop, hsome, -⟩
      exact (hroot root hmem he hsome).1 (getOperation_eq_op.mpr hop)
    · rintro fuel st' hphase ⟨root', hmem', he', hop', hsome', -⟩
      have hout : (opPhase .delete (editDeleteOp fuel true B) st).1 = .success :=
        congrArg Prod.fst hphase
      have hdeep := deep_of_deletePhase h.single hout
      -- the root is still there, and so is its equivalent
      obtain ⟨horig, hedit⟩ := map_label_deletePhase fuel true B [] hdeep st
      rw [show phaseLoop _ _ _ _ = _ from hphase] at horig hedit
      have hlabel : root'.label ∈ st.edit.map Rose.label := by
        rw [← hedit]
        exact List.mem_map_of_mem hmem'
      obtain ⟨root, hmem, hsame⟩ := List.mem_map.mp hlabel
      have he : root.label.isElement = true := by rwa [hsame]
      have hname := h.named root hmem he
      have hsome : (findElementEquiv st.orig [root]).isSome = true := by
        rw [find_root_isSome_iff hname, ← horig, hsame]
        exact (find_root_isSome_iff (by rwa [← hsame])).mp hsome'
      -- more rounds do not change a phase that has ended
      have hmore : opPhase .delete (editDeleteOp (max fuel (Rose.sizes st.orig + 1)) true B) st =
          opPhase .delete (editDeleteOp fuel true B) st :=
        (deletingStep_delete true B).phaseLoop_mono (Nat.le_max_left _ _) _ _ _
          (by rw [show phaseLoop _ _ _ _ = _ from hphase]; simp)
      have hgranted : DeletesGranted B st :=
        (deletePhase_granted_iff B hdeep (Nat.le_max_right _ _)).mp (by rw [hmore]; exact hout)
      exact (hroot root hmem he hsome).2 (by rw [hsame]; exact getOperation_eq_op.mpr hop') hgranted

/-! ### The condition is needed -/

/-- The server accepts every commit. -/
def Grants (env : Env) : Prop := ∀ db, ∃ db', env.commit db = .ok db'

section

variable {env : Env} {w : World}

/-- Inside a transaction, `txn_del_all` succeeds and opens the next one. -/
theorem delAll_granted (hg : Grants env) (htxn : w.txn.isSome = true) :
    ((ovsBackend env).delAll w).1 = .success ∧
      ((ovsBackend env).delAll w).2.txn.isSome = true := by
  have hreply : ((ovsBackend env).delAll w).1 = .success := by
    obtain ⟨base, hbase⟩ := Option.isSome_iff_exists.mp htxn
    obtain ⟨db, hdb⟩ := hg (pending w.stored (delRoots w.idl))
    simp [ovsBackend, txnDelAll_run, txnCommit, hbase, hdb, Global.reply]
  exact ⟨hreply, delAll_open env w (by simp [hreply])⟩

theorem not_delAllStops (hg : Grants env) (htxn : w.txn.isSome = true) :
    ¬ DelAllStops (ovsBackend env) w := by
  rintro ⟨k, r, hr⟩
  have hnone : Loop.run (delAllRound (ovsBackend env)) k w = none := by
    refine Loop.run_eq_none_of_invariant (fun w : World => w.txn.isSome = true) ?_ htxn k
    intro w hw
    obtain ⟨hreply, hopen⟩ := delAll_granted hg hw
    refine ⟨_, ?_, hopen⟩
    rw [delAllRound, show (ovsBackend env).delAll w = (.success, _) from Prod.ext hreply rfl]
  simp [hnone] at hr

/-- What is granted leaves a transaction open. -/
theorem askAll_open {as : List Ask} (htxn : w.txn.isSome = true)
    (h : (askAll (ovsBackend env) as w).1 = .success) :
    (askAll (ovsBackend env) as w).2.txn.isSome = true := by
  induction as generalizing w with
  | nil => exact htxn
  | cons a as ih =>
    rw [askAll_cons] at h ⊢
    split at h
    · next hput =>
        rw [if_pos hput]
        refine ih ?_ h
        cases a with
        | call op =>
          rw [Ask.put, exec_txn]
          exact htxn
        | queueRef br queue => exact htxn
        | delAll =>
          have hreply : ((ovsBackend env).delAll w).1 = .success := hput
          exact delAll_open env w (by simp [hreply])
        | refuse e => simp [Ask.put] at hput
    · next hput => exact absurd h hput

/-- Under the default operations without a replace: a root that is not handled is found
again by one of the two phases. -/
theorem rootHandled_of_phases {defop : DefOp} {st : EditState World} (h : ConfigRoot st.edit)
    (hg : Grants env) (htxn : st.world.txn.isSome = true) (hdef : defop ≠ .replace)
    (hends : RootEnds (ovsBackend env) defop st) : RootHandled (ovsBackend env) defop st := by
  rw [RootEnds, if_neg hdef] at hends
  obtain ⟨hdelete, hremove⟩ := hends
  intro root hmem he
  rw [if_neg hdef]
  intro hsome
  refine ⟨fun hop => ?_, fun hop hgranted => ?_⟩
  · exact hdelete ⟨root, hmem, he, getOperation_eq_op.mp hop, hsome, not_delAllStops hg htxn⟩
  · -- the root is to be removed, so the elements to delete are below it
    have hdeep : ∀ l ∈ getOperationElements .delete st.edit, 2 ≤ l.length := by
      rcases getOperationElements_shape .delete h.single with
        hdeep | ⟨i, root', ls, -, hi, he', hop', -⟩
      · exact hdeep
      · have hsame := singleRoot_unique h.single hmem (List.mem_of_getElem? hi) he he'
        rw [← hsame, ← getOperation_eq_op, hop] at hop'
        cases hop'
    have hfuel := Nat.lt_succ_self (Rose.sizes st.orig)
    have hout := (deletePhase_granted_iff (ovsBackend env) hdeep hfuel).mpr hgranted
    obtain ⟨horig, hedit⟩ := map_label_deletePhase (Rose.sizes st.orig + 1) true (ovsBackend env) []
      hdeep st
    obtain ⟨plan, -, hask⟩ := (deletePhase_success_iff (ovsBackend env) hdeep [] st hfuel _).mp
      ⟨hout, rfl⟩
    have hopen := askAll_open htxn (congrArg Prod.fst hask)
    rw [hask] at hopen
    -- what the delete phase leaves has the root and its equivalent
    have hlabel : root.label ∈ ((phaseLoop (editDeleteOp (Rose.sizes st.orig + 1) true
        (ovsBackend env)) [] (getOperationElements .delete st.edit) st).2.edit).map Rose.label := by
      rw [hedit]
      exact List.mem_map_of_mem hmem
    obtain ⟨root', hmem', hsame⟩ := List.mem_map.mp hlabel
    have hname := h.named root hmem he
    refine hremove _ _ (Prod.ext hout rfl) ⟨root', hmem', by rwa [hsame], ?_, ?_,
      not_delAllStops hg hopen⟩
    · rw [hsame]
      exact getOperation_eq_op.mp hop
    · rw [find_root_isSome_iff (by rwa [hsame]), opPhase, horig, hsame]
      exact (find_root_isSome_iff hname).mp hsome

/-- With or without an equivalent, `edit_replace` of a root goes on to `edit_create`. -/
theorem editReplace_root_create (hg : Grants env) (htxn : w.txn.isSome = true)
    (he : n.label.isElement = true) (D : Doc) :
    ∃ w', w'.txn.isSome = true ∧ editReplace true (ovsBackend env) n [] D w =
      editCreate true (ovsBackend env) n [] D w' := by
  cases hf : findElementEquiv D [n] with
  | none =>
    have hf' : findElementEquiv D (Rose.chain n []) = none := hf
    exact ⟨w, htxn, by simp only [editReplace, hf']⟩
  | some f =>
    have hf' : findElementEquiv D (Rose.chain n []) = some f := hf
    obtain ⟨hreply, hopen⟩ := delAll_granted hg htxn
    refine ⟨_, hopen, ?_⟩
    simp only [editReplace, hf', editDeleteAt_root (ovsBackend env) he hf, hreply, Reply.outcome]

/-- A root without an id is refused, and stays. -/
theorem editCreate_noId (he : n.label.isElement = true) (hid : getKey (some n) "id" = none)
    (D : Doc) (w : World) :
    editCreate true (ovsBackend env) n [] D w = ⟨.failure (some missingSwitchId),
      some (.node (dropOpAttr n.label) n.children), D, w⟩ := by
  cases n with
  | node l cs =>
    have hkey : getKey (some (.node (dropOpAttr l) cs)) "id" = none := hid
    have hl : l.isElement = true := he
    simp [editCreate, editCreateRunning, applyNode, hl, createAction, hkey, Reply.outcome]

/-- It is refused in every round. -/
theorem not_rootReplaced_of_noId (hg : Grants env) (htxn : w.txn.isSome = true)
    (he : n.label.isElement = true) (hid : getKey (some n) "id" = none) (D : Doc) :
    ¬ RootReplaced (ovsBackend env) n D w := by
  intro h
  induction h with
  | @done n D w h =>
    obtain ⟨w', -, heq⟩ := editReplace_root_create hg htxn he D
    rw [heq, editCreate_noId he hid] at h
    exact absurd (h rfl) (by simp)
  | @again n m D w hfail hleft _ ih =>
    obtain ⟨w', hopen, heq⟩ := editReplace_root_create hg htxn he D
    rw [heq, editCreate_noId he hid] at hleft
    cases hleft
    refine ih ?_ ?_ ?_
    · rw [heq, editCreate_noId he hid]
      exact hopen
    · simpa using he
    · exact hid

/-- After the id, no child with its name is left, however far the loop gets. -/
theorem applyChildren_noId (env : Env) {l : Label} (hl : l.name = "capable-switch")
    {before after : List Node}
    {idn : Node} (hbefore : ∀ c ∈ before, c.label.isElement = false)
    (he : idn.label.isElement = true) (hid : idn.label.name = "id")
    (hafter : ∀ c ∈ after, c.label.name ≠ "id") (w : World) :
    ∀ c ∈ (applyChildren ⟨dropOpAttr, createAction⟩ (ovsBackend env) l (before ++ idn :: after) []
      w).2.1, c.label.name ≠ "id" := by
  induction before generalizing w with
  | nil =>
    have hact : actionAt ⟨dropOpAttr, createAction⟩ idn [⟨[], l, after⟩] = .call (.setSwitchid
        (some (.node (dropOpAttr idn.label) idn.children))) :=
      createAction_id (by simp [isId, Rose.path, hid, hl])
    have hstep : applyNode ⟨dropOpAttr, createAction⟩ (ovsBackend env) idn [⟨[], l, after⟩] w =
        ⟨.success, none, ((ovsBackend env).exec (.setSwitchid
          (some (.node (dropOpAttr idn.label) idn.children))) w).2⟩ := by
      cases idn with
      | node m ds =>
        have he' : m.isElement = true := he
        simp only [actionAt, Rose.label_node, Rose.children_node] at hact
        rw [applyNode]
        simp only [he', hact, finish, exec_setSwitchid]
        simp
    rw [List.nil_append, applyChildren, hstep]
    refine applyChildren_left hafter (fun c hc left right s c' hleft => ?_) _
    rw [applyNode_left_label hleft]
    simpa using hafter c hc
  | cons c before ih =>
    have hstep : applyNode ⟨dropOpAttr, createAction⟩ (ovsBackend env) c
        [⟨[], l, before ++ idn :: after⟩] w = ⟨.success, none, w⟩ := by
      cases c with
      | node m ds =>
        have hm : m.isElement = false := hbefore (.node m ds) (by simp)
        simp [applyNode, hm]
    rw [List.cons_append, applyChildren, hstep]
    exact ih (fun d hd => hbefore d (by simp [hd])) w

/-- What is left of a root that was refused has no id. -/
theorem getKey_of_refused {m : Node} (he : n.label.isElement = true)
    (hname : n.label.name = "capable-switch") (hfirst : IdFirst n)
    (hleft : (editCreateRunning (ovsBackend env) n [] w).left = some m) :
    getKey (some m) "id" = none := by
  obtain ⟨l, cs⟩ := n
  have hl : l.isElement = true := he
  cases hkey : getKey (some (.node (dropOpAttr l) cs)) "id" with
  | none =>
    simp [editCreateRunning, applyNode, hl, createAction, hkey] at hleft
    rw [← hleft]
    exact hkey
  | some key =>
    rcases hfirst with hnone | ⟨before, idn, after, rfl, hbefore, hidn, hid, hafter⟩
    · exact absurd (hkey.symm.trans hnone) (by simp)
    · have hnoid := applyChildren_noId env (l := dropOpAttr l) (by simpa using hname) hbefore hidn
        hid hafter w
      simp only [editCreateRunning, applyNode, hl, createAction, hkey, finish] at hleft
      simp at hleft
      obtain ⟨-, rfl⟩ := hleft
      have hgo : go2node (applyChildren ⟨dropOpAttr, createAction⟩ (ovsBackend env) (dropOpAttr l)
          (before ++ idn :: after) [] w).2.1 "id" = none := by
        rw [go2node, List.find?_eq_none]
        intro c hc
        simp [hnoid c hc]
      simp [getKey, hgo]

/-- `edit_create` leaves the transaction open. -/
theorem editCreate_open {ctx : List (Rose.Frame Label)} {D : Doc} (htxn : w.txn.isSome = true) :
    (editCreate true (ovsBackend env) n ctx D w).world.txn.isSome = true := by
  refine applyNode_inv (I := fun w : World => w.txn.isSome = true) (P := fun _ => True)
    (fun _ _ => True) ?_ ?_ (fun _ _ _ _ _ _ _ _ _ => trivial) trivial htxn
  · intro op _ w hw
    rwa [exec_txn]
  · intro n ctx _ _
    exact createAction_calls (fun _ _ _ => trivial) (fun _ _ => trivial) (fun _ _ _ => trivial)

/-- Under the default replace: a root that is refused is refused for ever. -/
theorem rootHandled_of_replaced {st : EditState World} (h : ConfigRoot st.edit) (hg : Grants env)
    (htxn : st.world.txn.isSome = true)
    (hfirst : ∀ root ∈ st.edit, root.label.isElement = true → IdFirst root)
    (hends : RootEnds (ovsBackend env) .replace st) :
    RootHandled (ovsBackend env) .replace st := by
  rw [RootEnds, if_pos rfl] at hends
  intro root hmem he
  rw [if_pos rfl, ← editReplace_root_out (ovsBackend env) he, ← Bool.not_eq_true]
  intro hfail
  have hname := h.named root hmem he
  obtain ⟨w', hopen, heq⟩ := editReplace_root_create hg htxn he st.orig
  have hleft : ∀ m, (editReplace true (ovsBackend env) root [] st.orig st.world).left = some m →
      m.label.isElement = true ∧ getKey (some m) "id" = none := by
    intro m hm
    have hm' : (editCreateRunning (ovsBackend env) root [] w').left = some m := by
      simpa [heq, editCreate] using hm
    refine ⟨?_, getKey_of_refused he hname (hfirst root hmem he) hm'⟩
    rw [applyNode_left_label hm']
    simpa using he
  cases hends root hmem he with
  | done hdone =>
    -- a node that was refused is not unlinked
    have hnone : (editCreateRunning (ovsBackend env) root [] w').left = none := by
      simpa [heq, editCreate] using hdone hfail
    have hsucc := applyNode_left_none hnone
    simp [heq, editCreate, editCreateRunning, hsucc, Reply.outcome] at hfail
  | @again _ m _ _ _ hm hnext =>
    obtain ⟨hem, hkey⟩ := hleft m hm
    refine not_rootReplaced_of_noId hg ?_ hem hkey _ hnext
    rw [heq]
    exact editCreate_open hopen

end

/-- `edit_operations` finishes on a local datastore, and on the running one if the root is
handled. That is also needed, if the server accepts the commits inside `txn_del_all` and, for
the default replace, the id of the root comes first. -/
theorem editOperations_finishes (running : Bool) (env : Env) (defop : DefOp)
    {st : EditState World} (h : ConfigRoot st.edit) :
    ((running = true → RootHandled (ovsBackend env) defop st) →
      Finishes running (ovsBackend env) defop st) ∧
    (Grants env → st.world.txn.isSome = true →
      (defop = .replace → ∀ root ∈ st.edit, root.label.isElement = true → IdFirst root) →
      Finishes running (ovsBackend env) defop st →
      running = true → RootHandled (ovsBackend env) defop st) := by
  refine ⟨fun hroot => ?_, fun hg htxn hfirst hfin hrunning => ?_⟩
  · cases running with
    | false => exact (finishes_iff false (ovsBackend env) defop h).mpr nofun
    | true => exact finishes_of_rootHandled h (hroot rfl)
  · have hends := (finishes_iff running (ovsBackend env) defop h).mp hfin hrunning
    by_cases hdef : defop = .replace
    · subst hdef
      exact rootHandled_of_replaced h hg htxn (hfirst rfl) hends
    · exact rootHandled_of_phases h hg htxn hdef hends

/-! ### One switch -/

/-- A transaction on a database with one bridge and one port. -/
def openWorld : World :=
  let db : Db := { openVswitch := [⟨0, false, true, { bridges := [1] }⟩]
                   bridge := [⟨1, false, true, { name := some "br0", ports := [2] }⟩]
                   port := [⟨2, false, true, { name := some "p1", interfaces := [3] }⟩]
                   interface := [⟨3, false, true, { name := some "p1" }⟩] }
  txnInit { idl := db, stored := db, csId := some "cs0" }

/-- What the running configuration of this database is. -/
def bridgedSwitch : Doc :=
  [ofcElem "capable-switch" none [ofcElem "id" none [txt "cs0"],
    ofcElem "resources" none [ofcElem "port" none [ofcElem "name" none [txt "p1"]]],
    ofcElem "logical-switches" none [ofcElem "switch" none [ofcElem "id" none [txt "br0"],
      ofcElem "resources" none [ofcElem "port" none [txt "p1"]]]]]]

/-- Another switch, with a flow table. -/
def tableSwitch : Doc :=
  [ofcElem "capable-switch" none [ofcElem "id" none [txt "cs1"],
    ofcElem "resources" none [ofcElem "flow-table" none
      [ofcElem "table-id" none [txt "1"], ofcElem "name" none [txt "acl"]]],
    ofcElem "logical-switches" none [ofcElem "switch" none [ofcElem "id" none [txt "br1"],
      ofcElem "resources" none [ofcElem "flow-table" none [txt "1"]]]]]]

/-- The root is to be removed, and the port in it to be deleted twice. -/
def removeSwitch : Doc :=
  let port := ofcElem "port" (some .delete) [ofcElem "name" none [txt "p1"]]
  [ofcElem "capable-switch" (some .remove) [ofcElem "resources" none [port, port]]]

/-- A default replace of everything, all of whose calls are granted, and a root that would be
removed if the second delete of the port before it did not fail. -/
theorem editOperations_finishes_switch :
    Finishes true (ovsBackend grantingEnv) .replace ⟨bridgedSwitch, tableSwitch, openWorld⟩ ∧
    Finishes true (ovsBackend grantingEnv) .merge ⟨bridgedSwitch, removeSwitch, openWorld⟩ := by
  constructor
  · have hroot : ConfigRoot tableSwitch := ⟨⟨by decide, by decide⟩, by decide, by decide⟩
    refine (editOperations_finishes true grantingEnv .replace hroot).1 fun _ root hmem _ => ?_
    obtain rfl := List.mem_singleton.mp hmem
    rw [if_pos rfl]
    decide +kernel
  · have hroot : ConfigRoot removeSwitch := ⟨⟨by decide, by decide⟩, by decide, by decide⟩
    refine (editOperations_finishes true grantingEnv .merge hroot).1 fun _ root hmem _ => ?_
    obtain rfl := List.mem_singleton.mp hmem
    intro _
    refine ⟨by decide, fun _ => ?_⟩
    rintro ⟨plan, hplan, -⟩
    have hnone : deletePlan [] (getOperationElements .delete removeSwitch)
        bridgedSwitch removeSwitch =
        none := by decide +kernel
    exact absurd (hnone.symm.trans hplan) (by simp)

/-- The request to delete the whole configuration. -/
def deleteSwitch : Doc := [ofcElem "capable-switch" (some .delete) []]

/-- A switch with a queue that has no id. -/
def queueSwitch : Doc :=
  [ofcElem "capable-switch" none [ofcElem "id" none [txt "cs1"],
    ofcElem "resources" none [ofcElem "queue" none [ofcElem "resource-id" none [txt "q"]]]]]

/-- Two requests that pass all checks and then never end. For the first, `txn_del_all`
succeeds, the root stays in the document, and the loop finds it again. For the second, the
queue is refused after the id was set, and then the root is refused for having no id. -/
theorem editOperations_hangs :
    (∀ r ∈ [(deleteSwitch, DefOp.merge), (queueSwitch, DefOp.replace)],
      checkKeys r.1 = .success ∧
      checkEditOps .delete r.2 .explicit (some bridgedSwitch) r.1 = .success ∧
      checkEditOps .create r.2 .explicit (some bridgedSwitch) r.1 = .success ∧
      compactEditOperations none r.2 r.1 = some r.1) ∧
    (∀ fuel, (editOperations fuel true (ovsBackend grantingEnv) .merge
      ⟨bridgedSwitch, deleteSwitch, openWorld⟩).1 = .timeout) ∧
    ∀ fuel, (editOperations fuel true (ovsBackend grantingEnv) .replace
      ⟨bridgedSwitch, queueSwitch, openWorld⟩).1 = .timeout := by
  have hg : Grants grantingEnv := fun db => ⟨db, rfl⟩
  refine ⟨?_, fun fuel => ?_, fun fuel => ?_⟩
  · decide +kernel
  · by_contra hne
    have hroot : ConfigRoot deleteSwitch := ⟨⟨by decide, by decide⟩, by decide, by decide⟩
    have hends := (finishes_iff true (ovsBackend grantingEnv) .merge hroot).mp ⟨fuel, hne⟩ rfl
    have hhandled := rootHandled_of_phases hroot hg rfl (by decide) hends _
      (List.mem_singleton.mpr rfl) (by decide)
    exact (hhandled (by decide +kernel)).1 (by decide)
  · by_contra hne
    have hroot : ConfigRoot queueSwitch := ⟨⟨by decide, by decide⟩, by decide, by decide⟩
    have hends := (finishes_iff true (ovsBackend grantingEnv) .replace hroot).mp ⟨fuel, hne⟩ rfl
    have hfirst : ∀ root ∈ queueSwitch, root.label.isElement = true → IdFirst root := by
      intro root hmem _
      obtain rfl := List.mem_singleton.mp hmem
      exact .inr ⟨[], _, _, rfl, by simp, rfl, rfl, by decide⟩
    have hhandled := rootHandled_of_replaced hroot hg rfl hfirst hends _
      (List.mem_singleton.mpr rfl) (by decide)
    rw [if_pos rfl] at hhandled
    exact absurd hhandled (by decide +kernel)

end OfConfig.Proofs
