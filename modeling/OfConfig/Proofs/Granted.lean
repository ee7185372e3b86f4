import OfConfig.Proofs.Termination

/-!
# `OfConfig.Proofs.Granted`: what an edit asks of the OVSDB

`edit_delete` and `edit_create` on the running configuration walk down a node and make
calls, and they stop at the first one that is not granted. Which calls these are, and in
which order, can be read off the documents alone: as long as everything is granted, the
documents change in the same way as on a local datastore.

* `asks` are the calls for one node, `askAll` puts a list of calls to the backend.
  `applyNode_askAll`: handling the node is asking for them.
* `purgeAsks` are the calls of the loop that deletes the equivalents of an edit node, and
  `deletePlan` those of a whole delete phase. `deletePhase_success_iff`: the phase succeeds
  if and only if there is a plan and the backend grants it.
-/

set_option autoImplicit false

namespace OfConfig.Proofs

open OfConfig.Lib OfConfig.Xml OfConfig.Edit

variable {σ : Type}
variable {B : Backend σ} {ctx : List (Rose.Frame Label)}

/-! ### The calls for one node -/

/-- One thing that the handling of a node asks for. A refusal is an error of
`edit_delete` or `edit_create` itself, which no backend can grant. -/
inductive Ask where
  | call (op : TxnOp)
  | queueRef (br : Option String) (queue : String)
  | delAll
  | refuse (e : NcErr)

/-- The answer, and the state after it. -/
def Ask.put (B : Backend σ) : Ask → σ → Reply × σ
  | .call op, s => B.exec op s
  | .queueRef br queue, s => (queueRefReply (B.checkBridgeQueue br queue s), s)
  | .delAll, s => B.delAll s
  | .refuse e, s => (.failure (some e), s)

/-- One after the other, up to the first that is not granted. -/
def askAll (B : Backend σ) : List Ask → σ → Reply × σ
  | [], s => (.success, s)
  | a :: as, s =>
    match a.put B s with
    | (.success, s') => askAll B as s'
    | r => r

mutual
/-- What the handling of a node asks for, if everything before is granted. A child
that was handled is unlinked, so the next one has no siblings before it. -/
def asks (h : Handler) : Node → List (Rose.Frame Label) → List Ask
  | .node l cs, ctx =>
    let node : Node := .node (h.strip l) cs
    if !l.isElement then []
    else
      match h.action node (Rose.ancestors node ctx) with
      | .nothing => []
      | .call op => [.call op]
      | .calls ops => ops.map .call
      | .children => asksChildren h (h.strip l) cs ctx
      | .advertised => asksAdvertised h (h.strip l) [] cs ctx
      | .delAll => [.delAll]
      | .queueRef br queue => [.queueRef br queue]
      | .fail e => [.refuse e]

/-- The children one after the other. -/
def asksChildren (h : Handler) (l : Label) : List Node → List (Rose.Frame Label) → List Ask
  | [], _ => []
  | c :: rest, ctx => asks h c (⟨[], l, rest⟩ :: ctx) ++ asksChildren h l rest ctx

/-- The child `advertised`, if there is one. -/
def asksAdvertised (h : Handler) (l : Label) (done : List Node) :
    List Node → List (Rose.Frame Label) → List Ask
  | [], _ => []
  | c :: rest, ctx =>
    if c.label.isElement && c.label.name = "advertised" then asks h c (⟨done, l, rest⟩ :: ctx)
    else asksAdvertised h l (done ++ [c]) rest ctx
end

theorem askAll_cons (B : Backend σ) (a : Ask) (as : List Ask) (s : σ) :
    askAll B (a :: as) s =
      if (a.put B s).1 = .success then askAll B as (a.put B s).2 else a.put B s := by
  rw [askAll]
  split
  · next s' heq => simp [heq]
  · next hne => rw [if_neg (fun hs => hne _ (Prod.ext hs rfl))]

/-- A list that goes on after another one. -/
theorem askAll_append (B : Backend σ) (as bs : List Ask) (s : σ) :
    askAll B (as ++ bs) s =
      if (askAll B as s).1 = .success then askAll B bs (askAll B as s).2 else askAll B as s := by
  induction as generalizing s with
  | nil => simp [askAll]
  | cons a as ih =>
    rw [List.cons_append, askAll_cons, askAll_cons]
    by_cases hput : (a.put B s).1 = .success
    · simp only [if_pos hput, ih]
    · simp only [if_neg hput]

theorem askAll_calls (B : Backend σ) (ops : List TxnOp) (s : σ) :
    askAll B (ops.map .call) s = execAll B ops s := by
  induction ops generalizing s with
  | nil => rfl
  | cons op ops ih =>
    rw [List.map_cons, askAll_cons, Ask.put, execAll]
    split
    · next hs =>
        rw [show B.exec op s = (.success, (B.exec op s).2) from Prod.ext hs rfl]
        exact ih _
    · next hs =>
        split
        · next s' heq => simp [heq] at hs
        · next heq => exact heq

/-- A single call is asked for as it is. -/
theorem askAll_one (B : Backend σ) (a : Ask) (s : σ) : askAll B [a] s = a.put B s := by
  rw [askAll_cons]
  split
  · next hs => exact Prod.ext hs.symm rfl
  · rfl

/-- The loop over the children, where the handling of each is asking for its calls. -/
theorem applyChildren_askAll {h : Handler} {l : Label} {cs : List Node}
    (hc : ∀ c ∈ cs, ∀ ctx s, ((applyNode h B c ctx s).out, (applyNode h B c ctx s).world) =
      askAll B (asks h c ctx) s)
    (s : σ) :
    ((applyChildren h B l cs ctx s).1, (applyChildren h B l cs ctx s).2.2) =
      askAll B (asksChildren h l cs ctx) s := by
  induction cs generalizing s with
  | nil => simp [applyChildren, asksChildren, askAll]
  | cons c rest ih =>
    have hfirst := hc c (by simp) (⟨[], l, rest⟩ :: ctx) s
    rw [asksChildren, askAll_append, ← hfirst, applyChildren]
    cases hout : (applyNode h B c (⟨[], l, rest⟩ :: ctx) s).out with
    | success => exact ih (fun d hd => hc d (by simp [hd])) _
    | failure e => simp
    | crash => simp

theorem applyAdvertised_askAll {h : Handler} {l : Label} {done cs : List Node}
    (hc : ∀ c ∈ cs, ∀ ctx s, ((applyNode h B c ctx s).out, (applyNode h B c ctx s).world) =
      askAll B (asks h c ctx) s)
    (s : σ) :
    ((applyAdvertised h B l done cs ctx s).1, (applyAdvertised h B l done cs ctx s).2.2) =
      askAll B (asksAdvertised h l done cs ctx) s := by
  induction cs generalizing done with
  | nil => simp [applyAdvertised, asksAdvertised, askAll]
  | cons c rest ih =>
    rw [applyAdvertised, asksAdvertised]
    split
    · exact hc c (by simp) _ s
    · exact ih (fun d hd => hc d (by simp [hd]))

/-- Handling a node is asking for its calls. -/
theorem applyNode_askAll (h : Handler) (B : Backend σ) (n : Node) :
    ∀ (ctx : List (Rose.Frame Label)) (s : σ),
      ((applyNode h B n ctx s).out, (applyNode h B n ctx s).world) = askAll B (asks h n ctx) s := by
  induction n using Rose.induct with
  | h l cs ih =>
    intro ctx s
    rw [applyNode, asks]
    split
    · rfl
    · simp only
      cases h.action (.node (h.strip l) cs) (Rose.ancestors (.node (h.strip l) cs) ctx) with
      | nothing => rfl
      | call op => exact (askAll_one B (.call op) s).symm
      | calls ops => exact (askAll_calls B ops s).symm
      | children => exact applyChildren_askAll ih s
      | advertised => exact applyAdvertised_askAll ih s
      | delAll => exact (askAll_one B .delAll s).symm
      | queueRef br queue => exact (askAll_one B (.queueRef br queue) s).symm
      | fail e => exact (askAll_one B (.refuse e) s).symm

/-! ### The delete phase -/

/-- What deleting one node of the datastore asks for. -/
def deleteAsks (n : Node) (ctx : List (Rose.Frame Label)) : List Ask :=
  asks ⟨id, deleteAction⟩ n ctx

/-- What the loop over the equivalents of an edit node asks for, for at most `k` of
them. -/
def purgeAsks (chain : List Node) : Nat → Doc → List Ask
  | 0, _ => []
  | k + 1, orig =>
    match findElementEquiv orig chain with
    | none => []
    | some f =>
      match Rose.focus? orig f.loc with
      | none => []
      | some (n, ctx) => deleteAsks n ctx ++ purgeAsks chain k (Rose.unlink f.loc orig)

/-- What a delete phase asks for. There is no plan if an element has no equivalent when
its turn comes, or a pointer of the node set dangles. -/
def deletePlan (removed : List Loc) : List Loc → Doc → Doc → Option (List Ask)
  | [], _, _ => some []
  | l :: ls, orig, edit =>
    match trackLoc removed l with
    | none => none
    | some l' =>
      match Rose.focus? edit l' with
      | none => none
      | some (n, ctx) =>
        match findElementEquiv orig (Rose.chain n ctx) with
        | none => none
        | some _ =>
          (deletePlan (removed ++ [l']) ls
            (purge (Rose.chain n ctx) (Rose.sizes orig) orig) (Rose.unlink l' edit)).map
            (purgeAsks (Rose.chain n ctx) (Rose.sizes orig) orig ++ ·)

/-- Below the root, an equivalent is unlinked if and only if its calls are granted. -/
theorem editDeleteAt_askAll {l : Loc} {D : Doc} {n : Node} (hfoc : Rose.focus? D l = some (n, ctx))
    (hctx : ctx ≠ []) (s : σ) :
    (editDeleteAt true B l D s).1 = (askAll B (deleteAsks n ctx) s).1.outcome ∧
    ((askAll B (deleteAsks n ctx) s).1 = .success →
      editDeleteAt true B l D s =
        (.success, Rose.unlink l D, (askAll B (deleteAsks n ctx) s).2)) := by
  have hask : ((editDelete B n ctx s).out, (editDelete B n ctx s).world) =
      askAll B (deleteAsks n ctx) s := applyNode_askAll _ B n ctx s
  rw [← hask]
  simp only [editDeleteAt, hfoc, if_true]
  refine ⟨trivial, fun hout => ?_⟩
  rw [hout, editDelete_left hctx hout]
  rfl

/-- The loop over the equivalents succeeds if and only if its calls are granted. -/
theorem run_deleteRound_askAll (B : Backend σ) {chain : List Node} (hlong : 2 ≤ chain.length)
    (k : Nat) (D : Doc) (s : σ) (hk : Rose.sizes D ≤ k) (D' : Doc) (s' : σ) :
    Loop.run (deleteRound true B chain) (k + 1) (D, s) = some (.success, D', s') ↔
      D' = purge chain k D ∧ askAll B (purgeAsks chain k D) s = (.success, s') := by
  induction k generalizing D s with
  | zero =>
    have hnone : findElementEquiv D chain = none := by
      cases hf : findElementEquiv D chain with
      | none => rfl
      | some f =>
        have hpos := sizes_pos_of_find hf
        omega
    have hround : deleteRound true B chain (D, s) = .exit (.success, D, s) := by
      simp [deleteRound, hnone]
    simp [Loop.run_succ_exit hround, purge, purgeAsks, askAll, eq_comm]
  | succ k ih =>
    cases hf : findElementEquiv D chain with
    | none =>
      have hround : deleteRound true B chain (D, s) = .exit (.success, D, s) := by
        simp [deleteRound, hf]
      simp [Loop.run_succ_exit hround, purge, purgeAsks, hf, askAll, eq_comm]
    | some f =>
      obtain ⟨ctx, hfoc, -⟩ := find_focus hf
      have hctx : ctx ≠ [] := by
        rintro rfl
        have h1 := Rose.length_of_focus? hfoc
        have h2 := length_loc_of_find hf
        simp at h1
        omega
      obtain ⟨hout, hsucc⟩ := editDeleteAt_askAll (B := B) hfoc hctx s
      rw [purge, purgeAsks]
      simp only [hf, hfoc, askAll_append]
      by_cases hgrant : (askAll B (deleteAsks f.node ctx) s).1 = .success
      · have hround : deleteRound true B chain (D, s) =
            .again (Rose.unlink f.loc D, (askAll B (deleteAsks f.node ctx) s).2) := by
          simp [deleteRound, hf, hsucc hgrant]
        have hlt := sizes_unlink_find hf
        rw [Loop.run_succ_again hround, ih _ _ (by omega), if_pos hgrant]
      · -- the first call that is not granted ends the loop
        have hne : (editDeleteAt true B f.loc D s).1 ≠ .success := by
          rw [hout]
          simpa using hgrant
        have hround : deleteRound true B chain (D, s) =
            .exit (editDeleteAt true B f.loc D s) := by
          simp only [deleteRound, hf]
          split
          · next heq => exact absurd (congrArg Prod.fst heq) hne
          · rfl
        rw [Loop.run_succ_exit hround, if_neg hgrant]
        constructor
        · intro h
          exact absurd (congrArg Prod.fst (Option.some.inj h)) hne
        · rintro ⟨-, h⟩
          exact absurd (congrArg Prod.fst h) hgrant

theorem deleteAll_askAll (B : Backend σ) {chain : List Node} (hlong : 2 ≤ chain.length)
    {fuel : Nat} {D : Doc} (hfuel : Rose.sizes D < fuel) (s : σ) (D' : Doc) (s' : σ) :
    deleteAll fuel true B chain D s = (.success, D', s') ↔
      D' = purge chain (Rose.sizes D) D ∧
        askAll B (purgeAsks chain (Rose.sizes D) D) s = (.success, s') := by
  rw [← run_deleteRound_askAll B hlong _ D s (Nat.le_refl _)]
  constructor
  · intro h
    have hne : (deleteAll (Rose.sizes D + 1) true B chain D s).1 ≠ .timeout :=
      (deleteAll_ends B D s (fun _ => hlong) (Nat.lt_succ_self _)).1
    rw [deleteAll_mono (Nat.succ_le_of_lt hfuel) hne, deleteAll] at h
    cases hr : Loop.run (deleteRound true B chain) (Rose.sizes D + 1) (D, s) with
    | none => simp [hr] at h
    | some r => rw [hr] at h; exact congrArg some h
  · intro h
    rw [deleteAll, Loop.run_le (Nat.succ_le_of_lt hfuel) h]
    rfl

/-- A delete phase over nodes below the root succeeds if and only if there is a plan
and it is granted. -/
theorem deletePhase_success_iff (B : Backend σ) {fuel : Nat} {ls : List Loc}
    (hls : ∀ l ∈ ls, 2 ≤ l.length) (removed : List Loc) (st : EditState σ)
    (hfuel : Rose.sizes st.orig < fuel) (s' : σ) :
    (phaseLoop (editDeleteOp fuel true B) removed ls st).1 = .success ∧
      (phaseLoop (editDeleteOp fuel true B) removed ls st).2.world = s' ↔
    ∃ plan, deletePlan removed ls st.orig st.edit = some plan ∧
      askAll B plan st.world = (.success, s') := by
  induction ls generalizing removed st with
  | nil => simp [phaseLoop, deletePlan, askAll]
  | cons l ls ih =>
    cases htrack : trackLoc removed l with
    | none => simp [phaseLoop_dangling htrack, deletePlan, htrack]
    | some l' =>
      cases hfoc : Rose.focus? st.edit l' with
      | none => simp [phaseLoop_lost htrack hfoc, deletePlan, htrack, hfoc]
      | some p =>
        obtain ⟨n, ctx⟩ := p
        cases hf : findElementEquiv st.orig (Rose.chain n ctx) with
        | none =>
          have hstep : editDeleteOp fuel true B n ctx st.orig st.world =
              ⟨.failure (some { tag := .dataMissing }), some n, st.orig, st.world⟩ := by
            simp only [editDeleteOp, hf]
          rw [phaseLoop_stop htrack hfoc (by simp [hstep]), hstep]
          simp [deletePlan, htrack, hfoc, hf]
        | some f =>
          have hlong : 2 ≤ (Rose.chain n ctx).length := by
            have h1 := Rose.length_of_focus? hfoc
            have h2 := length_trackLoc htrack
            have h3 := hls l (by simp)
            rw [Rose.length_chain]
            omega
          have hstep : editDeleteOp fuel true B n ctx st.orig st.world =
              editRemove fuel true B n ctx st.orig st.world := by
            simp only [editDeleteOp, hf]
          have hall := deleteAll_askAll B hlong hfuel st.world
          simp only [deletePlan, htrack, hfoc, hf, Option.map_eq_some_iff]
          by_cases hgrant : (askAll B (purgeAsks (Rose.chain n ctx) (Rose.sizes st.orig)
              st.orig) st.world).1 = .success
          · -- the equivalents are gone, and the rest of the node set is next
            have heq := (hall _ _).mpr ⟨rfl, Prod.ext hgrant rfl⟩
            have hle := sizes_purge_le (Rose.chain n ctx) (Rose.sizes st.orig) st.orig
            have hremove : editRemove fuel true B n ctx st.orig st.world =
                ⟨.success, none, purge (Rose.chain n ctx) (Rose.sizes st.orig) st.orig,
                  (askAll B (purgeAsks (Rose.chain n ctx) (Rose.sizes st.orig) st.orig)
                    st.world).2⟩ := by
              simp only [editRemove, heq, if_true]
            rw [phaseLoop_next htrack hfoc (by rw [hstep, hremove]), hstep, hremove,
              ih (fun l hl => hls l (List.mem_cons_of_mem _ hl)) _ _
                (Nat.lt_of_le_of_lt hle hfuel)]
            simp [afterStep, removedAfter, askAll_append, hgrant, Rose.unlink]
          · have hne : (editRemove fuel true B n ctx st.orig st.world).out ≠ .success := by
              intro hs
              have heq := (hall _ _).mp (Prod.ext hs rfl)
              exact hgrant (congrArg Prod.fst heq.2)
            have hno : askAll B (purgeAsks (Rose.chain n ctx) (Rose.sizes st.orig) st.orig)
                st.world ≠ (.success, s') := fun h => hgrant (congrArg Prod.fst h)
            rw [phaseLoop_stop htrack hfoc (by rwa [hstep]), hstep]
            simp [askAll_append, hgrant, hne, hno]

end OfConfig.Proofs
