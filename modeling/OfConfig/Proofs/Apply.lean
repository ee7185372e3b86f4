import OfConfig.Ovs.Backend

/-!
# `OfConfig.Proofs.Apply`: frames of a handled node

`edit_delete` and `edit_create` on the running configuration make calls of
the backend and nothing else. `applyNode_inv`: an invariant of every call
that can be reached from a node is an invariant of the whole handling of
the node.
-/

set_option autoImplicit false

namespace OfConfig.Proofs

open OfConfig.Lib OfConfig.Xml OfConfig.Edit OfConfig.Ovs

variable {σ : Type}
variable {B : Backend σ} {I : σ → Prop} {P : TxnOp → Prop} {cs : List Node}
  {ctx : List (Rose.Frame Label)} {h : Handler} {l : Label} {n node : Node} {s : σ}

/-- All calls an action makes by itself are in `P`, and it is not
`txn_del_all`. -/
def ActionCalls (P : TxnOp → Prop) : Action → Prop
  | .call op => P op
  | .calls ops => ∀ op ∈ ops, P op
  | .delAll => False
  | _ => True

/-- Does the action go on with children of the node? -/
def goesDown : Action → Bool
  | .children => true
  | .advertised => true
  | _ => false

/-- The action for a node in its context. -/
def actionAt (h : Handler) (n : Node) (ctx : List (Rose.Frame Label)) : Action :=
  h.action (.node (h.strip n.label) n.children)
    (Rose.ancestors (.node (h.strip n.label) n.children) ctx)

theorem execAll_inv {ops : List TxnOp} (h : ∀ op ∈ ops, ∀ s, I s → I (B.exec op s).2) (hs : I s) :
    I (execAll B ops s).2 := by
  induction ops generalizing s with
  | nil => exact hs
  | cons op ops ih =>
    have hop := h op (by simp) s hs
    rw [execAll]
    split
    · next s' heq =>
        rw [heq] at hop
        exact ih (fun o ho => h o (by simp [ho])) hop
    · next heq =>
        rw [heq] at hop
        exact hop

/-- An invariant of the handling of each child is an invariant of the loop
over the children. -/
theorem applyChildren_inv
    (hc : ∀ c ∈ cs, ∀ left right s, I s → I (applyNode h B c (⟨left, l, right⟩ :: ctx) s).world)
    (hs : I s) : I (applyChildren h B l cs ctx s).2.2 := by
  induction cs generalizing s with
  | nil => exact hs
  | cons c rest ih =>
    have hfirst := hc c (by simp) [] rest s hs
    rw [applyChildren]
    split
    · exact ih (fun c' hc' => hc c' (by simp [hc'])) hfirst
    · exact hfirst

theorem applyAdvertised_inv {done : List Node}
    (hc : ∀ c ∈ cs, ∀ left right s, I s → I (applyNode h B c (⟨left, l, right⟩ :: ctx) s).world)
    (hs : I s) : I (applyAdvertised h B l done cs ctx s).2.2 := by
  induction cs generalizing done with
  | nil => exact hs
  | cons c rest ih =>
    rw [applyAdvertised]
    split
    · exact hc c (by simp) done rest s hs
    · exact ih (fun c' hc' => hc c' (by simp [hc']))

/-- A node is handled by calls: an invariant of all of them is an
invariant of the whole. `R` holds of the nodes that are reached. -/
theorem applyNode_inv (R : Node → List (Rose.Frame Label) → Prop)
    (hP : ∀ op, P op → ∀ s, I s → I (B.exec op s).2)
    (hcalls : ∀ n ctx, R n ctx → n.label.isElement = true → ActionCalls P (actionAt h n ctx))
    (hdown : ∀ n ctx, R n ctx → n.label.isElement = true → goesDown (actionAt h n ctx) = true →
      ∀ c ∈ n.children, ∀ left right, R c (⟨left, h.strip n.label, right⟩ :: ctx))
    (hR : R n ctx) (hs : I s) : I (applyNode h B n ctx s).world := by
  induction n using Rose.induct generalizing ctx s with
  | h l cs ih =>
    have hc := hcalls _ _ hR
    have hd := hdown _ _ hR
    simp only [actionAt, Rose.label_node, Rose.children_node] at hc hd
    rw [applyNode]
    split
    · exact hs
    · next he =>
        have he' : l.isElement = true := by simpa using he
        have hc' := hc he'
        have hd' := hd he'
        simp only
        cases ha : h.action (.node (h.strip l) cs) (Rose.ancestors (.node (h.strip l) cs) ctx) with
        | nothing => exact hs
        | call op => rw [ha] at hc'; exact hP op hc' s hs
        | calls ops => rw [ha] at hc'; exact execAll_inv (fun op ho => hP op (hc' op ho)) hs
        | children =>
          rw [ha] at hd'
          exact applyChildren_inv
            (fun c hcm left right s' hs' => ih c hcm (hd' rfl c hcm left right) hs') hs
        | advertised =>
          rw [ha] at hd'
          exact applyAdvertised_inv
            (fun c hcm left right s' hs' => ih c hcm (hd' rfl c hcm left right) hs') hs
        | delAll => rw [ha] at hc'; exact hc'.elim
        | queueRef br q => exact hs
        | fail e => exact hs

/-- The children that are left when the loop stops: those not reached, and what is left
of the one it stopped at. -/
theorem applyChildren_left {Q : Node → Prop} (hin : ∀ c ∈ cs, Q c)
    (hpart : ∀ c ∈ cs, ∀ left right s c',
      (applyNode h B c (⟨left, l, right⟩ :: ctx) s).left = some c' → Q c')
    (s : σ) : ∀ c ∈ (applyChildren h B l cs ctx s).2.1, Q c := by
  induction cs generalizing s with
  | nil => simp [applyChildren]
  | cons c rest ih =>
    have hrest := ih (fun d hd => hin d (by simp [hd])) (fun d hd => hpart d (by simp [hd]))
    intro d hmem
    rw [applyChildren] at hmem
    split at hmem
    · exact hrest _ d hmem
    · rcases List.mem_append.mp hmem with hd | hd
      · exact hpart c (by simp) [] rest s d (by simpa using hd)
      · exact hin d (by simp [hd])

theorem applyAdvertised_left {done : List Node} {Q : Node → Prop} (hdone : ∀ c ∈ done, Q c)
    (hin : ∀ c ∈ cs, Q c)
    (hpart : ∀ c ∈ cs, ∀ left right s c',
      (applyNode h B c (⟨left, l, right⟩ :: ctx) s).left = some c' → Q c')
    (s : σ) : ∀ c ∈ (applyAdvertised h B l done cs ctx s).2.1, Q c := by
  induction cs generalizing done with
  | nil => exact hdone
  | cons c rest ih =>
    intro d hmem
    rw [applyAdvertised] at hmem
    split at hmem
    · rcases List.mem_append.mp hmem with hd | hd
      · rcases List.mem_append.mp hd with hd | hd
        · exact hdone d hd
        · exact hpart c (by simp) done rest s d (by simpa using hd)
      · exact hin d (by simp [hd])
    · refine ih ?_ (fun x hx => hin x (by simp [hx])) (fun x hx => hpart x (by simp [hx])) d hmem
      intro x hx
      rcases List.mem_append.mp hx with hx | hx
      · exact hdone x hx
      · obtain rfl := List.mem_singleton.mp hx
        exact hin x (by simp)

/-- What is left of a node that was not handled to the end: some of its children are
gone, and one may be left in part. `R` holds of it if it can be put together again
from children it holds of. -/
theorem applyNode_left_inv (R : Node → List (Rose.Frame Label) → Prop)
    (hstrip : ∀ l cs ctx, R (.node l cs) ctx → R (.node (h.strip l) cs) ctx)
    (hdown : ∀ n ctx, R n ctx → goesDown (actionAt h n ctx) = true → ∀ c ∈ n.children, ∀ left right,
      R c (⟨left, h.strip n.label, right⟩ :: ctx))
    (hup : ∀ n ctx cs, R n ctx → goesDown (actionAt h n ctx) = true →
      (∀ c ∈ cs, ∃ left right, R c (⟨left, h.strip n.label, right⟩ :: ctx)) →
      R (.node (h.strip n.label) cs) ctx)
    {n' : Node} (hR : R n ctx) (hleft : (applyNode h B n ctx s).left = some n') : R n' ctx := by
  induction n using Rose.induct generalizing n' ctx s with
  | h l cs ih =>
    have hkeep := hstrip l cs ctx hR
    -- the children that a loop over them leaves
    have hchild : goesDown (actionAt h (.node l cs) ctx) = true → ∀ c ∈ cs,
        ∃ left right, R c (⟨left, h.strip l, right⟩ :: ctx) :=
      fun hgo c hc => ⟨[], [], hdown _ _ hR hgo c hc [] []⟩
    have hpart : goesDown (actionAt h (.node l cs) ctx) = true → ∀ c ∈ cs, ∀ left right s c',
        (applyNode h B c (⟨left, h.strip l, right⟩ :: ctx) s).left = some c' →
        ∃ left right, R c' (⟨left, h.strip l, right⟩ :: ctx) :=
      fun hgo c hc left right s c' hc' =>
        ⟨left, right, ih c hc (hdown _ _ hR hgo c hc left right) hc'⟩
    rw [applyNode] at hleft
    split at hleft
    · cases hleft
    · simp only at hleft
      cases ha : h.action (.node (h.strip l) cs)
          (Rose.ancestors (.node (h.strip l) cs) ctx) with
      | nothing => simp [ha] at hleft
      | children =>
        have hgo : goesDown (actionAt h (.node l cs) ctx) = true := congrArg goesDown ha
        simp only [ha, finish] at hleft
        split at hleft
        · cases hleft
        · cases hleft
          exact hup _ _ _ hR hgo (applyChildren_left (hchild hgo) (hpart hgo) s)
      | advertised =>
        have hgo : goesDown (actionAt h (.node l cs) ctx) = true := congrArg goesDown ha
        simp only [ha, finish] at hleft
        split at hleft
        · cases hleft
        · cases hleft
          exact hup _ _ _ hR hgo (applyAdvertised_left (by simp) (hchild hgo) (hpart hgo) s)
      | delAll =>
        simp only [ha] at hleft
        cases hleft
        exact hkeep
      | fail e =>
        simp only [ha] at hleft
        cases hleft
        exact hkeep
      | _ =>
        simp only [ha, finish] at hleft
        split at hleft
        · cases hleft
        · cases hleft
          exact hkeep

/-- A node that is left keeps its label, up to what is done to it first. -/
theorem applyNode_left_label {n' : Node} (hleft : (applyNode h B n ctx s).left = some n') :
    n'.label = h.strip n.label := by
  cases n with
  | node l cs =>
    rw [applyNode] at hleft
    split at hleft
    · cases hleft
    · simp only at hleft
      cases ha : h.action (.node (h.strip l) cs)
          (Rose.ancestors (.node (h.strip l) cs) ctx) with
      | nothing => simp [ha] at hleft
      | delAll =>
        simp only [ha] at hleft
        cases hleft
        rfl
      | fail e =>
        simp only [ha] at hleft
        cases hleft
        rfl
      | _ =>
        simp only [ha, finish] at hleft
        split at hleft
        · cases hleft
        · cases hleft
          rfl

/-- A node is unlinked only if it was handled with success. -/
theorem applyNode_left_none (hleft : (applyNode h B n ctx s).left = none) :
    (applyNode h B n ctx s).out = .success := by
  cases n with
  | node l cs =>
    rw [applyNode] at hleft ⊢
    split
    · rfl
    · next he =>
        simp only [he, if_false, Bool.false_eq_true] at hleft ⊢
        cases ha : h.action (.node (h.strip l) cs)
            (Rose.ancestors (.node (h.strip l) cs) ctx) with
        | nothing => rfl
        | delAll => simp [ha] at hleft
        | fail e => simp [ha] at hleft
        | _ => simpa [ha, finish] using hleft

/-! ### The calls of the two functions -/

/-- The names of the ancestors of a place. -/
def parentName (ctx : List (Rose.Frame Label)) (i : Nat) : Option String :=
  ctx[i]?.map (fun f => f.label.name)

theorem nameAt_ancestors (t : Node) (ctx : List (Rose.Frame Label)) (i : Nat) :
    nameAt (Rose.ancestors t ctx) i = parentName ctx i := by
  induction ctx generalizing t i with
  | nil => rfl
  | cons f ctx ih =>
    cases i with
    | zero => rfl
    | succ i => exact ih (f.plug t) i

theorem isEmpty_ancestors {t : Node} {s : String} (h : parentName ctx 0 = some s) :
    (Rose.ancestors t ctx).isEmpty = false := by
  cases ctx with
  | nil => simp [parentName] at h
  | cons f ctx => rfl

theorem ancestors_ne_nil {t : Node} (h : ctx ≠ []) : Rose.ancestors t ctx ≠ [] := by
  cases ctx with
  | nil => exact absurd rfl h
  | cons f ctx => exact List.cons_ne_nil _ _

private theorem calls_ite {c : Prop} [Decidable c] {a b : Action} (ha : c → ActionCalls P a)
    (hb : ¬ c → ActionCalls P b) : ActionCalls P (if c then a else b) := by
  split
  · next h => exact ha h
  · next h => exact hb h

/-- `edit_delete` makes calls of the transaction that add no port, but for the `id` of
the capable switch. -/
theorem deleteAction_calls {anc : List Node} (hanc : anc ≠ [])
    (hP : ∀ op, (∀ m, op ≠ .setSwitchid m) → (∀ m, op ≠ .addPort m) → P op)
    (hid : nameAt anc 0 = some "capable-switch" → node.label.name = "id" → P (.setSwitchid none)) :
    ActionCalls P (deleteAction node anc) := by
  have hne : ¬ anc.isEmpty = true := by simpa using hanc
  unfold deleteAction
  rw [if_neg hne]
  cases firstContent node <;> simp only
  all_goals repeat' refine calls_ite (fun _ => ?_) (fun _ => ?_)
  all_goals first
    | exact trivial
    | exact hid ‹_› ‹_›
    | exact hP _ nofun nofun
    | (intro op hop; obtain ⟨c, -, rfl⟩ := List.mem_map.mp hop; exact hP _ nofun nofun)

/-- So does `edit_create`, but for the `id` and the ports of the capable switch. -/
theorem createAction_calls {anc : List Node}
    (hP : ∀ op, (∀ m, op ≠ .setSwitchid m) → (∀ m, op ≠ .addPort m) → P op)
    (hid : nameAt anc 0 = some "capable-switch" → node.label.name = "id" →
      P (.setSwitchid (some node)))
    (hport : nameAt anc 0 = some "resources" → nameAt anc 1 = some "capable-switch" →
      node.label.name = "port" → P (.addPort node)) :
    ActionCalls P (createAction node anc) := by
  unfold createAction
  cases firstContent node <;> simp only
  all_goals repeat' refine calls_ite (fun _ => ?_) (fun _ => ?_)
  all_goals first
    | exact trivial
    | exact hid ‹_› ‹_›
    | exact hport ‹_› ‹_› ‹_›
    | exact hP _ nofun nofun
    | (intro op hop; obtain ⟨c, -, rfl⟩ := List.mem_map.mp hop; exact hP _ nofun nofun)

/-! ### The two functions on the OVSDB -/

/-- The functions that handle a node. -/
inductive EditFun where
  | delete
  | create

/-- The parameters of the common frame for a function. -/
def EditFun.handler : EditFun → Handler
  | .delete => ⟨id, deleteAction⟩
  | .create => ⟨dropOpAttr, createAction⟩

/-- What the function does to a node. -/
def EditFun.run (f : EditFun) (env : Env) (node : Node) (ctx : List (Rose.Frame Label))
    (w : World) : World :=
  match f with
  | .delete => (editDelete (ovsBackend env) node ctx w).world
  | .create => (editCreateRunning (ovsBackend env) node ctx w).world

/-- The node as the function sees it: `edit_create` drops the operation
attribute first. -/
def EditFun.seen (f : EditFun) (node : Node) : Node :=
  .node (f.handler.strip node.label) node.children

/-- A node that is answered by one call changes what the call changes. -/
theorem world_applyNode_call {env : Env} {w : World} {op : TxnOp} (he : node.label.isElement = true)
    (ha : h.action (.node (h.strip node.label) node.children)
      (Rose.ancestors (.node (h.strip node.label) node.children) ctx) = .call op) :
    (applyNode h (ovsBackend env) node ctx w).world = (execTxn env op w).2 := by
  cases node with
  | node l cs =>
    simp only [Rose.label_node, Rose.children_node] at he ha
    simp [applyNode, he, ha, finish, ovsBackend]

theorem EditFun.run_eq (f : EditFun) (env : Env) (node : Node) (ctx : List (Rose.Frame Label))
    (w : World) :
    f.run env node ctx w = (applyNode f.handler (ovsBackend env) node ctx w).world := by
  cases f <;> rfl

/-- An edit that is one call. -/
theorem EditFun.run_call {f : EditFun} {env : Env} {w : World} {op : TxnOp}
    (he : node.label.isElement = true) (ha : actionAt f.handler node ctx = .call op) :
    f.run env node ctx w = (execTxn env op w).2 := by
  rw [EditFun.run_eq]
  exact world_applyNode_call he ha

end OfConfig.Proofs
