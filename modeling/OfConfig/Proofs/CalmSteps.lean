import OfConfig.Proofs.AddedInterface
import OfConfig.Proofs.CalmDocs
import OfConfig.Proofs.Termination

/-!
# `OfConfig.Proofs.CalmSteps`: operations that stay inside the transaction

The operations of `edit-config.c` on one node, with the OVSDB as their backend and a
node of a calm edit document (`CalmNode`). `Kept` is what has to survive a failure:
the stored database and the id of the capable switch, and `added_interface` as long
as no port may be created. `Good` adds what the running configuration must satisfy so
that the next operation is calm as well.

* `editDelete_kept`, `editCreateRunning_kept`: the calls of one node, from the
  conditions on its path.
* `editReplace_fine`, `editRemove_fine`, `editDeleteOp_fine`, `editMerge_fine`: an
  operation that succeeds leaves a good state, and one that fails has kept everything.
-/

set_option autoImplicit false

namespace OfConfig.Proofs

open OfConfig.Lib OfConfig.Xml OfConfig.Edit OfConfig.Ovs

variable {cs : List Node} {ctx : List (Rose.Frame Label)} {f : Found} {fuel : Nat} {n : Node}
  {w : World}

/-! ### What is kept -/

/-- The stored database and the id of the capable switch. -/
def Same (db : Db) (csId : Option String) (w : World) : Prop :=
  w.stored = db ∧ w.csId = csId

/-- What a request has to keep until its commit. Where the ports are listed, none is
created, and `of_post_ports` has nothing to do. -/
structure Kept (db : Db) (csId : Option String) (ports : Option (List PortRef)) (w : World) :
    Prop where
  same : Same db csId w
  added : ports ≠ none → w.addedInterface = false

variable {db : Db} {csId : Option String} {ports : Option (List PortRef)} {env : Env}

/-- Every call but `ofc_set_switchid` stays inside the transaction. -/
theorem exec_same {op : TxnOp} (hop : ∀ m, op ≠ .setSwitchid m) (h : Same db csId w) :
    Same db csId ((ovsBackend env).exec op w).2 := by
  rw [exec_snd]
  cases op with
  | setSwitchid m => exact absurd rfl (hop m)
  | _ => exact h

/-- A call that sets no id, and adds no port where none may be added. -/
theorem exec_kept {op : TxnOp} (hset : ∀ m, op ≠ .setSwitchid m)
    (hadd : ports ≠ none → ∀ m, op ≠ .addPort m) (h : Kept db csId ports w) :
    Kept db csId ports ((ovsBackend env).exec op w).2 :=
  ⟨exec_same hset h.same, fun hne => (exec_added (hadd hne) w).trans (h.added hne)⟩

theorem exec_clearSwitchid (w : World) :
    (ovsBackend env).exec (.setSwitchid none) w = (.success, { w with csId := none }) := rfl

/-- `ofc_set_switchid` with an element: the text it starts with becomes the id. -/
theorem exec_setSwitchid (n : Node) (w : World) :
    (ovsBackend env).exec (.setSwitchid (some n)) w =
      (.success, match firstText n.children with
        | some s => { w with csId := some s }
        | none => w) := by
  obtain ⟨l, cs⟩ := n
  rcases cs with _ | ⟨⟨m, ms⟩, cs⟩
  · rfl
  · cases m <;> rfl

theorem Kept.setSwitchid (h : Kept db csId ports w)
    (hn : ∀ s, firstText n.children = some s → csId = some s) :
    Kept db csId ports ((ovsBackend env).exec (.setSwitchid (some n)) w).2 := by
  rw [exec_setSwitchid]
  simp only
  split
  · next s hs => exact ⟨⟨h.same.1, (hn s hs).symm⟩, h.added⟩
  · exact h

/-! ### The calls of one node -/

theorem isId_path :
    isId (Rose.path n ctx) = true ↔
      n.label.name = "id" ∧ parentName ctx 0 = some "capable-switch" := by
  cases ctx with
  | nil => simp [isId, Rose.path, parentName]
  | cons fr ctx => simp [isId, Rose.path, parentName]

theorem isPort_path :
    isPort (Rose.path n ctx) = true ↔ n.label.name = "port" ∧
      parentName ctx 0 = some "resources" ∧ parentName ctx 1 = some "capable-switch" := by
  rcases ctx with _ | ⟨fr, _ | ⟨fr', ctx⟩⟩
  · simp [isPort, Rose.path, parentName]
  · simp [isPort, Rose.path, parentName]
  · simp [isPort, Rose.path, parentName, and_assoc]

/-- A deletion below the root that is not one of the id. -/
theorem editDelete_kept (hctx : ctx ≠ []) (hn : Rose.Families NoId (Rose.path n ctx) n.children)
    (hid : isId (Rose.path n ctx) = false) (h : Kept db csId ports w) :
    Kept db csId ports (editDelete (ovsBackend env) n ctx w).world := by
  refine applyNode_inv (P := fun op => (∀ m, op ≠ .setSwitchid m) ∧ ∀ m, op ≠ .addPort m)
    (fun n ctx => ctx ≠ [] ∧ Rose.Families NoId (Rose.path n ctx) n.children ∧
      isId (Rose.path n ctx) = false)
    (fun op hop w hw => exec_kept hop.1 (fun _ => hop.2) hw) ?_ ?_ ⟨hctx, hn, hid⟩ h
  · rintro n ctx ⟨hctx, hn, hid⟩ -
    refine deleteAction_calls (ancestors_ne_nil hctx) (fun op hset hadd => ⟨hset, hadd⟩) ?_
    intro hp hname
    rw [nameAt_ancestors] at hp
    have htrue : isId (Rose.path n ctx) = true := isId_path.mpr ⟨hname, hp⟩
    simp [hid] at htrue
  · rintro n ctx ⟨hctx, hn, hid⟩ - - c hc left right
    refine ⟨List.cons_ne_nil _ _, hn.child hc, ?_⟩
    obtain ⟨fr, ctx, rfl⟩ := List.exists_cons_of_ne_nil hctx
    rw [← Bool.not_eq_true, isId_path]
    rintro ⟨hcname, hp⟩
    exact hn.here (by simpa [parentName] using hp) c hc hcname

/-- The conditions on what is created read only the names on a path. -/
theorem setsId_names {p q : List Label} (hpq : p.map Label.name = q.map Label.name)
    (h : SetsId csId p cs) : SetsId csId q cs :=
  fun hid => h (by rwa [isId_names hpq])

theorem portFree_names {p q : List Label} (hpq : p.map Label.name = q.map Label.name)
    (h : PortFree p cs) : PortFree q cs := by
  rw [PortFree, ← isPort_names hpq]
  exact h

/-- The element and what is below it, when it is created: its ids are the one that is
set, and where the ports are listed it holds no port. -/
structure Creates (csId : Option String) (ports : Option (List PortRef)) (n : Node)
    (ctx : List (Rose.Frame Label)) : Prop where
  ids : Rose.Families (SetsId csId) (Rose.path n ctx) n.children
  ports : ports ≠ none → Rose.Families PortFree (Rose.path n ctx) n.children

theorem Creates.child {c : Node} (h : Creates csId ports n ctx) (hc : c ∈ n.children) {l : Label}
    (hl : l.name = n.label.name) (left right : List Node) :
    Creates csId ports c (⟨left, l, right⟩ :: ctx) := by
  have hnames : (c.label :: Rose.path n ctx).map Label.name =
      (Rose.path c (⟨left, l, right⟩ :: ctx)).map Label.name := by
    simp [Rose.path, hl]
  exact ⟨Rose.Families.congr (F := SetsId csId) (fun _ _ _ => setsId_names) (h.ids.child hc) hnames,
    fun hne => Rose.Families.congr (F := PortFree) (fun _ _ _ => portFree_names)
      ((h.ports hne).child hc) hnames⟩

theorem Creates.strip {l : Label} (h : Creates csId ports (.node l cs) ctx) :
    Creates csId ports (.node (dropOpAttr l) cs) ctx := by
  have hnames : (Rose.path (.node l cs) ctx).map Label.name =
      (Rose.path (.node (dropOpAttr l) cs) ctx).map Label.name := by
    simp [Rose.path]
  exact ⟨Rose.Families.congr (F := SetsId csId) (fun _ _ _ => setsId_names) h.ids hnames,
    fun hne => Rose.Families.congr (F := PortFree) (fun _ _ _ => portFree_names)
      (h.ports hne) hnames⟩

/-- The call for an id of a capable switch. -/
theorem createAction_id (hid : isId (Rose.path n ctx) = true) :
    actionAt ⟨dropOpAttr, createAction⟩ n ctx =
      .call (.setSwitchid (some (.node (dropOpAttr n.label) n.children))) := by
  obtain ⟨hname, hp⟩ := isId_path.mp hid
  simp [actionAt, createAction, isEmpty_ancestors hp, nameAt_ancestors, hp, hname]

/-- What is left of such an element when its creation fails is one as well. -/
theorem Creates.left {n' : Node} (h : Creates csId ports n ctx)
    (hleft : (editCreateRunning (ovsBackend env) n ctx w).left = some n') :
    Creates csId ports n' ctx := by
  refine applyNode_left_inv (Creates csId ports) (fun l cs ctx h => h.strip) ?_ ?_ h hleft
  · intro n ctx hn _ c hc left right
    exact hn.child hc (name_dropOpAttr _) left right
  · intro n ctx cs hn hgo hcs
    have hnames : (Rose.path n ctx).map Label.name =
        (Rose.path (.node (dropOpAttr n.label) cs) ctx).map Label.name := by
      simp [Rose.path]
    refine ⟨.intro ?_ ?_, fun hne => .intro (portFree_names hnames (hn.ports hne).here) ?_⟩
    · intro hid
      -- an id is not gone through child by child
      rw [← isId_names hnames] at hid
      rw [createAction_id hid] at hgo
      cases hgo
    · intro c hc
      obtain ⟨left, right, hR⟩ := hcs c hc
      exact hR.ids
    · intro c hc
      obtain ⟨left, right, hR⟩ := hcs c hc
      exact hR.ports hne

/-- A creation that meets no other id than the one that is set. -/
theorem editCreateRunning_kept (hn : Creates csId ports n ctx) (h : Kept db csId ports w) :
    Kept db csId ports (editCreateRunning (ovsBackend env) n ctx w).world := by
  refine applyNode_inv (P := fun op => (∀ m, op = .setSwitchid m →
      ∃ x, m = some x ∧ ∀ s, firstText x.children = some s → csId = some s) ∧
      (ports ≠ none → ∀ m, op ≠ .addPort m)) (Creates csId ports) ?_ ?_ ?_ hn h
  · rintro op ⟨hset, hadd⟩ w hw
    by_cases hop : ∃ m, op = .setSwitchid m
    · obtain ⟨m, rfl⟩ := hop
      obtain ⟨x, rfl, hx⟩ := hset m rfl
      exact hw.setSwitchid hx
    · exact exec_kept (fun m hm => hop ⟨m, hm⟩) hadd hw
  · intro n ctx hn _
    refine createAction_calls (fun op hset hadd => ⟨fun m hm => absurd hm (hset m), fun _ => hadd⟩)
      ?_ ?_
    · intro hp hname
      rw [nameAt_ancestors] at hp
      refine ⟨fun m hm => ?_, fun _ m => nofun⟩
      have hid : isId (Rose.path n ctx) = true := isId_path.mpr ⟨by simpa using hname, hp⟩
      cases hm
      exact ⟨_, rfl, hn.ids.here hid⟩
    · intro hp hgrand hname
      rw [nameAt_ancestors] at hp hgrand
      refine ⟨nofun, fun hne => ?_⟩
      have hfree : isPort (Rose.path n ctx) = false := (hn.ports hne).here
      have hport : isPort (Rose.path n ctx) = true :=
        isPort_path.mpr ⟨by simpa using hname, hp, hgrand⟩
      simp [hfree] at hport
  · intro n ctx hn _ _ c hc left right
    exact hn.child hc (name_dropOpAttr _) left right

/-! ### Operations -/

/-- The state of the datastore while the operations run. The running configuration
only loses nodes, and the listed ports are still in it. -/
structure Good (db : Db) (b : Baseline) (ports : Option (List PortRef)) (D : Doc) (w : World) :
    Prop where
  running : CalmRunning D
  root : ∀ s, HasRoot D s → HasRoot b.orig s
  id : ∀ a s, HasId D a s → HasId b.orig a s
  known : ∀ ps, ports = some ps → ∀ q ∈ ps, hasPort D q = true
  kept : Kept db b.csId ports w

/-- What an operation has to leave: after a success the state is good, after a
failure everything is kept. -/
structure Fine (db : Db) (b : Baseline) (ports : Option (List PortRef)) (out : Outcome) (D : Doc)
    (w : World) : Prop where
  success : out = .success → Good db b ports D w
  failure : out.isFailure = true → Kept db b.csId ports w

variable {b : Baseline} {k : Nat} {D : Doc} {w : World} {n : Node}
  {ctx : List (Rose.Frame Label)}

theorem Good.fine {out : Outcome} (h : Good db b ports D w) : Fine db b ports out D w :=
  ⟨fun _ => h, fun _ => h.kept⟩

/-- The listed ports stay when the equivalent of a node is deleted. -/
def AllSpared (ports : Option (List PortRef)) (n : Node) (ctx : List (Rose.Frame Label)) : Prop :=
  ∀ ps, ports = some ps → ∀ q ∈ ps, Spares q (Rose.path n ctx) n.children

/-- The equivalent of a node below the root is cut out. -/
theorem Good.unlink {w' : World} (h : Good db b ports D w) (hctx : ctx ≠ [])
    (hf : findElementEquiv D (Rose.chain n ctx) = some f) (hs : AllSpared ports n ctx)
    (hk : Kept db b.csId ports w') : Good db b ports (Rose.unlink f.loc D) w' := by
  obtain ⟨ctx', hfoc, -⟩ := find_focus hf
  have hget := Rose.get?_of_focus? hfoc
  exact ⟨h.running.unlink hget, fun s hr => h.root s (hr.of_unlink hget),
    fun a s hi => h.id a s (hi.of_unlink hget),
    fun ps hps q hq => hasPort_unlink (h.known ps hps q hq) hf hctx (hs ps hps q hq), hk⟩

/-- Deleting the equivalent of a node below the root, unless it is the id. -/
theorem editDeleteAt_fine (h : Good db b ports D w) (hctx : ctx ≠ [])
    (hf : findElementEquiv D (Rose.chain n ctx) = some f) (hid : isId (Rose.path n ctx) = false)
    (hs : AllSpared ports n ctx) (env : Env) :
    Fine db b ports (editDeleteAt true (ovsBackend env) f.loc D w).1
      (editDeleteAt true (ovsBackend env) f.loc D w).2.1
      (editDeleteAt true (ovsBackend env) f.loc D w).2.2 := by
  obtain ⟨ctx', hfoc, hctx', hp, hname⟩ := find_below hctx hf
  have hid' : isId (Rose.path f.node ctx') = false := by
    rw [← Bool.not_eq_true, isId_path, hp, hname, ← isId_path, hid]
    exact Bool.false_ne_true
  have hkept : Kept db b.csId ports (editDelete (ovsBackend env) f.node ctx' w).world :=
    editDelete_kept hctx' (h.running.focus hfoc) hid' h.kept
  simp only [editDeleteAt, if_true, hfoc]
  refine ⟨fun hout => ?_, fun _ => hkept⟩
  rw [editDelete_left hctx' ((Reply.outcome_eq_success _).mp hout)]
  exact h.unlink hctx hf hs hkept

theorem editCreate_fine (h : Good db b ports D w) (hn : Creates b.csId ports n ctx) :
    Fine db b ports (editCreate true (ovsBackend env) n ctx D w).out
      (editCreate true (ovsBackend env) n ctx D w).orig
      (editCreate true (ovsBackend env) n ctx D w).world := by
  have hkept : Kept db b.csId ports (editCreateRunning (ovsBackend env) n ctx w).world :=
    editCreateRunning_kept hn h.kept
  exact ⟨fun _ => ⟨h.running, h.root, h.id, h.known, hkept⟩, fun _ => hkept⟩

/-- The deletion of the id. -/
theorem editDelete_id (hid : isId (Rose.path n ctx) = true) (he : n.label.isElement = true) :
    editDelete (ovsBackend env) n ctx w = ⟨.success, none, { w with csId := none }⟩ := by
  obtain ⟨hname, hp⟩ := isId_path.mp hid
  cases n with
  | node l cs =>
    rw [Rose.label_node] at hname he
    have ha : deleteAction (.node l cs) (Rose.ancestors (.node l cs) ctx) =
        .call (.setSwitchid none) := by
      simp [deleteAction, isEmpty_ancestors hp, nameAt_ancestors, hp, hname]
    simp [editDelete, applyNode, he, ha, exec_clearSwitchid, finish]

/-- The creation of an id that starts with a text. -/
theorem editCreateRunning_id (hid : isId (Rose.path n ctx) = true) (he : n.label.isElement = true)
    {s : String} (hs : firstText n.children = some s) :
    editCreateRunning (ovsBackend env) n ctx w = ⟨.success, none, { w with csId := some s }⟩ := by
  have ha := createAction_id hid
  cases n with
  | node l cs =>
    simp only [Rose.label_node, Rose.children_node, actionAt] at he hs ha
    simp [editCreateRunning, applyNode, he, ha, exec_setSwitchid, hs, finish]

/-- Replacing a node below the root. The id is cleared and set again, with nothing in
between that could fail; an id that would not be set again is not found. -/
theorem editReplace_fine (h : Good db b ports D w) (hn : Creates b.csId ports n ctx)
    (hroot : ctx = [] → findElementEquiv D (Rose.chain n ctx) = none)
    (hs : AllSpared ports n ctx)
    (htext : isId (Rose.path n ctx) = true → ∀ f,
      findElementEquiv D (Rose.chain n ctx) = some f → firstIsText n.children = true) :
    Fine db b ports (editReplace true (ovsBackend env) n ctx D w).out
      (editReplace true (ovsBackend env) n ctx D w).orig
      (editReplace true (ovsBackend env) n ctx D w).world := by
  cases hf : findElementEquiv D (Rose.chain n ctx) with
  | none =>
    simp only [editReplace, hf]
    exact editCreate_fine h hn
  | some f =>
    have hctx : ctx ≠ [] := fun hnil => by simp [hroot hnil] at hf
    cases hid : isId (Rose.path n ctx) with
    | true =>
      obtain ⟨hname, hp⟩ := isId_path.mp hid
      obtain ⟨ctx', hfoc, hctx', hp', hname'⟩ := find_below hctx hf
      obtain ⟨s, hfirst⟩ := firstText_of_firstIsText (htext hid f hf)
      have hcs : b.csId = some s := hn.ids.here hid s hfirst
      have he : n.label.isElement = true := by
        rcases isElement_or_isText_of_matching (find_matches hf) with he | ht
        · exact he
        · obtain ⟨c, hc⟩ := (Label.isText_iff _).mp ht
          simp [hc, Label.name] at hname
      have hdel : editDeleteAt true (ovsBackend env) f.loc D w =
          (.success, Rose.unlink f.loc D, { w with csId := none }) := by
        simp only [editDeleteAt, if_true, hfoc, editDelete_id
          (isId_path.mpr ⟨hname'.trans hname, hp'.trans hp⟩) (find_isElement he hf)]
        rfl
      simp only [editReplace, hf, hdel, editCreate, if_true,
        editCreateRunning_id hid he hfirst]
      have hkept : Kept db b.csId ports { w with csId := some s } :=
        ⟨⟨h.kept.same.1, hcs.symm⟩, h.kept.added⟩
      exact (h.unlink hctx hf hs hkept).fine
    | false =>
      have hdel := editDeleteAt_fine h hctx hf hid hs env
      simp only [editReplace, hf]
      split
      · next d s' heq =>
          rw [heq] at hdel
          exact editCreate_fine (hdel.success rfl) hn
      · next o d s' hne heq =>
          rw [heq] at hdel
          exact hdel

/-- An id that is cleared is not in the running configuration. -/
theorem Good.not_id (h : Good db b ports D w) (hn : IdCalm b (Rose.path n ctx) n.children)
    (hclear : Clears n.label n.children) (hf : findElementEquiv D (Rose.chain n ctx) = some f) :
    isId (Rose.path n ctx) = false := by
  rw [← Bool.not_eq_true]
  intro hid
  obtain ⟨s, hpath, hD⟩ := hasId_of_calm h.running hid hf
  have hno := (hn hid).2
  rw [hpath] at hno
  exact hno hclear (h.id _ _ hD)

/-- The loop over the equivalents of a node below the root. -/
theorem deleteAll_fine (h : Good db b ports D w) (hctx : ctx ≠ [])
    (hn : IdCalm b (Rose.path n ctx) n.children) (hclear : Clears n.label n.children)
    (hs : AllSpared ports n ctx) (env : Env) :
    Fine db b ports (deleteAll fuel true (ovsBackend env) (Rose.chain n ctx) D w).1
      (deleteAll fuel true (ovsBackend env) (Rose.chain n ctx) D w).2.1
      (deleteAll fuel true (ovsBackend env) (Rose.chain n ctx) D w).2.2 := by
  rw [deleteAll]
  cases hrun : Loop.run (deleteRound true (ovsBackend env) (Rose.chain n ctx)) fuel (D, w) with
  | none => exact h.fine
  | some r =>
    refine Loop.run_induct (fun st => Good db b ports st.1 st.2)
      (fun r => Fine db b ports r.1 r.2.1 r.2.2) ?_ ?_ h hrun
    · rintro ⟨D₁, w₁⟩ ⟨D₂, w₂⟩ hgood hround
      simp only [deleteRound] at hround
      split at hround
      · simp at hround
      · next f hf =>
          have hdel := editDeleteAt_fine hgood hctx hf (hgood.not_id hn hclear hf) hs env
          split at hround
          · next d s' heq =>
              obtain ⟨rfl, rfl⟩ : d = D₂ ∧ s' = w₂ := by simpa using hround
              rw [heq] at hdel
              exact hdel.success rfl
          · simp at hround
    · rintro ⟨D₁, w₁⟩ r hgood hround
      simp only [deleteRound] at hround
      split at hround
      · obtain rfl : (Outcome.success, D₁, w₁) = r := by simpa using hround
        exact hgood.fine
      · next f hf =>
          have hdel := editDeleteAt_fine hgood hctx hf (hgood.not_id hn hclear hf) hs env
          split at hround
          · simp at hround
          · obtain rfl : editDeleteAt true (ovsBackend env) f.loc D₁ w₁ = r := by
              simpa using hround
            exact hdel

/-- At the root the loop goes round `txn_del_all`, which never fails: it
succeeds, and the loop goes on, or the process ends. -/
theorem deleteAll_root_fine (h : Good db b ports D w) (he : n.label.isElement = true) (env : Env) :
    Fine db b ports (deleteAll fuel true (ovsBackend env) [n] D w).1
      (deleteAll fuel true (ovsBackend env) [n] D w).2.1
      (deleteAll fuel true (ovsBackend env) [n] D w).2.2 := by
  cases hf : findElementEquiv D [n] with
  | none =>
    have hround : deleteRound true (ovsBackend env) [n] (D, w) = .exit (.success, D, w) := by
      simp [deleteRound, hf]
    rw [deleteAll]
    cases fuel with
    | zero => exact h.fine
    | succ k =>
      rw [Loop.run_succ_exit hround]
      exact h.fine
  | some f =>
    rw [deleteAll, run_deleteRound_root (ovsBackend env) he hf]
    cases hrun : Loop.run (delAllRound (ovsBackend env)) fuel w with
    | none => exact h.fine
    | some r =>
      have hcrash : r.1 = .crash := by
        refine Loop.run_induct (fun _ => True) (fun r => r.1 = .crash) (fun _ _ _ _ => trivial)
          ?_ trivial hrun
        intro w₁ r _ hround
        rw [delAllRound] at hround
        cases hd : (ovsBackend env).delAll w₁ with
        | mk o w₂ =>
          rcases delAll_reply env w₁ with hr | hr
          · obtain rfl : o = .success := by rw [← hr, hd]
            simp [hd] at hround
          · obtain rfl : o = .crash := by rw [← hr, hd]
            obtain rfl : (Reply.crash, w₂) = r := by simpa [hd] using hround
            rfl
      refine ⟨?_, ?_⟩
      · simp [hcrash, Reply.outcome]
      · simp [hcrash, Reply.outcome]

/-- What an element with a deleting operation spares. -/
theorem allSpared_of_op (hn : CalmNode b ports k n ctx)
    (hop : deletesEquiv (getOperation n.label) = true) : AllSpared ports n ctx :=
  fun ps hps q hq => (hn.here.ports ps hps).spared q hq hop

/-- Elements with one of the deleting operations: the root, or a node that
is not the id. -/
theorem editRemove_fine (h : Good db b ports D w) (hn : CalmNode b ports k n ctx)
    (he : n.label.isElement = true)
    (hop : getOperation n.label = .op .delete ∨ getOperation n.label = .op .remove) (env : Env) :
    Fine db b ports (editRemove fuel true (ovsBackend env) n ctx D w).out
      (editRemove fuel true (ovsBackend env) n ctx D w).orig
      (editRemove fuel true (ovsBackend env) n ctx D w).world := by
  have hdel : deletesEquiv (getOperation n.label) = true := by
    rcases hop with ho | ho <;> rw [ho] <;> rfl
  have hclear : Clears n.label n.children := by
    refine ⟨hdel, fun hr => ?_⟩
    rcases hop with ho | ho <;> simp [ho] at hr
  cases ctx with
  | nil => exact deleteAll_root_fine h he env
  | cons f ctx =>
    exact deleteAll_fine h (by simp) hn.here.id hclear (allSpared_of_op hn hdel) env

theorem editDeleteOp_fine (h : Good db b ports D w) (hn : CalmNode b ports k n ctx)
    (he : n.label.isElement = true) (hop : getOperation n.label = .op .delete) (env : Env) :
    Fine db b ports (editDeleteOp fuel true (ovsBackend env) n ctx D w).out
      (editDeleteOp fuel true (ovsBackend env) n ctx D w).orig
      (editDeleteOp fuel true (ovsBackend env) n ctx D w).world := by
  rw [editDeleteOp]
  split
  · exact h.fine
  · exact editRemove_fine h hn he (.inl hop) env

/-- A root that would be replaced is a new one. -/
theorem Good.no_root (h : Good db b ports D w) (hn : CalmNode b ports k n []) (hk : 2 ≤ k)
    (hreq : b.defop ≠ .none ∨ ∃ z ∈ Rose.path n [], getOperation z ≠ .unset)
    (hrep : getOperation n.label = .op .replace ∨ startsWithText n.children = true) :
    findElementEquiv D (Rose.chain n []) = none := by
  cases hf : findElementEquiv D (Rose.chain n []) with
  | none => rfl
  | some f =>
    have hsuf : Rose.path n [] <:+ [n.label] := List.suffix_refl _
    have hreq' : Requested b.defop [n.label] := requested_below hk hn.here.settled hreq hsuf
    exact absurd (h.root _ (hasRoot_of_find hf)) (hn.here.root hreq' hrep)

/-- The operation replace. -/
theorem editReplaceOp_fine (h : Good db b ports D w) (hn : CalmNode b ports k n ctx) (hk : 2 ≤ k)
    (hop : getOperation n.label = .op .replace) (env : Env) :
    Fine db b ports (editReplace true (ovsBackend env) n ctx D w).out
      (editReplace true (ovsBackend env) n ctx D w).orig
      (editReplace true (ovsBackend env) n ctx D w).world := by
  have hreq : b.defop ≠ .none ∨ ∃ z ∈ Rose.path n ctx, getOperation z ≠ .unset :=
    .inr ⟨n.label, by simp [Rose.path], by simp [hop]⟩
  have hmake : Creates b.csId ports n ctx := by
    refine ⟨setsId_of_calm hn hk hreq, fun hne => ?_⟩
    obtain ⟨ps, rfl⟩ := Option.ne_none_iff_exists'.mp hne
    exact portFree_of_op hn hk (.inr hop)
  refine editReplace_fine h hmake ?_ (allSpared_of_op hn (by rw [hop]; rfl)) ?_
  · rintro rfl
    exact h.no_root hn hk hreq (.inl hop)
  · intro hid f hf
    by_contra htext
    have hclear : Clears n.label n.children :=
      ⟨by rw [hop]; rfl, fun _ => by simpa using htext⟩
    simp [h.not_id hn.here.id hclear hf] at hid

/-- The operation create. -/
theorem editCreateOp_fine (h : Good db b ports D w) (hn : CalmNode b ports k n ctx) (hk : 2 ≤ k)
    (hop : getOperation n.label = .op .create) (env : Env) :
    Fine db b ports (editCreate true (ovsBackend env) n ctx D w).out
      (editCreate true (ovsBackend env) n ctx D w).orig
      (editCreate true (ovsBackend env) n ctx D w).world := by
  refine editCreate_fine h ⟨setsId_of_calm hn hk ?_, fun hne => ?_⟩
  · exact .inr ⟨n.label, by simp [Rose.path], by simp [hop]⟩
  · obtain ⟨ps, rfl⟩ := Option.ne_none_iff_exists'.mp hne
    exact portFree_of_op hn hk (.inl hop)

/-- Where there are listed ports, the path does not lead to the name of a port. -/
def OutsideNames (ports : Option (List PortRef)) (p : List Label) : Prop :=
  ∀ ps, ports = some ps → ps ≠ [] → belowName p = false

/-- A leaf that is merged spares the listed ports: it is not the `resources`, not a
port and not below the name of one. -/
theorem allSpared_of_text (hn : CalmNode b ports k n ctx) (hk : 2 ≤ k)
    (hreq : b.defop ≠ .none ∨ ∃ z ∈ Rose.path n ctx, getOperation z ≠ .unset)
    (htext : firstIsText n.children = true)
    (hbelow : OutsideNames ports (Rose.path n ctx)) : AllSpared ports n ctx := by
  intro ps hps q hq
  have hstart := startsWithText_of_firstIsText htext
  have hcalm := hn.here.ports ps hps
  have hlast := hbelow ps hps (List.ne_nil_of_mem hq)
  rcases ctx with _ | ⟨fr, _ | ⟨fr', _ | ⟨fr'', ctx⟩⟩⟩
  · exact hlast
  · intro hs hr
    have hfalse := hcalm.resources (List.ne_nil_of_mem hq) (by simp [Rose.path, hs, hr])
    simp [hstart] at hfalse
  · intro hport
    have hreq' := requested_below hk hn.here.settled hreq (List.suffix_refl _)
    have hfalse := (hcalm.requested hport hreq').1
    simp [hstart] at hfalse
  · exact hlast

/-- A merge. -/
theorem editMerge_fine (env : Env) (hk : 2 ≤ k) (n : Node) :
    ∀ (ctx : List (Rose.Frame Label)) (D : Doc) (w : World), Good db b ports D w →
      CalmNode b ports k n ctx →
      (b.defop ≠ .none ∨ ∃ z ∈ Rose.path n ctx, getOperation z ≠ .unset) →
      OutsideNames ports (Rose.path n ctx) →
      Fine db b ports (editMerge true (ovsBackend env) n ctx D w).out
        (editMerge true (ovsBackend env) n ctx D w).orig
        (editMerge true (ovsBackend env) n ctx D w).world := by
  induction n using Rose.induct with
  | h l cs ih =>
    -- the loop over the children: keys are left out, the others are not below a name
    have hloop : ∀ (todo : List Node), (∀ c ∈ todo, c ∈ cs) → ∀ (done : List Node)
        (ctx : List (Rose.Frame Label)) (D : Doc) (w : World), Good db b ports D w →
        CalmNode b ports k (.node l cs) ctx →
        (b.defop ≠ .none ∨ ∃ z ∈ Rose.path (.node l cs) ctx, getOperation z ≠ .unset) →
        OutsideNames ports (Rose.path (.node l cs) ctx) →
        Fine db b ports (editMergeChildren true (ovsBackend env) l done todo ctx D w).out
          (editMergeChildren true (ovsBackend env) l done todo ctx D w).orig
          (editMergeChildren true (ovsBackend env) l done todo ctx D w).world := by
      intro todo
      induction todo with
      | nil => exact fun _ done ctx D w h _ _ _ => h.fine
      | cons c rest ihrest =>
        intro hsub done ctx D w h hn hreq hbelow
        have hrest := ihrest (fun x hx => hsub x (List.mem_cons_of_mem _ hx))
        rw [editMergeChildren]
        split
        · exact hrest _ ctx D w h hn hreq hbelow
        · next hkey =>
            have hreq' : b.defop ≠ .none ∨
                ∃ z ∈ Rose.path c (⟨done, l, rest⟩ :: ctx), getOperation z ≠ .unset := by
              rcases hreq with hdef | ⟨z, hz, ho⟩
              · exact .inl hdef
              · exact .inr ⟨z, List.mem_cons_of_mem _ hz, ho⟩
            have hbelow' : OutsideNames ports (Rose.path c (⟨done, l, rest⟩ :: ctx)) := by
              intro ps hps hne
              have hup := hbelow ps hps hne
              simp only [Rose.path, Rose.label_node, List.map_cons] at hup ⊢
              rw [belowName, hup, Bool.or_false]
              rw [← Bool.not_eq_true]
              simp only [Bool.and_eq_true, decide_eq_true_eq]
              rintro ⟨hname, hport⟩
              exact hkey (by simp [isKey, hname, hport])
            have hc := ih c (hsub c (by simp)) (⟨done, l, rest⟩ :: ctx) D w h
              (hn.child (hsub c (by simp))) hreq' hbelow'
            simp only
            split
            · next hout => exact hrest _ ctx _ _ (hc.success hout) hn hreq hbelow
            · next o hne => exact hc
    intro ctx D w h hn hreq hbelow
    cases hf : findElementEquiv D (Rose.chain (.node l cs) ctx) with
    | none =>
      rw [editMerge_of_none hf]
      refine editCreate_fine h ⟨setsId_of_calm hn hk hreq, fun hne => ?_⟩
      obtain ⟨ps, rfl⟩ := Option.ne_none_iff_exists'.mp hne
      exact portFree_of_none hn hk hreq (h.known ps rfl) hf
    | some f =>
      cases hkey : isKey l (nameAt (Rose.ancestors (.node l cs) ctx) 0) with
      | true =>
        rw [editMerge_of_key hf hkey]
        exact h.fine
      | false =>
        cases ht : firstIsText cs with
        | true =>
          have hctx : ctx ≠ [] := by
            rintro rfl
            have hnone := h.no_root hn hk hreq (.inr (startsWithText_of_firstIsText ht))
            simp [hf] at hnone
          rw [editMerge_of_text hf hkey ht]
          refine editReplace_fine h ⟨setsId_of_calm hn hk hreq, fun hne => ?_⟩
            (fun hnil => absurd hnil hctx) (allSpared_of_text hn hk hreq ht hbelow)
            (fun _ _ _ => ht)
          obtain ⟨ps, rfl⟩ := Option.ne_none_iff_exists'.mp hne
          exact portFree_of_text hn hk hreq hctx ht
        | false =>
          rw [editMerge_of_children hf hkey ht]
          exact hloop cs (fun _ hc => hc) [] ctx D w h hn hreq hbelow

end OfConfig.Proofs
