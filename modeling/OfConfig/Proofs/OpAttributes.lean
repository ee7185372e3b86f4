import OfConfig.Proofs.Atomicity
import OfConfig.Proofs.Stored

/-!
# `OfConfig.Proofs.OpAttributes`: operation attributes in a stored document

`edit_create` takes the operation attribute off the node it stores, and
copies everything below as it is. Whether an attribute gets into a
datastore so depends on what is below a stored node when its phase comes.

* `admits_of_apart`: the condition on a compacted edit document under
  which nothing with an attribute is below a node that is stored.
* `no_operation_stored`: under that condition no attribute is stored.
-/

set_option autoImplicit false

namespace OfConfig.Proofs

open OfConfig.Lib OfConfig.Xml OfConfig.Edit

variable {σ : Type}
variable {d d' : Doc} {defop : DefOp} {n : Node} {noneCast : Option EditOp}

/-- The label has no operation attribute. -/
def NoOp (l : Label) : Prop := opAttr l = none

instance : DecidablePred NoOp := fun l => inferInstanceAs (Decidable (opAttr l = none))

theorem noOp_bare (l : Label) : NoOp l.bare := by
  cases l <;> rfl

theorem stable_noOp : Stable NoOp where
  text _ := rfl
  bare l _ := noOp_bare l
  dropOp l _ := opAttr_dropOpAttr l

theorem noOp_of_getOperation {l : Label} (h : ∀ o, getOperation l ≠ .op o)
    (hbad : getOperation l ≠ .bad) : NoOp l := by
  cases hl : getOperation l with
  | op o => exact absurd hl (h o)
  | bad => exact absurd hl hbad
  | unset =>
    rw [getOperation] at hl
    cases ha : opAttr l with
    | none => exact ha
    | some v =>
      simp only [ha] at hl
      split_ifs at hl

/-! ### Compacted documents -/

/-- A node is in a top element, or it is a top node itself. -/
theorem inElement_or_top (hd : SingleRoot d) {l : Loc} {ctx : List (Rose.Frame Label)}
    (hf : Rose.focus? d l = some (n, ctx)) :
    InElement n ctx ∨ ctx = [] ∧ n.label.isElement = false := by
  refine (Rose.focus_induct (P := fun n ctx => InElement n ctx ∨
    ctx = [] ∧ n.label.isElement = false ∧ n.children = []) ?_ ?_ hf).imp_right
    (fun h => ⟨h.1, h.2.1⟩)
  · intro t ht
    cases he : t.label.isElement with
    | false => exact .inr ⟨rfl, rfl, hd.leaf t ht he⟩
    | true =>
      refine .inl ?_
      intro top htop
      obtain rfl : t.label = top := by simpa [Rose.path] using htop
      exact he
  · rintro t ctx left c right hch (hin | ⟨-, -, hnil⟩)
    · refine .inl ?_
      intro top htop
      refine hin top ?_
      simpa [Rose.path] using htop
    · simp [hnil] at hch

/-- What is left of a path is a path of the document before. -/
theorem compact_path (hd : SingleRoot d) (h : compactEditOperations noneCast defop d = some d')
    {p' : List Label} (hp' : PathIn d' p') :
    (∃ p, p' = compactLabels (defopCast noneCast defop) p) ∨
      ∃ l, p' = [l] ∧ l.isElement = false := by
  obtain ⟨l, u', c', hf', rfl⟩ := hp'
  obtain ⟨u, hu, -⟩ := compact_at h (Rose.get?_of_focus? hf')
  obtain ⟨c, hf⟩ := Rose.exists_focus? hu
  rcases compact_focus h hf with ⟨v, cv, hv, -, hpath⟩ | ⟨hnot, hsame⟩
  · obtain ⟨rfl, rfl⟩ : v = u' ∧ cv = c' := by simpa using hv.symm.trans hf'
    exact .inl ⟨_, hpath⟩
  · obtain ⟨rfl, rfl⟩ : u = u' ∧ c = c' := by simpa using hsame.symm.trans hf'
    obtain ⟨rfl, he⟩ := (inElement_or_top hd hf).resolve_left hnot
    exact .inr ⟨u.label, rfl, he⟩

/-- The operation that everything inherits is not the outermost one on any
path that is left. -/
theorem outermostNot_compactLabels (c : EditOp) (ls : List Label) :
    OutermostNot c (compactLabels (some c) ls) := by
  induction ls with
  | nil =>
    intro left right l heq
    simp [compactLabels] at heq
  | cons m ms ih =>
    intro left right l heq hno hl
    cases left with
    | cons x left => exact ih left right l (List.cons_eq_cons.mp heq).2 hno hl
    | nil =>
      obtain ⟨rfl, rfl⟩ := List.cons_eq_cons.mp heq
      -- so the element inherits `c`, and the compaction takes it off
      have hinh : nearestOp (some c) ms = some c := by
        rw [← nearestOp_compactLabels, nearestOp_none hno]
      rw [hinh, compactLabel] at hl
      split at hl
      · next o ho =>
          split at hl
          · simp [getOperation_dropOpAttr] at hl
          · next hne =>
              rw [ho] at hl
              cases hl
              exact hne rfl
      · next hne => exact hne c hl

theorem getOperation_of_not_element {l : Label} (h : l.isElement = false) :
    getOperation l = .unset := by
  cases l with
  | element => simp [Label.isElement] at h
  | _ => rfl

/-- With default operation merge no path that is left has a merge as its
outermost operation. -/
theorem outermostNot_merge (hd : SingleRoot d)
    (h : compactEditOperations noneCast .merge d = some d') {p : List Label} (hp : PathIn d' p) :
    OutermostNot .merge p := by
  rcases compact_path hd h hp with ⟨q, rfl⟩ | ⟨l, rfl, he⟩
  · exact outermostNot_compactLabels .merge q
  · intro left right m heq _ hm
    have hmem : m ∈ [l] := by simp [heq]
    obtain rfl := List.mem_singleton.mp hmem
    simp [getOperation_of_not_element he] at hm

/-- A node that the compaction accepts has no unknown operation. -/
theorem compactR_not_bad (n : Node) : ∀ supreme n', compactEditOperationsR supreme n = some n' →
    AllIn (fun l => getOperation l ≠ .bad) n' := by
  induction n using Rose.induct with
  | h l cs ih =>
    intro supreme n' h
    obtain ⟨hlab, hch⟩ := compactEditOperationsR_eq h
    rw [← Rose.eta n']
    refine .node ?_ ?_
    · rw [Rose.label_node, hlab, Rose.label_node, compactLabel]
      cases ho : getOperation l with
      | bad => simp [compactEditOperationsR, ho] at h
      | unset => simp [ho]
      | op o =>
        simp only
        split
        · simp [getOperation_dropOpAttr]
        · simp [ho]
    · intro c' hc'
      obtain ⟨i, hi⟩ := List.mem_iff_getElem?.mp hc'
      obtain ⟨c, hc, hcc⟩ := compactChildren_getElem? hch i hi
      exact ih c (List.mem_of_getElem? hc) _ c' hcc

/-- Not one label of the compacted document has an unknown operation. -/
theorem compact_not_bad (hd : SingleRoot d) (h : compactEditOperations noneCast defop d = some d') :
    AllLabels (fun l => getOperation l ≠ .bad) d' := by
  intro n' hn'
  obtain ⟨i, hi⟩ := List.mem_iff_getElem?.mp hn'
  obtain ⟨n, hn, -⟩ := compactEditOperations_getElem? h i hi
  obtain ⟨m, hm, hcases⟩ := compactEditOperations_getElem?_of h i hn
  obtain rfl : m = n' := by simpa using hm.symm.trans hi
  rcases hcases with ⟨-, hR⟩ | ⟨he, rfl⟩
  · exact compactR_not_bad n _ m hR
  · rw [← Rose.eta m, hd.leaf m (List.mem_of_getElem? hn) he]
    refine .node ?_ nofun
    have hunset := getOperation_of_not_element he
    simp [hunset]

/-! ### The condition -/

/-- No operation is below a node that is stored before the operation is
taken off: with default operation replace that is every top node, and
otherwise an ancestor whose operation is the first one above, in the order
of the phases, and stores. -/
def OpsApart (defop : DefOp) (edit : Doc) : Prop :=
  (defop = .replace → ∀ x y anc, PathIn edit (x :: y :: anc) → ∀ o, getOperation x ≠ .op o) ∧
  ∀ x anc, PathIn edit (x :: anc) → ∀ o, getOperation x = .op o →
    ∀ o', o' = .replace ∨ o' = .create ∨ o' = .merge → phaseIndex o' ≤ phaseIndex o →
      ¬ FirstAbove o' anc

theorem exists_outermost {ls : List Label} (h : ∃ l ∈ ls, ∃ o, getOperation l = .op o) :
    ∃ left l right o, ls = left ++ l :: right ∧ getOperation l = .op o ∧
      ∀ m ∈ right, ∀ o, getOperation m ≠ .op o := by
  induction ls with
  | nil => simp at h
  | cons m ms ih =>
    by_cases hms : ∃ l ∈ ms, ∃ o, getOperation l = .op o
    · obtain ⟨left, l, right, o, rfl, hl, hno⟩ := ih hms
      exact ⟨m :: left, l, right, o, rfl, hl, hno⟩
    · have hno : ∀ l ∈ ms, ∀ o, getOperation l ≠ .op o :=
        fun l hl o ho => hms ⟨l, hl, o, ho⟩
      obtain ⟨l, hl, o, ho⟩ := h
      rcases List.mem_cons.mp hl with rfl | hl
      · exact ⟨[], l, ms, o, rfl, ho, hno⟩
      · exact absurd ho (hno l hl o)

/-- When the phases are over, default merge finds no operation. -/
theorem no_op_at_merge {edit : Doc} (hout : ∀ p, PathIn edit p → OutermostNot .merge p)
    (hd : PathsFrom edit .merge d) {x : Label} {p : List Label} (hp : PathIn d (x :: p))
    (o : EditOp) : getOperation x ≠ .op o := by
  intro hx
  have hex : ∃ l ∈ x :: p, ∃ o, getOperation l = .op o := ⟨x, List.mem_cons_self, o, hx⟩
  obtain ⟨left, l, right, o', heq, hl, hno⟩ := exists_outermost hex
  obtain ⟨hE, hidx⟩ := hd _ hp
  have hmerge : o' = .merge := by
    have hle := hidx l (heq ▸ by simp) o' hl
    cases o' <;> simp [phaseIndex] at hle ⊢
  exact hout _ hE left right l heq hno (hmerge ▸ hl)

/-- A node may be stored when no operation is below it. -/
theorem storable_noOp {l : Loc} {ctx : List (Rose.Frame Label)}
    (hf : Rose.focus? d l = some (n, ctx))
    (hbelow : ∀ x p, PathIn d (x :: p) → Rose.path n ctx <:+ p → NoOp x) : Storable NoOp n ctx :=
  storable_of_paths hf (opAttr_dropOpAttr _) hbelow (fun y _ => noOp_bare y)

theorem focus?_top {F : Doc} (h : n ∈ F) : ∃ i, Rose.focus? F [i] = some (n, []) := by
  obtain ⟨i, hi⟩ := List.mem_iff_getElem?.mp h
  exact ⟨i, by simp only [Rose.focus?, hi, Rose.focusIn]⟩

theorem admits_of_apart {cfg edit : Doc} (hcfg : SingleRoot cfg) (hset : defop ≠ .notset)
    (hcomp : compactEditOperations noneCast defop cfg = some edit) (h : OpsApart defop edit) :
    Admits NoOp defop edit where
  replaced := by
    intro hrep n hn
    obtain ⟨i, hf⟩ := focus?_top hn
    refine storable_noOp hf ?_
    intro x p hp hsuf
    refine noOp_of_getOperation ?_ ((compact_not_bad hcfg hcomp).path hp)
    cases p with
    | nil => simp [Rose.path] at hsuf
    | cons y p => exact h.1 hrep x y p hp
  phase := by
    intro op hop d hd l n ctx hf hn
    refine storable_noOp hf ?_
    intro x p hp hsuf
    obtain ⟨hE, hidx⟩ := hd _ hp
    refine noOp_of_getOperation ?_ ((compact_not_bad hcfg hcomp).path hE)
    intro o hx
    -- the node itself makes its operation the first one above
    have hmem : n.label ∈ p := hsuf.subset (by simp [Rose.path])
    exact h.2 x p hE o hx op hop (hidx x (by simp) o hx)
      ⟨⟨n.label, hmem, hn⟩, fun z hz => hidx z (by simp [hz])⟩
  merged := by
    intro hmerge d hd n hn
    obtain rfl := hmerge.resolve_right hset
    obtain ⟨i, hf⟩ := focus?_top hn
    refine storable_noOp hf ?_
    intro x p hp _
    refine noOp_of_getOperation ?_ ((compact_not_bad hcfg hcomp).path (hd _ hp).1)
    exact no_op_at_merge (fun q hq => outermostNot_merge hcfg hcomp hq) hd hp

/-! ### The call -/

theorem editLocal_labels {P : Label → Prop} (hP : Stable P) (env : Setup) (B : Backend σ)
    {cfgds : Option Doc} {cfg : Doc} (world : σ)
    (hE : ∀ edit, compactEditOperations env.noneCast defop cfg = some edit → Admits P defop edit)
    (h : ∀ d, cfgds = some d → AllLabels P d)
    (hd : (editLocal env B defop cfgds cfg world).2 = some d) : AllLabels P d := by
  have hstart : AllLabels P (cfgds.getD []) := by
    cases cfgds with
    | none => exact fun n hn => absurd hn List.not_mem_nil
    | some d₀ => exact h d₀ rfl
  rw [editLocal] at hd
  split at hd
  · split at hd
    · exact h d hd
    · next edit hcomp =>
        have hops : AllLabels P (editOperations env.fuel false B defop
            ⟨cfgds.getD [], edit, world⟩).2.orig :=
          editOperations_labels hP env.fuel B (hE edit hcomp) hstart
        simp only at hd
        split at hd
        · cases hd
          exact hops
        · split at hd
          · split at hd
            · simp at hd
            · cases hd
              exact hops
          · simp at hd
  · exact h d hd

/-- Nothing with an operation attribute is stored by an edit in which no
operation is below a node that is stored before the operation is taken
off. -/
theorem no_operation_stored (env : Setup) (B : Backend σ) {t : Datastore}
    (ht : t.isLocal = true) (config : String) (defop : DefOp) (srv : Server σ)
    (hread : ∀ c d, env.read c = some d → SingleRoot d)
    (hcond : ∀ cfg edit, env.read config = some cfg →
      compactEditOperations env.noneCast (effectiveDefop defop) cfg = some edit →
      OpsApart (effectiveDefop defop) edit)
    (hplain : ∀ d, srv.gds t = some d → AllLabels NoOp d)
    (hsucc : (ofcdsEditconfig env B t config defop srv).1 = .success) :
    ∀ d, (ofcdsEditconfig env B t config defop srv).2.gds t = some d → AllLabels NoOp d := by
  intro d hd
  have hset : effectiveDefop defop ≠ .notset := by
    rw [effectiveDefop]
    split
    · exact nofun
    · assumption
  cases hcfg : (env.read config).filter validConfigRoot with
  | none => simp [ofcdsEditconfig, hcfg] at hsucc
  | some cfg =>
    have hparse : env.read config = some cfg := (Option.filter_eq_some_iff.mp hcfg).1
    have hlocal : (editLocal env B (effectiveDefop defop) (srv.gds t) cfg srv.world).2 =
        some d := by
      cases t <;> simp [Datastore.isLocal] at ht <;>
        simpa [ofcdsEditconfig, hcfg, Server.gds, storeRollback, effectiveDefop] using hd
    refine editLocal_labels stable_noOp env B srv.world ?_ hplain hlocal
    intro edit hcomp
    exact admits_of_apart (hread config cfg hparse) hset hcomp (hcond cfg edit hparse hcomp)

/-- A server without local datastores. -/
def emptyServer : Server Unit := ofcdsInit none ()

/-- A port to be created, with its number, is stored without the
attribute. -/
theorem no_operation_stored_create_port :
    (ofcdsEditconfig (.ofDocs [createPort]) idleBackend .startup (xmlText createPort) .merge
      emptyServer).1 = .success ∧
    ∀ d, (ofcdsEditconfig (.ofDocs [createPort]) idleBackend .startup (xmlText createPort) .merge
      emptyServer).2.gds .startup = some d → AllLabels NoOp d := by
  have hread := filter_read_ofDocs createPort [] (by decide)
  have hsucc : (ofcdsEditconfig (.ofDocs [createPort]) idleBackend .startup (xmlText createPort)
      .merge emptyServer).1 = .success := by
    rw [ofcdsEditconfig_startup hread]
    decide +kernel
  refine ⟨hsucc, no_operation_stored (.ofDocs [createPort]) idleBackend rfl _ .merge emptyServer
    ?_ ?_ ?_ hsucc⟩
  · intro c d hd
    obtain rfl : d = createPort := by simpa using List.mem_of_find?_eq_some hd
    exact ⟨by decide, by simp [createPort]⟩
  · intro cfg edit hcfg hedit
    obtain rfl : createPort = cfg :=
      Option.some.inj ((Setup.read_ofDocs createPort []).symm.trans hcfg)
    have hkept : compactEditOperations (some .create) (effectiveDefop .merge) createPort =
        some createPort := by decide
    obtain rfl : createPort = edit := by simpa using hkept.symm.trans hedit
    refine ⟨nofun, ?_⟩
    rintro x anc hp o hx o' - - ⟨⟨y, hy, hyop⟩, -⟩
    have hone : ∀ p ∈ allPaths createPort,
        (∀ x ∈ p.head?, getOperation x = .unset) ∨ ∀ y ∈ p.tail, getOperation y = .unset := by
      decide
    rcases hone _ (mem_allPaths hp) with h | h
    · simp [h x rfl] at hx
    · simp [h y hy] at hyop
  · exact nofun

/-- A port to be merged in resources to be created. -/
def mergeInCreate (op : Option String) : Doc :=
  [elem "capable-switch" none [.node (.element "resources" none
    (op.toList.map (⟨some ncNsBase10, "operation", ·⟩))) [portEntry "eth0" (some "merge")]]]

/-- The resources are stored with everything in them, the attribute of the
port included. -/
theorem merge_operation_stored :
    let cfg := mergeInCreate (some "create")
    (ofcdsEditconfig (.ofDocs [cfg]) idleBackend .startup (xmlText cfg) .merge emptyServer).1 =
      .success ∧
    (ofcdsEditconfig (.ofDocs [cfg]) idleBackend .startup (xmlText cfg) .merge
      emptyServer).2.gds .startup = some (mergeInCreate none) ∧
    ¬ AllLabels NoOp (mergeInCreate none) := by
  intro cfg
  have hread := filter_read_ofDocs cfg [] (by decide)
  rw [ofcdsEditconfig_startup hread]
  refine ⟨by decide +kernel, by decide +kernel, ?_⟩
  intro h
  have hport : PathIn (mergeInCreate none) ((portEntry "eth0" (some "merge")).label ::
      ["resources", "capable-switch"].map (.element · none [])) :=
    ⟨[0, 0, 0], _, _, rfl, rfl⟩
  have hnone := h.path hport
  exact absurd hnone (by decide)

end OfConfig.Proofs
