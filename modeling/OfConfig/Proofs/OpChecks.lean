import OfConfig.Ovs.Backend
import OfConfig.Proofs.Atomicity
import OfConfig.Proofs.OpAttributes
import OfConfig.Proofs.RunningAtomic

/-!
# `OfConfig.Proofs.OpChecks`: which requests the checks reject

Before an edit, `check_edit_ops` walks up from the elements with operation
`delete` and from those with operation `create`. It does not look at the
elements with operation `remove` or `replace`, so that a conflict between
one of them and an ancestor goes unseen (`remove_in_create_accepted`), and
it sees an unknown operation only above a `delete` or `create`; a later
step reads every operation without a place for the error
(`unknown_operation_crashes`).

The checks stop at the first element that does not pass. `Offends` says
which elements do not, `FirstOffence` which one is the first, and
`checkRequest_cases` gives the outcome. `conflicts_rejected_iff` and
`unknown_operation_reported_iff` are the results.
-/

set_option autoImplicit false

namespace OfConfig.Proofs

open OfConfig.Lib OfConfig.Xml OfConfig.Edit OfConfig.Ovs

variable {anc : List Node} {cfg : Doc} {cfgds : Option Doc} {defop : DefOp} {mode : WdMode}
  {n : Node} {o : Outcome} {op : EditOp} {x : EditOp × Loc}

/-! ### Operations in conflict -/

/-- The operations that may not stand above an operation. -/
def conflicting : EditOp → List EditOp
  | .delete | .remove => [.create, .replace]
  | .create | .replace => [.delete, .remove]
  | .merge => []

/-- An element with the operation, below the given ancestors, is in
conflict with the default operation or with one of them. -/
def Conflicts (defop : DefOp) (op : EditOp) (anc : List Node) : Prop :=
  ((op = .delete ∨ op = .remove) ∧ defop = .replace) ∨
    ∃ a ∈ anc, ∃ o ∈ conflicting op, getOperation a.label = .op o

/-- An ancestor has an unknown operation. -/
def UnknownAbove (anc : List Node) : Prop := ∃ a ∈ anc, getOperation a.label = .bad

/-- Some element of the document is in conflict. -/
def HasConflict (defop : DefOp) (cfg : Doc) : Prop :=
  ∃ l n ctx op, Rose.focus? cfg l = some (n, ctx) ∧ n.label.isElement = true ∧
    getOperation n.label = .op op ∧ Conflicts defop op (Rose.ancestors n ctx)

/-- Some element of the document has an unknown operation. -/
def HasUnknown (cfg : Doc) : Prop :=
  ∃ l n ctx, Rose.focus? cfg l = some (n, ctx) ∧ n.label.isElement = true ∧
    getOperation n.label = .bad

/-- What `check_edit_ops_hierarchy` reports. -/
def HierarchyError (o : Outcome) : Prop :=
  ∃ e, o = .failure (some e) ∧ (e.tag = .badAttr ∨ e.tag = .opFailed)

theorem checkAncestorOps_success {conflict : List EditOp}
    (h : ∀ a ∈ anc, getOperation a.label ≠ .bad ∧ ∀ o ∈ conflict, getOperation a.label ≠ .op o) :
    checkAncestorOps conflict anc = .success := by
  induction anc with
  | nil => rfl
  | cons a anc ih =>
    obtain ⟨hbad, hop⟩ := h a (by simp)
    have hrest := ih (fun b hb => h b (by simp [hb]))
    rw [checkAncestorOps]
    cases ho : getOperation a.label with
    | bad => exact absurd ho hbad
    | unset => exact hrest
    | op o =>
      have hmem : o ∉ conflict := fun hmem => hop o hmem ho
      simp only [hmem, if_false, hrest]

theorem checkAncestorOps_error {conflict : List EditOp} {a : Node} (ha : a ∈ anc)
    (h : getOperation a.label = .bad ∨ ∃ o ∈ conflict, getOperation a.label = .op o) :
    HierarchyError (checkAncestorOps conflict anc) := by
  induction anc with
  | nil => cases ha
  | cons b anc ih =>
    rw [checkAncestorOps]
    cases ho : getOperation b.label with
    | bad => exact ⟨_, rfl, .inl rfl⟩
    | unset =>
      rcases List.mem_cons.mp ha with rfl | ha
      · simp [ho] at h
      · exact ih ha
    | op o =>
      by_cases hmem : o ∈ conflict
      · simp only [hmem, if_true]
        exact ⟨_, rfl, .inr rfl⟩
      · simp only [hmem, if_false]
        rcases List.mem_cons.mp ha with rfl | ha
        · simp [ho, hmem] at h
        · exact ih ha

/-- The walk up from a `delete` or a `create` finds what is in conflict and
what is unknown. -/
theorem checkEditOpsHierarchy_cases (defop : DefOp) (hop : op = .delete ∨ op = .create) {l : Label}
    (hl : getOperation l = .op op) (anc : List Node) :
    (¬ (Conflicts defop op anc ∨ UnknownAbove anc) ∧
      checkEditOpsHierarchy l anc defop = .success) ∨
    ((Conflicts defop op anc ∨ UnknownAbove anc) ∧
      HierarchyError (checkEditOpsHierarchy l anc defop)) := by
  have hwalk : checkEditOpsHierarchy l anc defop =
      if op = .delete ∧ defop = .replace then .failure (some { tag := .opFailed })
      else checkAncestorOps (conflicting op) anc := by
    rcases hop with rfl | rfl <;> simp [checkEditOpsHierarchy, hl, conflicting]
  rw [hwalk]
  by_cases hdef : op = .delete ∧ defop = .replace
  · rw [if_pos hdef]
    exact .inr ⟨.inl (.inl ⟨.inl hdef.1, hdef.2⟩), _, rfl, .inr rfl⟩
  · rw [if_neg hdef]
    by_cases hanc : ∃ a ∈ anc, getOperation a.label = .bad ∨
        ∃ o ∈ conflicting op, getOperation a.label = .op o
    · obtain ⟨a, ha, hbad⟩ := hanc
      refine .inr ⟨?_, checkAncestorOps_error ha hbad⟩
      rcases hbad with hbad | hbad
      · exact .inr ⟨a, ha, hbad⟩
      · exact .inl (.inr ⟨a, ha, hbad⟩)
    · refine .inl ⟨?_, checkAncestorOps_success fun a ha => ⟨fun hbad => hanc ⟨a, ha, .inl hbad⟩,
        fun o ho hao => hanc ⟨a, ha, .inr ⟨o, ho, hao⟩⟩⟩⟩
      rintro ((⟨hdel, hrep⟩ | ⟨a, ha, hconf⟩) | ⟨a, ha, hbad⟩)
      · rcases hop with rfl | rfl
        · exact hdef ⟨rfl, hrep⟩
        · simp at hdel
      · exact hanc ⟨a, ha, .inr hconf⟩
      · exact hanc ⟨a, ha, .inl hbad⟩

/-! ### The elements that are checked -/

/-- The elements `check_edit_ops` looks at, in its order: first those with
operation `delete`, then those with operation `create`. -/
def checkedElements (cfg : Doc) : List (EditOp × Loc) :=
  (getOperationElements .delete cfg).map (.delete, ·) ++
    (getOperationElements .create cfg).map (.create, ·)

/-- The datastore has no node to delete, or has the node to create. -/
def WrongData (cfgds : Option Doc) (op : EditOp) (n : Node) (anc : List Node) : Prop :=
  match op with
  | .delete => cfgds.bind (fun d => findElementEquiv d (n :: anc)) = none
  | .create => cfgds.bind (fun d => findElementEquiv d (n :: anc)) ≠ none
  | _ => False

/-- The with-defaults mode makes `check_edit_ops` look at the default value
of the node, a string literal that it then frees. -/
def FreesLiteral (mode : WdMode) (op : EditOp) (n : Node) (anc : List Node) : Prop :=
  (op = .delete ∧ mode = .all ∨ op = .create ∧ mode = .trim) ∧
    (getDefval n.label (nameAt anc 0)).isSome = true

/-- The walk up from the element ends with an error. -/
def BadAncestry (defop : DefOp) (op : EditOp) (anc : List Node) : Prop :=
  Conflicts defop op anc ∨ UnknownAbove anc

/-- The element does not pass the checks. -/
def Offends (defop : DefOp) (cfgds : Option Doc) (op : EditOp) (n : Node) (anc : List Node) :
    Prop :=
  BadAncestry defop op anc ∨ WrongData cfgds op n anc

/-- A statement about the element at a position, its operation and its
ancestors. -/
def At (cfg : Doc) (Q : EditOp → Node → List Node → Prop) (x : EditOp × Loc) : Prop :=
  ∃ n ctx, Rose.focus? cfg x.2 = some (n, ctx) ∧ Q x.1 n (Rose.ancestors n ctx)

/-- There is an element with `P` in the list, and the first one has `Q`. -/
def FirstHas {α : Type} (P Q : α → Prop) : List α → Prop
  | [] => False
  | x :: xs => (P x ∧ Q x) ∨ (¬ P x ∧ FirstHas P Q xs)

theorem FirstHas.and {α : Type} {P Q Q' : α → Prop} {xs : List α} (h : FirstHas P Q xs)
    (h' : FirstHas P Q' xs) : ∃ x ∈ xs, P x ∧ Q x ∧ Q' x := by
  induction xs with
  | nil => exact h.elim
  | cons x xs ih =>
    rcases h with ⟨hp, hq⟩ | ⟨hp, h⟩
    · rcases h' with ⟨-, hq'⟩ | ⟨hp', -⟩
      · exact ⟨x, by simp, hp, hq, hq'⟩
      · exact absurd hp hp'
    · rcases h' with ⟨hp', -⟩ | ⟨-, h'⟩
      · exact absurd hp' hp
      · obtain ⟨y, hy, hall⟩ := ih h h'
        exact ⟨y, by simp [hy], hall⟩

theorem FirstHas.imp {α : Type} {P Q Q' : α → Prop} {xs : List α} (h : FirstHas P Q xs)
    (himp : ∀ x ∈ xs, P x → Q x → Q' x) : FirstHas P Q' xs := by
  induction xs with
  | nil => exact h.elim
  | cons x xs ih =>
    rcases h with ⟨hp, hq⟩ | ⟨hp, h⟩
    · exact .inl ⟨hp, himp x (by simp) hp hq⟩
    · exact .inr ⟨hp, ih h (fun y hy => himp y (by simp [hy]))⟩

/-- Of the elements that are checked, the first one that does not pass is
such that `Q`. -/
def FirstOffence (defop : DefOp) (cfgds : Option Doc) (cfg : Doc)
    (Q : EditOp → Node → List Node → Prop) : Prop :=
  FirstHas (At cfg (Offends defop cfgds)) (At cfg Q) (checkedElements cfg)

/-- The rule of `check_edit_ops` for one element. -/
def verdict (defop : DefOp) (mode : WdMode) (cfgds : Option Doc) (cfg : Doc) (x : EditOp × Loc) :
    Outcome :=
  checkEditOpsLoop x.1 defop mode cfgds cfg [x.2]

/-- Check after check, up to the first that does not succeed. -/
def firstFailing : List Outcome → Outcome
  | [] => .success
  | .success :: os => firstFailing os
  | o :: _ => o

theorem firstFailing_append (os os' : List Outcome) :
    firstFailing (os ++ os') =
      match firstFailing os with
      | .success => firstFailing os'
      | o => o := by
  induction os with
  | nil => rfl
  | cons o os ih => cases o <;> simp [firstFailing, ih]

theorem checkEditOpsLoop_eq (op : EditOp) (defop : DefOp) (mode : WdMode) (cfgds : Option Doc)
    (cfg : Doc) (ls : List Loc) :
    checkEditOpsLoop op defop mode cfgds cfg ls =
      firstFailing (ls.map (fun l => verdict defop mode cfgds cfg (op, l))) := by
  induction ls with
  | nil => rfl
  | cons l ls ih =>
    rw [List.map_cons, checkEditOpsLoop, ih, verdict, checkEditOpsLoop]
    cases Rose.focus? cfg l with
    | none => rfl
    | some p =>
      obtain ⟨n, ctx⟩ := p
      simp only
      cases checkEditOpsHierarchy n.label (Rose.ancestors n ctx) defop with
      | success =>
        simp only
        cases checkEditOp op mode cfgds n (Rose.ancestors n ctx) <;>
          simp [checkEditOpsLoop, firstFailing]
      | failure e => rfl
      | crash => rfl
      | timeout => rfl

/-- After the keys the elements are checked one after the other. -/
theorem checkRequest_eq {env : Setup} (defop : DefOp) (cfgds : Option Doc)
    (hkeys : checkKeys cfg = .success) :
    checkRequest env defop cfgds cfg =
      firstFailing ((checkedElements cfg).map (verdict defop env.mode cfgds cfg)) := by
  rw [checkRequest, hkeys, checkedElements, List.map_append, firstFailing_append, List.map_map,
    List.map_map]
  simp only [checkEditOps, checkEditOpsLoop_eq]
  rfl

/-- The outcome of the checks for one element. -/
inductive Judged (defop : DefOp) (mode : WdMode) (cfgds : Option Doc) (op : EditOp) (n : Node)
    (anc : List Node) : Outcome → Prop
  | pass (h : ¬ Offends defop cfgds op n anc) : Judged defop mode cfgds op n anc .success
  | ancestry {o : Outcome} (h : BadAncestry defop op anc) (ho : HierarchyError o) :
      Judged defop mode cfgds op n anc o
  | literal (h : ¬ BadAncestry defop op anc) (hdata : WrongData cfgds op n anc)
      (hlit : FreesLiteral mode op n anc) : Judged defop mode cfgds op n anc .crash
  | data {e : NcErr} (h : ¬ BadAncestry defop op anc) (hdata : WrongData cfgds op n anc)
      (hlit : ¬ FreesLiteral mode op n anc) (he : e.tag = .dataMissing ∨ e.tag = .dataExists) :
      Judged defop mode cfgds op n anc (.failure (some e))

theorem mem_checkedElements (hx : x ∈ checkedElements cfg) :
    (x.1 = .delete ∨ x.1 = .create) ∧ HasOp x.1 cfg x.2 := by
  simp only [checkedElements, List.mem_append, List.mem_map, mem_getOperationElements] at hx
  rcases hx with ⟨l, hl, rfl⟩ | ⟨l, hl, rfl⟩
  · exact ⟨.inl rfl, hl⟩
  · exact ⟨.inr rfl, hl⟩

/-- The data check alone. -/
theorem checkEditOp_judged (mode : WdMode) (cfgds : Option Doc) (hop : op = .delete ∨ op = .create)
    (n : Node) (hanc : ¬ BadAncestry defop op anc) :
    Judged defop mode cfgds op n anc (checkEditOp op mode cfgds n anc) := by
  by_cases hdata : WrongData cfgds op n anc
  · by_cases hlit : FreesLiteral mode op n anc
    · have hcrash : checkEditOp op mode cfgds n anc = .crash := by
        rcases hop with rfl | rfl
        all_goals
          simp only [WrongData] at hdata
          simp_all [FreesLiteral, checkEditOp, Option.isSome_iff_ne_none]
      rw [hcrash]
      exact .literal hanc hdata hlit
    · rcases hop with rfl | rfl
      · have hfail : checkEditOp .delete mode cfgds n anc =
            .failure (some { tag := .dataMissing }) := by
          simp only [WrongData] at hdata
          simp_all [FreesLiteral, checkEditOp]
        rw [hfail]
        exact .data hanc hdata hlit (.inl rfl)
      · have hfail : checkEditOp .create mode cfgds n anc =
            .failure (some { tag := .dataExists }) := by
          simp only [WrongData] at hdata
          simp_all [FreesLiteral, checkEditOp, Option.isSome_iff_ne_none]
        rw [hfail]
        exact .data hanc hdata hlit (.inr rfl)
  · have hpass : checkEditOp op mode cfgds n anc = .success := by
      rcases hop with rfl | rfl
      all_goals
        simp only [WrongData] at hdata
        simp_all [checkEditOp]
    rw [hpass]
    exact .pass (fun h => h.elim hanc hdata)

/-- The ancestry first, then the data. -/
theorem verdict_judged (defop : DefOp) (mode : WdMode) (cfgds : Option Doc)
    (hx : x ∈ checkedElements cfg) :
    At cfg
      (fun op n anc => Judged defop mode cfgds op n anc (verdict defop mode cfgds cfg x)) x := by
  obtain ⟨hop, n, hget, -, hattr⟩ := mem_checkedElements hx
  obtain ⟨ctx, hfoc⟩ := Rose.exists_focus? hget
  refine ⟨n, ctx, hfoc, ?_⟩
  have hl := getOperation_of_opAttr hattr
  simp only [verdict, checkEditOpsLoop, hfoc]
  rcases checkEditOpsHierarchy_cases defop hop hl (Rose.ancestors n ctx) with
    ⟨hanc, hok⟩ | ⟨hanc, herr⟩
  · have hjudged := checkEditOp_judged mode cfgds hop n hanc
    simp only [hok]
    cases hdata : checkEditOp x.1 mode cfgds n (Rose.ancestors n ctx) <;>
      simpa only [hdata] using hjudged
  · refine .ancestry hanc ?_
    obtain ⟨e, he, htag⟩ := herr
    exact ⟨e, by simp only [he], htag⟩

/-- An outcome that is judged is a success if and only if the element
passes. -/
theorem Judged.success_iff (h : Judged defop mode cfgds op n anc o) :
    o = .success ↔ ¬ Offends defop cfgds op n anc := by
  cases h with
  | pass h => exact ⟨fun _ => h, fun _ => rfl⟩
  | ancestry hanc ho =>
    obtain ⟨e, rfl, -⟩ := ho
    exact ⟨fun heq => (by simp at heq), fun hno => absurd (.inl hanc) hno⟩
  | literal hanc hdata hlit =>
    exact ⟨fun heq => (by simp at heq), fun hno => absurd (.inr hdata) hno⟩
  | data hanc hdata hlit he =>
    exact ⟨fun heq => (by simp at heq), fun hno => absurd (.inr hdata) hno⟩

/-- An element that does not pass is reported, unless a default value is
freed. -/
theorem Judged.isFailure_iff (h : Judged defop mode cfgds op n anc o)
    (hoff : Offends defop cfgds op n anc) :
    o.isFailure = true ↔ BadAncestry defop op anc ∨ ¬ FreesLiteral mode op n anc := by
  cases h with
  | pass h => exact absurd hoff h
  | ancestry hanc ho =>
    obtain ⟨e, rfl, -⟩ := ho
    exact ⟨fun _ => .inl hanc, fun _ => rfl⟩
  | literal hanc hdata hlit => simp [Outcome.isFailure, hanc, hlit]
  | data hanc hdata hlit he => exact ⟨fun _ => .inr hlit, fun _ => rfl⟩

/-- The errors about operations are those of the walk up. -/
theorem Judged.hierarchyError_iff (h : Judged defop mode cfgds op n anc o) :
    HierarchyError o ↔ BadAncestry defop op anc := by
  cases h with
  | pass h =>
    refine ⟨?_, fun hanc => absurd (.inl hanc) h⟩
    rintro ⟨e, he, -⟩
    simp at he
  | ancestry hanc ho => exact ⟨fun _ => hanc, fun _ => ho⟩
  | literal hanc hdata hlit =>
    refine ⟨?_, fun h => absurd h hanc⟩
    rintro ⟨e, he, -⟩
    simp at he
  | data hanc hdata hlit he =>
    refine ⟨?_, fun h => absurd h hanc⟩
    rintro ⟨e', he', htag⟩
    obtain rfl := Option.some.inj (Outcome.failure.inj he')
    rcases he with he | he <;> simp [he] at htag

theorem At.unique {Q Q' : EditOp → Node → List Node → Prop} (h : At cfg Q x) (h' : At cfg Q' x) :
    At cfg (fun op n anc => Q op n anc ∧ Q' op n anc) x := by
  obtain ⟨n, ctx, hfoc, hq⟩ := h
  obtain ⟨n', ctx', hfoc', hq'⟩ := h'
  obtain ⟨rfl, rfl⟩ : n = n' ∧ ctx = ctx' := by simpa using hfoc.symm.trans hfoc'
  exact ⟨n, ctx, hfoc, hq, hq'⟩

/-- The checks give the verdict on the first element that does not pass. -/
theorem firstFailing_judged (defop : DefOp) (mode : WdMode) (cfgds : Option Doc)
    {xs : List (EditOp × Loc)} (hxs : ∀ x ∈ xs, x ∈ checkedElements cfg) :
    (firstFailing (xs.map (verdict defop mode cfgds cfg)) = .success ∧
      ∀ x ∈ xs, ¬ At cfg (Offends defop cfgds) x) ∨
    FirstHas (At cfg (Offends defop cfgds))
      (At cfg (fun op n anc => Judged defop mode cfgds op n anc
        (firstFailing (xs.map (verdict defop mode cfgds cfg))))) xs := by
  induction xs with
  | nil => exact .inl ⟨rfl, by simp⟩
  | cons x xs ih =>
    have hjudged := verdict_judged defop mode cfgds (hxs x (by simp))
    rw [List.map_cons]
    by_cases hv : verdict defop mode cfgds cfg x = .success
    · have hpass : ¬ At cfg (Offends defop cfgds) x := by
        intro hoff
        obtain ⟨n, ctx, -, hoff, hj⟩ := At.unique hoff hjudged
        exact hj.success_iff.mp hv hoff
      rw [hv, firstFailing]
      rcases ih (fun y hy => hxs y (by simp [hy])) with ⟨hok, hnone⟩ | hfirst
      · exact .inl ⟨hok, List.forall_mem_cons.mpr ⟨hpass, hnone⟩⟩
      · exact .inr (.inr ⟨hpass, hfirst⟩)
    · have hstop : firstFailing (verdict defop mode cfgds cfg x ::
          xs.map (verdict defop mode cfgds cfg)) = verdict defop mode cfgds cfg x := by
        cases ho : verdict defop mode cfgds cfg x with
        | success => exact absurd ho hv
        | failure e => rfl
        | crash => rfl
        | timeout => rfl
      rw [hstop]
      refine .inr (.inl ⟨?_, hjudged⟩)
      obtain ⟨n, ctx, hfoc, hj⟩ := hjudged
      exact ⟨n, ctx, hfoc, not_not.mp fun hno => hv (hj.success_iff.mpr hno)⟩

/-! ### What the checks of a request report -/

theorem checkKeys_cases (cfg : Doc) :
    checkKeys cfg = .success ∨ ∃ e, checkKeys cfg = .failure (some e) ∧ e.tag = .badElem := by
  unfold checkKeys
  split
  · exact .inl rfl
  · split
    · exact .inl rfl
    · exact .inr ⟨_, rfl, rfl⟩

/-- The ways the checks can end: a key is missing, every element passes, or
the first one that does not decides. -/
theorem checkRequest_cases (env : Setup) (defop : DefOp) (cfgds : Option Doc) (cfg : Doc) :
    (checkKeys cfg ≠ .success ∧
      ∃ e, checkRequest env defop cfgds cfg = .failure (some e) ∧ e.tag = .badElem) ∨
    (checkKeys cfg = .success ∧ checkRequest env defop cfgds cfg = .success ∧
      ∀ Q, ¬ FirstOffence defop cfgds cfg Q) ∨
    (checkKeys cfg = .success ∧ FirstOffence defop cfgds cfg (fun op n anc =>
      Judged defop env.mode cfgds op n anc (checkRequest env defop cfgds cfg))) := by
  rcases checkKeys_cases cfg with hkeys | ⟨e, hkeys, htag⟩
  · rw [checkRequest_eq defop cfgds hkeys]
    rcases firstFailing_judged defop env.mode cfgds (fun x hx => hx) with
      ⟨hok, hnone⟩ | hfirst
    · refine .inr (.inl ⟨hkeys, hok, fun Q hQ => ?_⟩)
      obtain ⟨x, hx, hoff, -⟩ := hQ.and hQ
      exact hnone x hx hoff
    · exact .inr (.inr ⟨hkeys, hfirst⟩)
  · exact .inl ⟨by simp [hkeys], e, by simp [checkRequest, hkeys], htag⟩

/-- The checks reject a request when a key is missing or the first element
that does not pass is reported. -/
def RejectedByChecks (env : Setup) (defop : DefOp) (cfgds : Option Doc) (cfg : Doc) : Prop :=
  checkKeys cfg ≠ .success ∨ FirstOffence defop cfgds cfg (fun op n anc =>
    BadAncestry defop op anc ∨ ¬ FreesLiteral env.mode op n anc)

/-- The checks report an operation when no key is missing and the first
element that does not pass has a conflict or an unknown operation above. -/
def ReportedByChecks (defop : DefOp) (cfgds : Option Doc) (cfg : Doc) : Prop :=
  checkKeys cfg = .success ∧ FirstOffence defop cfgds cfg (fun op _ anc => BadAncestry defop op anc)

theorem checkRequest_isFailure_iff (env : Setup) (defop : DefOp) (cfgds : Option Doc) (cfg : Doc) :
    (checkRequest env defop cfgds cfg).isFailure = true ↔ RejectedByChecks env defop cfgds cfg := by
  rcases checkRequest_cases env defop cfgds cfg with
    ⟨hkeys, e, he, -⟩ | ⟨hkeys, hok, hnone⟩ | ⟨hkeys, hfirst⟩
  · exact ⟨fun _ => .inl hkeys, fun _ => by rw [he]; rfl⟩
  · refine ⟨fun h => ?_, fun h => ?_⟩
    · simp [hok, Outcome.isFailure] at h
    · exact h.elim (absurd hkeys) (fun h => absurd h (hnone _))
  · constructor
    · intro hfail
      refine .inr (hfirst.imp fun x _ hoff hj => ?_)
      obtain ⟨n, ctx, hfoc, hoff, hj⟩ := hoff.unique hj
      exact ⟨n, ctx, hfoc, (hj.isFailure_iff hoff).mp hfail⟩
    · intro h
      obtain ⟨x, -, hoff, hj, hQ⟩ := hfirst.and (h.resolve_left (not_not.mpr hkeys))
      obtain ⟨n, ctx, -, hoff, hj, hQ⟩ := hoff.unique (hj.unique hQ)
      exact (hj.isFailure_iff hoff).mpr hQ

theorem checkRequest_hierarchyError_iff (env : Setup) (defop : DefOp) (cfgds : Option Doc)
    (cfg : Doc) :
    HierarchyError (checkRequest env defop cfgds cfg) ↔ ReportedByChecks defop cfgds cfg := by
  rcases checkRequest_cases env defop cfgds cfg with
    ⟨hkeys, e, he, htag⟩ | ⟨hkeys, hok, hnone⟩ | ⟨hkeys, hfirst⟩
  · refine ⟨?_, fun h => absurd h.1 hkeys⟩
    rintro ⟨e', he', htag'⟩
    obtain rfl : e = e' := by simpa [he] using he'
    simp [htag] at htag'
  · refine ⟨?_, fun h => absurd h.2 (hnone _)⟩
    rintro ⟨e, he, -⟩
    simp [hok] at he
  · constructor
    · intro herr
      refine ⟨hkeys, hfirst.imp ?_⟩
      rintro x - - ⟨n, ctx, hfoc, hj⟩
      exact ⟨n, ctx, hfoc, hj.hierarchyError_iff.mp herr⟩
    · rintro ⟨-, h⟩
      obtain ⟨x, -, -, hj, hQ⟩ := hfirst.and h
      obtain ⟨n, ctx, -, hj, hanc⟩ := hj.unique hQ
      exact hj.hierarchyError_iff.mpr hanc

/-! ### Compaction -/

/-- The compaction reads every operation of the document, without a place
for the error. -/
theorem compact_unknown (noneCast : Option EditOp) (defop : DefOp) (hroot : SingleRoot cfg)
    (hbad : HasUnknown cfg) : compactEditOperations noneCast defop cfg = none := by
  obtain ⟨l, n, ctx, hfoc, helem, hbad⟩ := hbad
  cases hcompact : compactEditOperations noneCast defop cfg with
  | none => rfl
  | some edit =>
    rcases compact_focus hcompact hfoc with ⟨n', ctx', hfoc', -, hpath⟩ | ⟨hout, -⟩
    · -- the node keeps its label, which a compacted document does not have
      have hlab : compactLabel (nearestOp (defopCast noneCast defop)
          (ctx.map Rose.Frame.label)) n.label = n.label := by
        simp only [compactLabel, hbad]
      have hpath' : Rose.path n' ctx' = n.label :: compactLabels (defopCast noneCast defop)
          (ctx.map Rose.Frame.label) := by
        rw [hpath, Rose.path, compactLabels, hlab]
      exact absurd hbad ((compact_not_bad hroot hcompact).path ⟨l, n', ctx', hfoc', hpath'.symm⟩)
    · rcases inElement_or_top hroot hfoc with hin | ⟨-, hno⟩
      · exact absurd hin hout
      · simp [helem] at hno

/-! ### The edit of a datastore -/

/-- The document a datastore holds before the call. The running one is read
from the database, which may crash. -/
def targetDoc (env : Setup) (ovs : Env) (srv : Server World) : Datastore → Option (Option Doc)
  | .running => (ofcGetConfigData ovs srv.world).map env.read
  | .startup => some srv.gdsStartup
  | .candidate => some srv.gdsCand
  | _ => none

/-- The datastore holds what it held before. -/
def Unchanged (srv srv' : Server World) : Datastore → Prop
  | .running => Same srv.world.stored srv.world.csId srv'.world
  | .startup => srv'.gdsStartup = srv.gdsStartup
  | .candidate => srv'.gdsCand = srv.gdsCand
  | _ => True

section

variable {env : Setup} {ovs : Env} {srv : Server World} {t : Datastore} {config : String}
  {cfg : Doc} {cfgds : Option Doc} {defop : DefOp}
  (hread : (env.read config).filter validConfigRoot = some cfg)
  (htarget : targetDoc env ovs srv t = some cfgds)

include hread htarget

/-- A request that the checks stop ends there, and nothing has changed. -/
theorem editconfig_of_stopped
    (hstop : checkRequest env (effectiveDefop defop) cfgds cfg ≠ .success) :
    (ofcdsEditconfig env (ovsBackend ovs) t config defop srv).1 =
      checkRequest env (effectiveDefop defop) cfgds cfg ∧
    Unchanged srv (ofcdsEditconfig env (ovsBackend ovs) t config defop srv).2 t := by
  rw [effectiveDefop] at *
  have hlocal : editLocal env (ovsBackend ovs) (if defop = .notset then .merge else defop) cfgds cfg
      srv.world =
        (checkRequest env (if defop = .notset then .merge else defop) cfgds cfg, cfgds) := by
    unfold editLocal
    split
    · next hok => exact absurd hok hstop
    · rfl
  cases t with
  | running =>
    obtain ⟨aux, haux, rfl⟩ := Option.map_eq_some_iff.mp htarget
    simp only [ofcdsEditconfig, hread, getConfigData_text haux, Unchanged, editRunning]
    cases hcheck : checkRequest env (if defop = .notset then .merge else defop)
        (env.read aux) cfg with
    | success => exact absurd hcheck hstop
    | failure e => exact ⟨rfl, (Same.abort ⟨rfl, rfl⟩)⟩
    | crash => exact ⟨rfl, rfl, rfl⟩
    | timeout => exact ⟨rfl, rfl, rfl⟩
  | startup =>
    obtain rfl : srv.gdsStartup = cfgds := by simpa [targetDoc] using htarget
    simp only [ofcdsEditconfig, hread, Unchanged, storeRollback, hlocal, and_self]
  | candidate =>
    obtain rfl : srv.gdsCand = cfgds := by simpa [targetDoc] using htarget
    simp only [ofcdsEditconfig, hread, Unchanged, storeRollback, hlocal, and_self]
  | _ => simp [targetDoc] at htarget

/-- A request with an unknown operation that passes the checks crashes. -/
theorem editconfig_of_unknown (hroot : SingleRoot cfg) (hbad : HasUnknown cfg)
    (hpass : checkRequest env (effectiveDefop defop) cfgds cfg = .success) :
    (ofcdsEditconfig env (ovsBackend ovs) t config defop srv).1 = .crash := by
  have hcompact := compact_unknown env.noneCast (effectiveDefop defop) hroot hbad
  rw [effectiveDefop] at *
  have hlocal : (editLocal env (ovsBackend ovs)
      (if defop = .notset then .merge else defop) cfgds cfg
      srv.world).1 = .crash := by
    simp only [editLocal, hpass, hcompact]
  cases t with
  | running =>
    obtain ⟨aux, haux, rfl⟩ := Option.map_eq_some_iff.mp htarget
    simp only [ofcdsEditconfig, hread, getConfigData_text haux, editRunning, hpass, hcompact]
  | startup =>
    obtain rfl : srv.gdsStartup = cfgds := by simpa [targetDoc] using htarget
    simpa only [ofcdsEditconfig, hread, storeRollback] using hlocal
  | candidate =>
    obtain rfl : srv.gdsCand = cfgds := by simpa [targetDoc] using htarget
    simpa only [ofcdsEditconfig, hread, storeRollback] using hlocal
  | _ => simp [targetDoc] at htarget

/-- An unknown operation is reported, with the datastore unchanged, if and
only if the checks come upon it, or upon a conflict, before anything else. -/
theorem unknown_operation_reported_iff (hroot : SingleRoot cfg) (hbad : HasUnknown cfg) :
    (HierarchyError (ofcdsEditconfig env (ovsBackend ovs) t config defop srv).1 ∧
      Unchanged srv (ofcdsEditconfig env (ovsBackend ovs) t config defop srv).2 t) ↔
    ReportedByChecks (effectiveDefop defop) cfgds cfg := by
  rw [← checkRequest_hierarchyError_iff env]
  by_cases hpass : checkRequest env (effectiveDefop defop) cfgds cfg = .success
  · rw [editconfig_of_unknown hread htarget hroot hbad hpass, hpass]
    have hno (o : Outcome) (ho : o = .crash ∨ o = .success) : ¬ HierarchyError o := by
      rintro ⟨e, rfl, -⟩
      simp at ho
    exact ⟨fun h => absurd h.1 (hno _ (.inl rfl)), fun h => absurd h (hno _ (.inr rfl))⟩
  · obtain ⟨hout, hsame⟩ := editconfig_of_stopped hread htarget hpass
    rw [hout]
    exact ⟨And.left, fun h => ⟨h, hsame⟩⟩

end

/-- A local edit that passed the checks either succeeds, or crashes, or
leaves the datastore changed. -/
theorem editLocal_of_passed {σ : Type} {env : Setup} (B : Backend σ) (world : σ)
    (hfuel : Rose.sizes (cfgds.getD []) < env.fuel)
    (hpass : checkRequest env defop cfgds cfg = .success) :
    ¬ ((editLocal env B defop cfgds cfg world).1.isFailure = true ∧
      (editLocal env B defop cfgds cfg world).2 = cfgds) := by
  rintro ⟨hfail, hsame⟩
  cases hcompact : compactEditOperations env.noneCast defop cfg with
  | none => simp [editLocal, hpass, hcompact, Outcome.isFailure] at hfail
  | some edit =>
    have hfound : deletesFound [] (getOperationElements .delete edit) (cfgds.getD []) edit =
        true := by
      cases cfgds with
      | some orig =>
        refine (editOperations_failure_iff B world hpass hcompact hfuel).mp fun _ => ?_
        simpa [editLocal, hpass, hcompact] using hsame
      | none =>
        -- without a datastore no `delete` passes the check
        have hnil : getOperationElements .delete edit = [] := by
          refine List.eq_nil_iff_forall_not_mem.mpr fun l hl => ?_
          have hop := hasOp_of_compact hcompact ((mem_getOperationElements _ _ _).mp hl)
          obtain ⟨d, n, ctx, f, hd, -⟩ := checkEditOps_delete (checkRequest_success hpass).2.1 hop
          simp at hd
        rw [hnil]
        rfl
    have hno : (editOperations env.fuel false B defop
        ⟨cfgds.getD [], edit, world⟩).1.isFailure = false :=
      editOperations_not_failure B hfuel hfound
    cases cfgds with
    | some orig =>
      simp only [editLocal, hpass, hcompact] at hfail
      rw [hno] at hfail
      exact absurd hfail (by simp)
    | none =>
      simp only [editLocal, hpass, hcompact] at hfail
      split at hfail
      · simp_all
      · simp_all

/-- A document with a conflict is rejected, with the datastore unchanged, if
a key is missing or if the first `delete` or `create` that does not pass the
checks is reported. On a local datastore this is the only way. -/
theorem conflicts_rejected_iff {env : Setup} {ovs : Env} {srv : Server World} {t : Datastore}
    {config : String} {cfg : Doc} {cfgds : Option Doc} (defop : DefOp)
    (hread : (env.read config).filter validConfigRoot = some cfg)
    (htarget : targetDoc env ovs srv t = some cfgds)
    (hfuel : Rose.sizes (cfgds.getD []) < env.fuel) :
    let r := ofcdsEditconfig env (ovsBackend ovs) t config defop srv
    let rejected := HasConflict (effectiveDefop defop) cfg →
      r.1.isFailure = true ∧ Unchanged srv r.2 t
    let condition := HasConflict (effectiveDefop defop) cfg →
      RejectedByChecks env (effectiveDefop defop) cfgds cfg
    (condition → rejected) ∧ (t.isLocal = true → (rejected ↔ condition)) := by
  intro r rejected condition
  have hsuff : condition → rejected := by
    intro hcond hconf
    have hfail := (checkRequest_isFailure_iff env _ cfgds cfg).mpr (hcond hconf)
    have hstop : checkRequest env (effectiveDefop defop) cfgds cfg ≠ .success := by
      intro hok
      simp [hok, Outcome.isFailure] at hfail
    obtain ⟨hout, hsame⟩ := editconfig_of_stopped hread htarget hstop
    exact ⟨by rw [hout]; exact hfail, hsame⟩
  refine ⟨hsuff, fun ht => ⟨fun hrej hconf => ?_, hsuff⟩⟩
  obtain ⟨hfail, hsame⟩ := hrej hconf
  rw [← checkRequest_isFailure_iff]
  by_cases hpass : checkRequest env (effectiveDefop defop) cfgds cfg = .success
  · have hno := editLocal_of_passed (ovsBackend ovs) srv.world hfuel hpass
    refine absurd ?_ hno
    cases t with
    | startup =>
      obtain rfl : srv.gdsStartup = cfgds := by simpa [targetDoc] using htarget
      simp only [r, ofcdsEditconfig, hread, storeRollback, Unchanged] at hfail hsame
      exact ⟨hfail, hsame⟩
    | candidate =>
      obtain rfl : srv.gdsCand = cfgds := by simpa [targetDoc] using htarget
      simp only [r, ofcdsEditconfig, hread, storeRollback, Unchanged] at hfail hsame
      exact ⟨hfail, hsame⟩
    | _ => simp [Datastore.isLocal] at ht
  · rw [← (editconfig_of_stopped hread htarget hpass).1]
    exact hfail

/-! ### Requests -/

/-- A server without local datastores, on an empty database. -/
def bareServer : Server World := ofcdsInit none {}

/-- A port with an operation and a feature with another one. -/
def portAndFeature (portOp featureOp : String) : Doc :=
  switchWithPorts [.node (.element "port" none [⟨some ncNsBase10, "operation", portOp⟩])
    [elem "name" none [txt "eth0"],
     .node (.element "configuration" none [⟨some ncNsBase10, "operation", featureOp⟩]) []]]

/-- A `delete` below a `create` is rejected. -/
theorem conflicts_rejected_delete_in_create :
    let cfg := portAndFeature "create" "delete"
    HasConflict .merge cfg ∧
    (ofcdsEditconfig (.ofDocs [cfg]) (ovsBackend grantingEnv) .startup (xmlText cfg) .merge
      bareServer).1.isFailure = true ∧
    Unchanged bareServer (ofcdsEditconfig (.ofDocs [cfg]) (ovsBackend grantingEnv) .startup
      (xmlText cfg) .merge bareServer).2 .startup := by
  intro cfg
  have hconf : HasConflict .merge cfg :=
    ⟨[0, 0, 0, 1], _, _, .delete, rfl, rfl, by decide,
      .inr ⟨_, List.Mem.head _, .create, by decide, by decide⟩⟩
  have hfirst : RejectedByChecks (.ofDocs [cfg]) .merge none cfg :=
    (checkRequest_isFailure_iff _ _ _ _).mp (by decide)
  have hread := filter_read_ofDocs cfg [] (by decide)
  exact ⟨hconf, (conflicts_rejected_iff .merge hread rfl (by decide)).1 (fun _ => hfirst) hconf⟩

/-- A `remove` below a `create` is accepted: what is below is taken out of
the edit document, and the rest of the port is created. -/
theorem remove_in_create_accepted :
    let cfg := portAndFeature "create" "remove"
    HasConflict .merge cfg ∧
    (ofcdsEditconfig (.ofDocs [cfg]) (ovsBackend grantingEnv) .startup (xmlText cfg) .merge
      bareServer).1 = .success ∧
    bareServer.gdsStartup = none ∧
    (ofcdsEditconfig (.ofDocs [cfg]) (ovsBackend grantingEnv) .startup (xmlText cfg) .merge
      bareServer).2.gdsStartup = some (switchWithPorts [portEntry "eth0" none]) := by
  intro cfg
  have hread := filter_read_ofDocs cfg [] (by decide)
  refine ⟨⟨[0, 0, 0, 1], _, _, .remove, rfl, rfl, by decide,
    .inr ⟨_, List.Mem.head _, .create, by decide, by decide⟩⟩, ?_⟩
  rw [ofcdsEditconfig_startup hread]
  decide +kernel

/-- An unknown operation above a `delete` is reported. -/
theorem unknown_operation_reported_above_delete :
    let cfg := portAndFeature "destroy" "delete"
    HierarchyError (ofcdsEditconfig (.ofDocs [cfg]) (ovsBackend grantingEnv) .startup
      (xmlText cfg) .merge bareServer).1 ∧
    Unchanged bareServer (ofcdsEditconfig (.ofDocs [cfg]) (ovsBackend grantingEnv) .startup
      (xmlText cfg) .merge bareServer).2 .startup := by
  intro cfg
  have hroot : SingleRoot cfg :=
    ⟨by decide, fun n hn he => by
      obtain rfl : n = _ := by simpa [cfg, portAndFeature, switchWithPorts] using hn
      simp [elem] at he⟩
  have hbad : HasUnknown cfg := ⟨[0, 0, 0], _, _, rfl, rfl, by decide⟩
  have hfirst : ReportedByChecks .merge none cfg :=
    (checkRequest_hierarchyError_iff (.ofDocs [cfg]) _ _ _).mp
      ⟨badOperation, by decide, .inl rfl⟩
  have hread := filter_read_ofDocs cfg [] (by decide)
  exact (unknown_operation_reported_iff hread rfl hroot hbad).mpr hfirst

/-- An unknown operation alone is read without a place for the error. -/
theorem unknown_operation_crashes :
    let cfg := switchWithPorts [portEntry "eth0" (some "destroy")]
    HasUnknown cfg ∧
    (ofcdsEditconfig (.ofDocs [cfg]) (ovsBackend grantingEnv) .startup (xmlText cfg) .merge
      bareServer).1 = .crash := by
  intro cfg
  have hread := filter_read_ofDocs cfg [] (by decide)
  refine ⟨⟨[0, 0, 0], _, _, rfl, rfl, by decide⟩, ?_⟩
  rw [ofcdsEditconfig_startup hread]
  decide

end OfConfig.Proofs
