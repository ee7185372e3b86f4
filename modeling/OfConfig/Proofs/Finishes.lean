import OfConfig.Proofs.Rollback
import OfConfig.Proofs.Termination

/-!
# `OfConfig.Proofs.Finishes`: when `edit_operations` finishes

The loops of the delete and remove phases are settled in
`Proofs.Termination`. Here the remaining loops are added, over the
top-level nodes of the edit document, and the whole function is put
together.

* `ConfigRoot`: the top of an edit document, as the parser and the check
  of the root in `ofcds_editconfig` leave it. Every operation of a phase
  keeps it (`phaseLoop_configRoot`).
* `docLoop_merge_ends`: the default merge ends.
* `run_replace_iff`: the default replace of the running datastore ends if
  and only if the root is replaced at last.
* `finishes_iff`: the result for the whole function.
-/

set_option autoImplicit false

namespace OfConfig.Proofs

open OfConfig.Lib OfConfig.Xml OfConfig.Edit

variable {σ : Type}
variable {B : Backend σ} {D d : Doc} {ctx : List (Rose.Frame Label)} {fuel : Nat} {n : Node}
  {r : Outcome × EditState σ} {running : Bool} {s : σ} {st : EditState σ}

/-! ### The top of the edit document -/

/-- The top of an edit document: what XML allows there, and a root of the
name that `ofcds_editconfig` asks for. -/
structure ConfigRoot (d : Doc) : Prop where
  single : SingleRoot d
  noText : ∀ n ∈ d, n.label.isText = false
  named : ∀ n ∈ d, n.label.isElement = true → n.label.name = "capable-switch"

/-- The check of the root in `ofcds_editconfig` gives the name. -/
theorem configRoot_of_valid (hd : SingleRoot d) (htext : ∀ n ∈ d, n.label.isText = false)
    (hvalid : validConfigRoot d = true) : ConfigRoot d := by
  refine ⟨hd, htext, fun n hn hen => ?_⟩
  cases hroot : rootElement d with
  | none =>
    have hno := List.find?_eq_none.mp hroot n hn
    exact absurd hen hno
  | some root =>
    have hmem := List.mem_of_find?_eq_some hroot
    have helem := List.find?_some (p := fun n : Node => n.label.isElement) hroot
    rw [singleRoot_unique hd hn hmem hen helem]
    simpa [validConfigRoot, hroot] using hvalid

/-- A document made of some of the nodes keeps the shape; a node may have
lost children. -/
theorem ConfigRoot.mono {d' : Doc} (h : ConfigRoot d)
    (hlabels : List.Sublist (d'.map Rose.label) (d.map Rose.label))
    (hchildren : ∀ m ∈ d', ∃ n ∈ d, m.label = n.label ∧ (n.children = [] → m.children = [])) :
    ConfigRoot d' := by
  refine ⟨⟨?_, ?_⟩, ?_, ?_⟩
  · have hle := hlabels.countP_le (p := Label.isElement)
    simp only [List.countP_map, Function.comp_def] at hle
    exact Nat.le_trans hle h.single.one
  · intro m hm hem
    obtain ⟨n, hn, hl, hc⟩ := hchildren m hm
    exact hc (h.single.leaf n hn (by rw [← hl]; exact hem))
  · intro m hm
    obtain ⟨n, hn, hl, -⟩ := hchildren m hm
    rw [hl]
    exact h.noText n hn
  · intro m hm hem
    obtain ⟨n, hn, hl, -⟩ := hchildren m hm
    rw [hl] at hem ⊢
    exact h.named n hn hem

theorem ConfigRoot.sublist {d' : Doc} (h : ConfigRoot d) (hsub : List.Sublist d' d) :
    ConfigRoot d' :=
  h.mono (hsub.map _) (fun m hm => ⟨m, hsub.subset hm, rfl, id⟩)

theorem ConfigRoot.unlink (h : ConfigRoot d) {l : Loc} (hget : Rose.get? d l = some n) :
    ConfigRoot (Rose.unlink l d) := by
  match l with
  | [] => simp [Rose.get?] at hget
  | [i] =>
    have hi : d[i]? = some n := by
      simp only [Rose.get?, Rose.getIn] at hget
      split at hget
      · simp at hget
      · next u hu => rw [hu, hget]
    rw [Rose.unlink, Rose.modify_one _ hi, List.append_nil]
    refine h.sublist ?_
    conv => rhs; rw [← Rose.take_append_drop_of_getElem? hi]
    exact List.Sublist.append_left (List.sublist_cons_self _ _) _
  | i :: j :: l =>
    simp only [Rose.get?] at hget
    split at hget
    · simp at hget
    · next u hu =>
        have hlabels := Rose.map_label_modify (fun _ => []) (l := i :: j :: l) (by simp) d
        rw [Rose.unlink]
        refine h.mono (by rw [hlabels]) ?_
        rw [Rose.modify_down _ j l hu]
        intro m hm
        rcases List.mem_or_eq_of_mem_set hm with hm | rfl
        · exact ⟨m, hm, rfl, id⟩
        · refine ⟨u, List.mem_of_getElem? hu, rfl, fun hnil => ?_⟩
          simp [hnil, Rose.modify]

/-- An operation that leaves its node or unlinks it keeps the shape. -/
theorem ConfigRoot.afterStep (h : ConfigRoot st.edit) {l : Loc} {r : Edited σ}
    (hfoc : Rose.focus? st.edit l = some (n, ctx)) (hleft : r.left = none ∨ r.left = some n) :
    ConfigRoot (afterStep st l r).edit := by
  have hget := Rose.get?_of_focus? hfoc
  rcases hleft with hl | hl
  · simpa [Proofs.afterStep, hl, Rose.unlink] using h.unlink hget
  · simpa [Proofs.afterStep, hl, Rose.modify_self hget] using h

/-- A phase whose operations leave their node or unlink it. -/
theorem phaseLoop_configRoot {step : EditStep σ}
    (hleft : ∀ n ctx D s, (step n ctx D s).out = .success →
      (step n ctx D s).left = none ∨ (step n ctx D s).left = some n)
    (removed ls : List Loc) (h : ConfigRoot st.edit)
    (hout : (phaseLoop step removed ls st).1 = .success) :
    ConfigRoot (phaseLoop step removed ls st).2.edit := by
  revert hout
  refine phaseLoop_induct (fun _ _ st => ConfigRoot st.edit)
    (fun r => r.1 = .success → ConfigRoot r.2.edit) ?_ ?_ ?_ ?_ h
  · exact fun removed st hI _ => hI
  · exact fun removed l ls st _ => nofun
  · exact fun removed l ls st l' n ctx hI _ hfoc hout => hI.afterStep hfoc (hleft n ctx _ _ hout)
  · exact fun removed l ls st l' n ctx _ _ _ hne hout => absurd hout hne

theorem phaseLoop_ne_timeout {step : EditStep σ}
    (hstep : ∀ n ctx D s, (step n ctx D s).out ≠ .timeout) (removed ls : List Loc)
    (st : EditState σ) : (phaseLoop step removed ls st).1 ≠ .timeout :=
  phaseLoop_induct (fun _ _ _ => True) (fun r => r.1 ≠ .timeout) (fun _ _ _ => nofun)
    (fun _ _ _ _ _ => nofun) (fun _ _ _ _ _ _ _ _ _ _ _ => trivial)
    (fun _ _ _ _ _ _ _ _ _ _ _ => hstep _ _ _ _) trivial

/-! ### The default merge -/

/-- Only elements and texts have equivalents. -/
theorem find_other (he : n.label.isElement = false) (ht : n.label.isText = false) (D : Doc) :
    findElementEquiv D [n] = none := by
  have hdiffer : ∀ m ∈ D, matchingElements n m [] = .differ := by
    intro m _
    cases n with
    | node l cs =>
      rw [Rose.label_node] at he ht
      rw [matchingElements]
      simp [he, ht]
  simp [findElementEquiv, (findMatch_eq_none_iff n [] 0 D).mpr hdiffer]

/-- A top-level node is not a key, or has no equivalent. -/
theorem ConfigRoot.not_key (h : ConfigRoot d) (hn : n ∈ d) (D : Doc) :
    isKey n.label (nameAt (Rose.ancestors n []) 0) = false ∨
      findElementEquiv D (Rose.chain n []) = none := by
  cases he : n.label.isElement with
  | true => exact Or.inl (by simp [isKey, h.named n hn he])
  | false => exact Or.inr (find_other he (h.noText n hn) D)

theorem editMerge_stays (hout : (editMerge running B n ctx D s).out = .success) :
    (editMerge running B n ctx D s).left = none ∨
      (editMerge running B n ctx D s).left = some n := by
  by_cases hkey : isKey n.label (nameAt (Rose.ancestors n ctx) 0) = true
  · cases hf : findElementEquiv D (Rose.chain n ctx) with
    | none => exact Or.inl (editMerge_left (Or.inr hf) hout)
    | some f => exact Or.inr (by rw [editMerge_of_key hf hkey])
  · exact Or.inl (editMerge_left (Or.inl (by simpa using hkey)) hout)

/-- A loop that leaves with something else than a timeout has not timed
out. -/
theorem docLoop_of_run {round : EditState σ → Loop.Step (EditState σ) (Outcome × EditState σ)}
    (h : Loop.run round fuel st = some r) : docLoop fuel round st = r := by
  rw [docLoop, h, Option.getD_some]

/-- The default merge ends: every round takes one node off the edit
document. -/
theorem docLoop_merge_ends (h : ConfigRoot st.edit) (hfuel : st.edit.length < fuel) :
    (docLoop fuel (defaultMergeRound running B) st).1 ≠ .timeout := by
  have hround : ∀ st st' : EditState σ, ConfigRoot st.edit →
      defaultMergeRound running B st = .again st' →
      ConfigRoot st'.edit ∧ st'.edit.length < st.edit.length := by
    rintro ⟨D, edit, s⟩ st' hI hagain
    cases edit with
    | nil => simp [defaultMergeRound] at hagain
    | cons n rest =>
      simp only [defaultMergeRound] at hagain
      split at hagain
      · next hout =>
          have hleft := editMerge_left (hI.not_key (by simp) D) hout
          cases hagain
          simp only [hleft, Option.toList_none, List.nil_append]
          exact ⟨hI.sublist (List.sublist_cons_self n rest), by simp⟩
      · simp at hagain
  obtain ⟨r, hr⟩ := Loop.run_eq_some_of_measure (fun st : EditState σ => ConfigRoot st.edit)
    (fun st => st.edit.length) hround h
  rw [docLoop_of_run (Loop.run_le hfuel hr)]
  refine Loop.run_induct (fun _ => True) (fun r : Outcome × EditState σ => r.1 ≠ .timeout)
    (fun _ _ _ _ => trivial) ?_ trivial hr
  rintro ⟨D, edit, s⟩ r' - hexit
  cases edit with
  | nil =>
    cases hexit
    simp
  | cons n rest =>
    simp only [defaultMergeRound] at hexit
    split at hexit
    · simp at hexit
    · cases hexit
      exact editMerge_ne_timeout running B n [] D s

/-! ### The default replace -/

/-- What one attempt of the default replace does. -/
theorem defaultReplaceRound_cons (running : Bool) (B : Backend σ) (n : Node) (rest D : Doc)
    (s : σ) :
    defaultReplaceRound running B ⟨D, n :: rest, s⟩ =
      let r := editReplace running B n [] D s
      match r.out with
      | .success | .failure _ => .again ⟨r.orig, r.left.toList ++ rest, r.world⟩
      | o => .exit (o, ⟨r.orig, r.left.toList ++ rest, r.world⟩) := rfl

/-- The default replace leaves no node, or does not end well. -/
theorem run_replace_exit {k : Nat} (h : Loop.run (defaultReplaceRound running B) k st = some r) :
    r.1 ≠ .timeout ∧ (r.1 = .success → r.2.edit = []) := by
  refine Loop.run_induct (fun _ => True)
    (fun r : Outcome × EditState σ => r.1 ≠ .timeout ∧ (r.1 = .success → r.2.edit = []))
    (fun _ _ _ _ => trivial) ?_ trivial h
  rintro ⟨D, edit, s⟩ r' - hexit
  cases edit with
  | nil =>
    cases hexit
    exact ⟨nofun, fun _ => rfl⟩
  | cons n rest =>
    rw [defaultReplaceRound_cons] at hexit
    simp only at hexit
    split at hexit
    · simp at hexit
    · simp at hexit
    · next hns _ =>
        cases hexit
        exact ⟨editReplace_ne_timeout running B n [] D s, fun hs => absurd hs hns⟩

/-- On a local datastore every attempt succeeds. -/
theorem run_replace_xml (B : Backend σ) (st : EditState σ) :
    ∃ r, Loop.run (defaultReplaceRound false B) (st.edit.length + 1) st = some r := by
  refine Loop.run_eq_some_of_measure (fun _ => True) (fun st : EditState σ => st.edit.length)
    ?_ trivial
  rintro ⟨D, edit, s⟩ st' - hagain
  refine ⟨trivial, ?_⟩
  cases edit with
  | nil => simp [defaultReplaceRound] at hagain
  | cons n rest =>
    have hok := (editReplace_xml B n [] D s).1
    rw [defaultReplaceRound_cons] at hagain
    simp only [hok, editReplace_left hok] at hagain
    cases hagain
    simp

/-- `edit_replace`, called again and again with what it left of the node,
at last does not fail (or has unlinked the node). -/
inductive RootReplaced (B : Backend σ) : Node → Doc → σ → Prop
  | done {n : Node} {D : Doc} {s : σ}
      (h : (editReplace true B n [] D s).out.isFailure = true →
        (editReplace true B n [] D s).left = none) : RootReplaced B n D s
  | again {n m : Node} {D : Doc} {s : σ}
      (hfail : (editReplace true B n [] D s).out.isFailure = true)
      (hleft : (editReplace true B n [] D s).left = some m)
      (h : RootReplaced B m (editReplace true B n [] D s).orig
        (editReplace true B n [] D s).world) :
      RootReplaced B n D s

/-- A comment or processing instruction is dropped. -/
theorem defaultReplaceRound_other {rest : Doc} (he : n.label.isElement = false)
    (ht : n.label.isText = false) :
    defaultReplaceRound true B ⟨D, n :: rest, s⟩ = .again ⟨D, rest, s⟩ := by
  have hf : findElementEquiv D (Rose.chain n []) = none := find_other he ht D
  have hr : editReplace true B n [] D s = ⟨.success, none, D, s⟩ := by
    cases n with
    | node l cs =>
      rw [Rose.label_node] at he
      simp [editReplace, hf, editCreate, editCreateRunning, applyNode, he, Reply.outcome]
  rw [defaultReplaceRound_cons]
  simp [hr]

theorem run_replace_others (B : Backend σ) {edit : Doc} (D : Doc) (s : σ)
    (h : ∀ n ∈ edit, n.label.isElement = false ∧ n.label.isText = false) :
    ∃ k r, Loop.run (defaultReplaceRound true B) k ⟨D, edit, s⟩ = some r := by
  induction edit with
  | nil => exact ⟨1, _, rfl⟩
  | cons n rest ih =>
    obtain ⟨k, r, hr⟩ := ih (fun m hm => h m (List.mem_cons_of_mem n hm))
    obtain ⟨he, ht⟩ := h n (by simp)
    exact ⟨k + 1, r, by rw [Loop.run_succ_again (defaultReplaceRound_other he ht), hr]⟩

/-- The rounds from the root on. -/
theorem run_replace_root_iff (B : Backend σ) {rest : Doc}
    (hrest : ∀ n ∈ rest, n.label.isElement = false ∧ n.label.isText = false) (n : Node) (D : Doc)
    (s : σ) :
    (∃ k r, Loop.run (defaultReplaceRound true B) k ⟨D, n :: rest, s⟩ = some r) ↔
      RootReplaced B n D s := by
  constructor
  · rintro ⟨k, r, hr⟩
    induction k generalizing n D s with
    | zero => simp at hr
    | succ k ih =>
      by_cases hfail : (editReplace true B n [] D s).out.isFailure = true
      · cases hleft : (editReplace true B n [] D s).left with
        | none => exact .done (fun _ => hleft)
        | some m =>
          obtain ⟨e, he⟩ := (Outcome.isFailure_iff _).mp hfail
          refine .again hfail hleft (ih m _ _ ?_)
          rw [← hr, Loop.run_succ_again]
          rw [defaultReplaceRound_cons]
          simp [he, hleft]
      · exact .done (fun h => absurd h hfail)
  · intro h
    induction h with
    | @done n D s h =>
      by_cases hgoes : (editReplace true B n [] D s).left = none
      · -- the node is gone, so the others are next, or the loop is left
        obtain ⟨k, r, hr⟩ := run_replace_others B (editReplace true B n [] D s).orig
          (editReplace true B n [] D s).world hrest
        cases hb : defaultReplaceRound true B ⟨D, n :: rest, s⟩ with
        | exit r' => exact ⟨1, r', Loop.run_succ_exit hb 0⟩
        | again st' =>
          refine ⟨k + 1, r, ?_⟩
          rw [Loop.run_succ_again hb, ← hr]
          rw [defaultReplaceRound_cons] at hb
          simp only [hgoes] at hb
          split at hb
          · cases hb; rfl
          · cases hb; rfl
          · simp at hb
      · have hns : (editReplace true B n [] D s).out ≠ .success :=
          fun hs => hgoes (editReplace_left hs)
        cases hb : defaultReplaceRound true B ⟨D, n :: rest, s⟩ with
        | exit r' => exact ⟨1, r', Loop.run_succ_exit hb 0⟩
        | again st' =>
          rw [defaultReplaceRound_cons] at hb
          simp only at hb
          split at hb
          · next hs => exact absurd hs hns
          · next e he => exact absurd (h (by simp [he])) hgoes
          · simp at hb
    | @again n m D s hfail hleft _ ih =>
      obtain ⟨k, r, hr⟩ := ih
      obtain ⟨e, he⟩ := (Outcome.isFailure_iff _).mp hfail
      refine ⟨k + 1, r, ?_⟩
      rw [Loop.run_succ_again, hr]
      rw [defaultReplaceRound_cons]
      simp [he, hleft]

/-- The default replace of the running datastore ends if and only if the
root is replaced at last. -/
theorem run_replace_iff (B : Backend σ) {edit : Doc} (h : ConfigRoot edit) (D : Doc) (s : σ) :
    (∃ k r, Loop.run (defaultReplaceRound true B) k ⟨D, edit, s⟩ = some r) ↔
      ∀ root ∈ edit, root.label.isElement = true → RootReplaced B root D s := by
  induction edit with
  | nil => exact ⟨fun _ => by simp, fun _ => ⟨1, _, rfl⟩⟩
  | cons n rest ih =>
    cases he : n.label.isElement with
    | true =>
      -- the root is first, so there is no other element
      have hrest : ∀ m ∈ rest, m.label.isElement = false ∧ m.label.isText = false := by
        refine fun m hm => ⟨?_, h.noText m (List.mem_cons_of_mem n hm)⟩
        have hone := h.single.one
        rw [List.countP_cons, if_pos he] at hone
        have h0 : rest.countP (fun n => n.label.isElement) = 0 := by omega
        simpa using List.countP_eq_zero.mp h0 m hm
      rw [run_replace_root_iff B hrest n D s]
      constructor
      · intro hn m hm hem
        rcases List.mem_cons.mp hm with rfl | hm
        · exact hn
        · simp [(hrest m hm).1] at hem
      · exact fun hall => hall n (by simp) he
    | false =>
      have hagain : defaultReplaceRound true B ⟨D, n :: rest, s⟩ = .again ⟨D, rest, s⟩ :=
        defaultReplaceRound_other he (h.noText n (by simp))
      have hiff := ih (h.sublist (List.sublist_cons_self n rest))
      have hall : (∀ root ∈ n :: rest, root.label.isElement = true → RootReplaced B root D s) ↔
          ∀ root ∈ rest, root.label.isElement = true → RootReplaced B root D s := by
        simp [he]
      rw [hall, ← hiff]
      constructor
      · rintro ⟨k, r, hr⟩
        cases k with
        | zero => simp at hr
        | succ k => exact ⟨k, r, by rwa [Loop.run_succ_again hagain] at hr⟩
      · rintro ⟨k, r, hr⟩
        exact ⟨k + 1, r, by rwa [Loop.run_succ_again hagain]⟩

/-! ### The whole function -/

/-- `edit_operations` ends, given enough rounds for its loops. -/
def Finishes (running : Bool) (B : Backend σ) (defop : DefOp) (st : EditState σ) : Prop :=
  ∃ fuel, (editOperations fuel running B defop st).1 ≠ .timeout

/-- The root of the running datastore is handled: the default replace
replaces it at last, or neither the delete phase nor, when that one
succeeds, the remove phase gets stuck at it. -/
def RootEnds (B : Backend σ) (defop : DefOp) (st : EditState σ) : Prop :=
  if defop = .replace then
    ∀ root ∈ st.edit, root.label.isElement = true → RootReplaced B root st.orig st.world
  else
    ¬ RootStuck .delete B st ∧
    ∀ fuel st', opPhase .delete (editDeleteOp fuel true B) st = (.success, st') →
      ¬ RootStuck .remove B st'

theorem setOpFailed_eq_timeout (o : Outcome) : setOpFailed o = .timeout ↔ o = .timeout := by
  cases o with
  | failure e => cases e <;> simp [setOpFailed]
  | _ => simp [setOpFailed]

theorem setOpFailed_eq_success (o : Outcome) : setOpFailed o = .success ↔ o = .success := by
  cases o with
  | failure e => cases e <;> simp [setOpFailed]
  | _ => simp [setOpFailed]

/-- A phase after one that did not time out. -/
theorem andThen_ne_timeout {f : EditState σ → Outcome × EditState σ} :
    (andThen r f).1 ≠ .timeout ↔
      r.1 ≠ .timeout ∧ (r.1 = .success → (f r.2).1 ≠ .timeout) := by
  obtain ⟨o, st⟩ := r
  cases o <;> simp [andThen]

theorem andThen_success {f : EditState σ → Outcome × EditState σ} (h : (andThen r f).1 = .success) :
    r.1 = .success ∧ andThen r f = f r.2 := by
  obtain ⟨o, st⟩ := r
  cases o <;> simp_all [andThen]

theorem andThen_of_ne (h : r.1 ≠ .success) (f : EditState σ → Outcome × EditState σ) :
    andThen r f = r := by
  obtain ⟨o, st⟩ := r
  cases o <;> simp_all [andThen]

/-- The phases that have no loop but the one over their node set. -/
def lastPhases (running : Bool) (B : Backend σ) (r : Outcome × EditState σ) :
    Outcome × EditState σ :=
  andThen (andThen (andThen r (opPhase .replace (editReplace running B)))
    (opPhase .create (editCreate running B))) (opPhase .merge (editMerge running B))

theorem lastPhases_ne_timeout (running : Bool) (B : Backend σ) :
    (lastPhases running B r).1 ≠ .timeout ↔ r.1 ≠ .timeout := by
  simp only [lastPhases, andThen_ne_timeout, opPhase]
  constructor
  · exact fun h => h.1.1.1
  · exact fun h => ⟨⟨⟨h, fun _ => phaseLoop_ne_timeout (editReplace_ne_timeout running B) _ _ _⟩,
      fun _ => phaseLoop_ne_timeout (editCreate_ne_timeout running B) _ _ _⟩,
      fun _ => phaseLoop_ne_timeout (editMerge_ne_timeout running B) _ _ _⟩

theorem lastPhases_configRoot (running : Bool) (B : Backend σ)
    (h : r.1 = .success → ConfigRoot r.2.edit) (hout : (lastPhases running B r).1 = .success) :
    ConfigRoot (lastPhases running B r).2.edit := by
  obtain ⟨h2, heq⟩ := andThen_success hout
  obtain ⟨h1, heq1⟩ := andThen_success h2
  obtain ⟨h0, heq0⟩ := andThen_success h1
  have c0 := h h0
  have c1 : ConfigRoot (andThen r (opPhase .replace (editReplace running B))).2.edit := by
    rw [heq0] at h1 ⊢
    exact phaseLoop_configRoot (fun _ _ _ _ hs => Or.inl (editReplace_left hs)) _ _ c0 h1
  have c2 : ConfigRoot (andThen (andThen r (opPhase .replace (editReplace running B)))
      (opPhase .create (editCreate running B))).2.edit := by
    rw [heq1] at h2 ⊢
    exact phaseLoop_configRoot (fun _ _ _ _ hs => Or.inl (editCreate_left hs)) _ _ c1 h2
  rw [lastPhases] at hout ⊢
  rw [heq] at hout ⊢
  exact phaseLoop_configRoot (fun _ _ _ _ hs => editMerge_stays hs) _ _ c2 hout

/-- The phases that delete. -/
def deletePhases (fuel : Nat) (running : Bool) (B : Backend σ) (st : EditState σ) :
    Outcome × EditState σ :=
  andThen (opPhase .delete (editDeleteOp fuel running B) st)
    (opPhase .remove (editRemove fuel running B))

/-- The phases one after the other, without the default replace. -/
theorem editOperations_of_ne_replace {defop : DefOp} (hne : defop ≠ .replace) (fuel : Nat)
    (running : Bool) (B : Backend σ) (st : EditState σ) :
    (editOperations fuel running B defop st).1 =
      setOpFailed (andThen (lastPhases running B (deletePhases fuel running B st)) (fun st =>
        if defop = .merge ∨ defop = .notset then docLoop fuel (defaultMergeRound running B) st
        else (.success, st))).1 := by
  simp only [editOperations, if_neg hne]
  rfl

theorem editRemove_left (hout : (editRemove fuel running B n ctx D s).out = .success) :
    (editRemove fuel running B n ctx D s).left = none :=
  if_pos hout

theorem editDeleteOp_left (hout : (editDeleteOp fuel running B n ctx D s).out = .success) :
    (editDeleteOp fuel running B n ctx D s).left = none := by
  rw [editDeleteOp] at hout ⊢
  split at hout
  · simp at hout
  · exact editRemove_left hout

theorem deletePhase_configRoot (h : ConfigRoot st.edit)
    (hout : (opPhase .delete (editDeleteOp fuel running B) st).1 = .success) :
    ConfigRoot (opPhase .delete (editDeleteOp fuel running B) st).2.edit :=
  phaseLoop_configRoot (fun _ _ _ _ hs => Or.inl (editDeleteOp_left hs)) _ _ h hout

theorem deletePhases_configRoot (h : ConfigRoot st.edit)
    (hout : (deletePhases fuel running B st).1 = .success) :
    ConfigRoot (deletePhases fuel running B st).2.edit := by
  obtain ⟨h1, heq⟩ := andThen_success hout
  rw [deletePhases] at hout ⊢
  rw [heq] at hout ⊢
  exact phaseLoop_configRoot (fun _ _ _ _ hs => Or.inl (editRemove_left hs)) _ _
    (deletePhase_configRoot h h1) hout

/-- Once the deleting phases have ended, more rounds change nothing. -/
theorem deletePhases_mono {fuel' : Nat} (hle : fuel ≤ fuel')
    (h : (deletePhases fuel running B st).1 ≠ .timeout) :
    deletePhases fuel' running B st = deletePhases fuel running B st := by
  obtain ⟨h1, h2⟩ := andThen_ne_timeout.mp h
  have hdel : opPhase .delete (editDeleteOp fuel' running B) st =
      opPhase .delete (editDeleteOp fuel running B) st :=
    (deletingStep_delete running B).phaseLoop_mono hle _ _ _ h1
  rw [deletePhases, deletePhases, hdel]
  by_cases hs : (opPhase .delete (editDeleteOp fuel running B) st).1 = .success
  · have hrem : opPhase .remove (editRemove fuel' running B)
        (opPhase .delete (editDeleteOp fuel running B) st).2 =
        opPhase .remove (editRemove fuel running B)
        (opPhase .delete (editDeleteOp fuel running B) st).2 :=
      (deletingStep_remove running B).phaseLoop_mono hle _ _ _ (h2 hs)
    simp only [andThen, hs, hrem]
  · rw [andThen_of_ne hs, andThen_of_ne hs]

theorem deletePhases_ends_iff (running : Bool) (B : Backend σ) (h : ConfigRoot st.edit) :
    (∃ fuel, (deletePhases fuel running B st).1 ≠ .timeout) ↔
      (running = true → ¬ RootStuck .delete B st ∧
        ∀ fuel st', opPhase .delete (editDeleteOp fuel true B) st = (.success, st') →
          ¬ RootStuck .remove B st') := by
  have hdelete := (deletingStep_delete running B).phase_ends_iff .delete h.single
  have hroot : ∀ {fuel st'}, opPhase .delete (editDeleteOp fuel running B) st = (.success, st') →
      ConfigRoot st'.edit := by
    intro fuel st' heq
    have hkeep := deletePhase_configRoot h (congrArg Prod.fst heq)
    rwa [heq] at hkeep
  have hremove : ∀ {fuel st'}, opPhase .delete (editDeleteOp fuel running B) st = (.success, st') →
      ((∃ fuel, (opPhase .remove (editRemove fuel running B) st').1 ≠ .timeout) ↔
        (running = true → ¬ RootStuck .remove B st')) := fun heq =>
    (deletingStep_remove running B).phase_ends_iff .remove (hroot heq).single
  constructor
  · rintro ⟨fuel, hne⟩ rfl
    obtain ⟨h1, h2⟩ := andThen_ne_timeout.mp hne
    refine ⟨hdelete.mp ⟨fuel, h1⟩ rfl, fun fuel' st' heq => ?_⟩
    -- the delete phase ends the same way for both numbers of rounds
    have hsame : opPhase .delete (editDeleteOp fuel true B) st = (.success, st') := by
      rcases Nat.le_total fuel fuel' with hle | hle
      · rw [← heq]
        exact ((deletingStep_delete true B).phaseLoop_mono hle _ _ _ h1).symm
      · rw [← heq]
        exact (deletingStep_delete true B).phaseLoop_mono hle _ _ _
          (by rw [show phaseLoop _ _ _ _ = _ from heq]; exact nofun)
    refine (hremove hsame).mp ⟨fuel, ?_⟩ rfl
    have := h2 (congrArg Prod.fst hsame)
    rwa [hsame] at this
  · intro hcond
    obtain ⟨fuel, h1⟩ := hdelete.mpr (fun hr => (hcond hr).1)
    by_cases hs : (opPhase .delete (editDeleteOp fuel running B) st).1 = .success
    · have heq : opPhase .delete (editDeleteOp fuel running B) st =
          (.success, (opPhase .delete (editDeleteOp fuel running B) st).2) := Prod.ext hs rfl
      obtain ⟨fuel', h2⟩ := (hremove heq).mpr (fun hr => by
        subst hr
        exact (hcond rfl).2 fuel _ heq)
      refine ⟨max fuel fuel', andThen_ne_timeout.mpr ⟨?_, fun _ => ?_⟩⟩
      · rw [opPhase, (deletingStep_delete running B).phaseLoop_mono (Nat.le_max_left _ _) _ _ _ h1]
        exact h1
      · have hdel : opPhase .delete (editDeleteOp (max fuel fuel') running B) st =
            opPhase .delete (editDeleteOp fuel running B) st :=
          (deletingStep_delete running B).phaseLoop_mono (Nat.le_max_left _ _) _ _ _ h1
        rw [hdel, opPhase,
          (deletingStep_remove running B).phaseLoop_mono (Nat.le_max_right _ _) _ _ _ h2]
        exact h2
    · exact ⟨fuel, andThen_ne_timeout.mpr ⟨h1, fun h => absurd h hs⟩⟩

/-- Once the default replace has ended well nothing is left for the
phases. -/
theorem opPhase_nil (op : EditOp) (step : EditStep σ) (h : st.edit = []) :
    opPhase op step st = (.success, st) := by
  rw [opPhase, h, getOperationElements_nil, phaseLoop_nil]

theorem editOperations_replace_eq (h : docLoop fuel (defaultReplaceRound running B) st = r)
    (hdone : r.1 = .success → r.2.edit = []) :
    editOperations fuel running B .replace st = (setOpFailed r.1, r.2) := by
  have hskip : ∀ op step, andThen r (opPhase op step) = r := by
    intro op step
    by_cases hs : r.1 = .success
    · obtain ⟨o, st'⟩ := r
      obtain rfl : o = .success := hs
      exact opPhase_nil op step (hdone rfl)
    · exact andThen_of_ne hs _
  have hlast : andThen r (fun st => (.success, st)) = r := by
    obtain ⟨o, st'⟩ := r
    cases o <;> rfl
  simp [editOperations, h, hskip, hlast]

theorem editOperations_of_replace (h : docLoop fuel (defaultReplaceRound running B) st = r)
    (hdone : r.1 = .success → r.2.edit = []) :
    (editOperations fuel running B .replace st).1 = setOpFailed r.1 := by
  rw [editOperations_replace_eq h hdone]

/-- `edit_operations` finishes if and only if, on the running datastore,
the root is handled. -/
theorem finishes_iff (running : Bool) (B : Backend σ) (defop : DefOp) (h : ConfigRoot st.edit) :
    Finishes running B defop st ↔ (running = true → RootEnds B defop st) := by
  by_cases hdefop : defop = .replace
  · subst hdefop
    simp only [RootEnds, if_true]
    -- a run that has ended gives the outcome
    have hran : ∀ {k r}, Loop.run (defaultReplaceRound running B) k st = some r →
        (editOperations k running B .replace st).1 ≠ .timeout := by
      intro k r hr
      obtain ⟨hne, hdone⟩ := run_replace_exit hr
      rw [editOperations_of_replace (docLoop_of_run hr) hdone, Ne, setOpFailed_eq_timeout]
      exact hne
    have hiff : Finishes running B .replace st ↔
        ∃ k r, Loop.run (defaultReplaceRound running B) k st = some r := by
      constructor
      · rintro ⟨fuel, hne⟩
        cases hr : Loop.run (defaultReplaceRound running B) fuel st with
        | some r => exact ⟨fuel, r, hr⟩
        | none =>
          have hdoc : docLoop fuel (defaultReplaceRound running B) st = (.timeout, st) := by
            rw [docLoop, hr, Option.getD_none]
          rw [editOperations_of_replace hdoc (by simp)] at hne
          exact absurd rfl hne
      · rintro ⟨k, r, hr⟩
        exact ⟨k, hran hr⟩
    rw [hiff]
    cases running with
    | false =>
      obtain ⟨r, hr⟩ := run_replace_xml B st
      exact ⟨fun _ => by simp, fun _ => ⟨_, r, hr⟩⟩
    | true =>
      rw [show st = ⟨st.orig, st.edit, st.world⟩ from rfl, run_replace_iff B h]
      simp
  · have hcond : RootEnds B defop st ↔ _ := iff_of_eq (if_neg hdefop)
    rw [hcond, ← deletePhases_ends_iff running B h]
    constructor
    · rintro ⟨fuel, hne⟩
      rw [editOperations_of_ne_replace hdefop, Ne, setOpFailed_eq_timeout] at hne
      exact ⟨fuel, (lastPhases_ne_timeout running B).mp (andThen_ne_timeout.mp hne).1⟩
    · rintro ⟨fuel, hne⟩
      -- room for the default merge, whose rounds are the nodes left at the top
      let rest := (lastPhases running B (deletePhases fuel running B st)).2.edit
      have hsame := deletePhases_mono (Nat.le_max_left fuel (rest.length + 1)) hne
      refine ⟨max fuel (rest.length + 1), ?_⟩
      rw [editOperations_of_ne_replace hdefop, Ne, setOpFailed_eq_timeout, hsame]
      refine andThen_ne_timeout.mpr ⟨(lastPhases_ne_timeout running B).mpr hne, fun hs => ?_⟩
      have hroot := lastPhases_configRoot running B (fun hs => deletePhases_configRoot h hs) hs
      split
      · exact docLoop_merge_ends hroot (Nat.le_max_right fuel (rest.length + 1))
      · simp

end OfConfig.Proofs
