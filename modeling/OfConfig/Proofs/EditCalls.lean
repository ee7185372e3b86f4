import OfConfig.Proofs.Atomicity
import OfConfig.Proofs.EditPaths

/-!
# `OfConfig.Proofs.EditCalls`: edit requests on a local datastore, path by path

The loops for the default operation (`defaultMerge_hasPaths`,
`defaultReplace_hasPaths`) and the five phases together:

* `editOperations_phases`: with another default than to replace,
  `edit_operations` goes through the phases and then merges the rest, if that is
  the default.
* `editOperations_replaces`: with the default to replace it leaves what was
  sent.
* `editLocal_stored`: however `ofcds_editconfig` ends on a local datastore, the
  document stays clean.
-/

set_option autoImplicit false

namespace OfConfig.Proofs

open OfConfig.Lib OfConfig.Xml OfConfig.Edit

/-! ### The root of what is sent -/

section

variable {D E : Doc}

/-- An edit document is empty or has one element at the top. -/
theorem sent_cases (hE : Sent E) : E = [] ∨ ∃ e, E = [e] ∧ e.label.isElement = true := by
  have hel : ∀ c ∈ E, c.label.isElement = true := fun c hc =>
    (hE.here.markup trivial c hc).resolve_right (by simp [(hE.here.top rfl c hc).1])
  have hid : ∀ c ∈ E, identAt [] c = some ⟨"capable-switch", none⟩ := by
    intro c hc
    have hname := (hE.here.top rfl c hc).2 (hel c hc)
    exact identAt_eq_some.mpr ⟨hel c hc, by simp [identOf, hname, keyName, comparesText]⟩
  cases E with
  | nil => exact .inl rfl
  | cons e E =>
    cases E with
    | nil => exact .inr ⟨e, rfl, hel e (by simp)⟩
    | cons f E =>
      have htidy := (List.pairwise_cons.mp hE.here.tidy).1 f (by simp)
      exact absurd (hid f (by simp)) (htidy _ (hid e (by simp)))

theorem placed_root {e : Node} (hE : Sent [e]) (hel : e.label.isElement = true) :
    Placed OfcNs e (Rose.ancestors e []) := by
  have hf : Rose.focus? [e] [0] = some (e, []) := by simp [Rose.focus?, Rose.focusIn]
  exact placed_of_focus hE hf hel

theorem nodePaths_root (e : Node) : nodePaths e [] = Shows [e] :=
  View.ext fun p _ => ⟨fun ⟨_, hp, hx⟩ => by rwa [show p = _ from hp], fun hx => ⟨p, rfl, hx⟩⟩

theorem not_keyPath_root {e : Node} (hname : e.label.name = "capable-switch") :
    ¬ KeyPath (chainIds [e]) := by
  rw [keyPath_chainIds]
  simp [isKey, hname]

theorem missing_nil (V : View Ident String) : View.union V (View.missing [] V) = V :=
  View.union_missing_of_has (fun _ hne hp => absurd (List.prefix_nil.mp hp) hne) V

/-- Everything in a datastore is below the root. -/
theorem without_root (hD : Stored D) {e : Node} (hname : e.label.name = "capable-switch")
    (p : List Ident) (x : Option String) : ¬ View.without (chainIds [e]) (Shows D) p x := by
  rintro ⟨hx, hp⟩
  cases p with
  | nil => exact Rose.Addressing.not_viewAt_nil hx
  | cons k p =>
    obtain ⟨c, hc, hk, -⟩ := hx
    obtain ⟨hel, rfl⟩ := identAt_eq_some.mp hk
    have hclean : Clean stored [] D := hD.here
    have hcname := (hclean.top rfl c hc).2 hel
    refine hp ⟨p, ?_⟩
    simp [chainIds, identOf, hname, hcname, keyName, comparesText]

end

/-! ### The default operations -/

section

variable {σ : Type} (fuel : Nat) (B : Backend σ) {D E : Doc} (s : σ)

/-- The root of what was sent is merged. -/
theorem editMerge_root {e : Node} (hD : Stored D) (hE : Sent [e]) (hel : e.label.isElement = true) :
    HasPaths (editMerge false B e [] D s).orig (View.overlay KeyPath (Shows D) (Shows [e])) ∧
      (editMerge false B e [] D s).left = none := by
  have hplaced := placed_root hE hel
  have hkey := not_keyPath_root (hplaced.root rfl)
  refine ⟨?_, ?_⟩
  · have h := editMerge_hasPaths B e [] D s hD hplaced
      (fun p hne hp => absurd (List.prefix_nil.mp hp) hne) hkey
    exact ⟨h.stored, h.paths.trans
      (congrArg₂ (View.overlay KeyPath) (missing_nil _) (nodePaths_root e))⟩
  · refine editMerge_left (.inl ?_) (editMerge_xml B e [] D s).1
    simp [isKey, hplaced.root rfl]

/-- The root of what was sent takes the place of the root. -/
theorem editReplace_root {e : Node} (hD : Stored D) (hE : Sent [e])
    (hel : e.label.isElement = true) :
    HasPaths (editReplace false B e [] D s).orig (Shows [e]) := by
  have hplaced := placed_root hE hel
  have hname := hplaced.root rfl
  have h := editReplace_hasPaths B s hD hplaced
    (fun p hne hp => absurd (List.prefix_nil.mp hp) hne) (not_keyPath_root hname)
  refine ⟨h.stored, h.paths.trans ((View.ext fun p x => ?_).trans (nodePaths_root e))⟩
  refine or_iff_right ?_
  rintro (hx | ⟨-, hne, hp, -⟩)
  · exact without_root hD hname p x hx
  · exact hne (List.prefix_nil.mp hp)

variable {round : EditState σ → Loop.Step (EditState σ) (Outcome × EditState σ)}
  {st st' : EditState σ}

theorem docLoop_exit (h : round st = .exit (.success, st)) :
    docLoop fuel round st = (.success, st) ∨ docLoop fuel round st = (.timeout, st) ∧ fuel < 2 := by
  cases fuel with
  | zero => exact .inr ⟨rfl, by omega⟩
  | succ k =>
    rw [docLoop, Loop.run_succ_exit h]
    exact .inl rfl

/-- A loop over a document with one element takes two rounds. -/
theorem docLoop_again (h : round st = .again st') (h' : round st' = .exit (.success, st')) :
    docLoop fuel round st = (.success, st') ∨
      docLoop fuel round st = (.timeout, st) ∧ fuel < 2 := by
  cases fuel with
  | zero => exact .inr ⟨rfl, by omega⟩
  | succ k =>
    rw [docLoop, Loop.run_succ_again h]
    cases k with
    | zero => exact .inr ⟨rfl, by omega⟩
    | succ k =>
      rw [Loop.run_succ_exit h']
      exact .inl rfl

/-- The default merge lays what was sent over the datastore, if the loop has
two rounds. -/
theorem defaultMerge_hasPaths (hD : Stored D) (hE : Sent E) :
    (∃ st', docLoop fuel (defaultMergeRound false B) ⟨D, E, s⟩ = (.success, st') ∧
      HasPaths st'.orig (View.overlay KeyPath (Shows D) (Shows E))) ∨
    docLoop fuel (defaultMergeRound false B) ⟨D, E, s⟩ = (.timeout, ⟨D, E, s⟩) ∧ fuel < 2 := by
  rcases sent_cases hE with rfl | ⟨e, rfl, hel⟩
  · refine (docLoop_exit fuel rfl).imp_left fun h => ⟨_, h, hD, (View.overlay_empty ?_).symm⟩
    exact fun p x => Rose.Addressing.not_viewAt_empty
  · obtain ⟨hpaths, hleft⟩ := editMerge_root B s hD hE hel
    have hout := (editMerge_xml B e [] D s).1
    have hround : defaultMergeRound false B ⟨D, [e], s⟩ =
        .again ⟨(editMerge false B e [] D s).orig, [], (editMerge false B e [] D s).world⟩ := by
      simp [defaultMergeRound, hout, hleft]
    exact (docLoop_again fuel hround rfl).imp_left fun h => ⟨_, h, hpaths⟩

/-- The default replace leaves what was sent, if the loop has two rounds. -/
theorem defaultReplace_hasPaths (hD : Stored D) (hE : Sent E) :
    (∃ st', docLoop fuel (defaultReplaceRound false B) ⟨D, E, s⟩ = (.success, st') ∧
      st'.edit = [] ∧ HasPaths st'.orig (if E = [] then Shows D else Shows E)) ∨
    docLoop fuel (defaultReplaceRound false B) ⟨D, E, s⟩ = (.timeout, ⟨D, E, s⟩) ∧ fuel < 2 := by
  rcases sent_cases hE with rfl | ⟨e, rfl, hel⟩
  · exact (docLoop_exit fuel rfl).imp_left fun h => ⟨_, h, rfl, hD, by simp⟩
  · have hpaths := editReplace_root B s hD hE hel
    obtain ⟨hout, hleft, hworld⟩ := editReplace_xml B e [] D s
    have hround : defaultReplaceRound false B ⟨D, [e], s⟩ =
        .again ⟨(editReplace false B e [] D s).orig, [], s⟩ := by
      simp [defaultReplaceRound, hout, hleft, hworld]
    exact (docLoop_again fuel hround rfl).imp_left fun h => ⟨_, h, rfl, by simpa using hpaths⟩

end

/-! ### `edit_operations` -/

/-- All phases, one after the other. -/
def EditView.Phases (V W : EditView) : Prop :=
  ∃ V₁ V₂ V₃ V₄, Phase .delete V V₁ ∧ Phase .remove V₁ V₂ ∧ Phase .replace V₂ V₃ ∧
    Phase .create V₃ V₄ ∧ Phase .merge V₄ W

/-- What the default operation makes of the rest of the request. -/
def EditView.finish (defop : DefOp) (V : EditView) : View Ident String :=
  if defop = .merge ∨ defop = .notset then View.overlay KeyPath V.store V.sent else V.store

section

variable {σ : Type} (fuel : Nat) (B : Backend σ) {defop : DefOp} {st : EditState σ}

theorem andThen_of_success {r : Outcome × EditState σ} (h : r.1 = .success)
    (f : EditState σ → Outcome × EditState σ) : andThen r f = f r.2 := by
  rw [andThen, h]

/-- One more phase, if what was before it succeeded. -/
theorem thenPhase_phase (op : EditOp) {r : Outcome × EditState σ} (hstored : Stored r.2.orig)
    (hedit : r.1 = .success → Editing r.2)
    (hmerge : op = .merge → r.1 = .success → ∀ q, ¬ OpAt r.2.edit .create q) :
    Stored (thenPhase fuel false B op r).2.orig ∧
      ((thenPhase fuel false B op r).1 = .success → r.1 = .success ∧
        Editing (thenPhase fuel false B op r).2 ∧
        Phase op (stateView r.2) (stateView (thenPhase fuel false B op r).2)) := by
  by_cases hr : r.1 = .success
  · have hthen : thenPhase fuel false B op r = opPhase op (phaseStep fuel false B op) r.2 :=
      andThen_of_success hr _
    rw [hthen]
    obtain ⟨h, hsucc⟩ := opPhase_phase fuel B (hedit hr) (fun ho => hmerge ho hr)
    exact ⟨h, fun hout => ⟨hr, hsucc hout⟩⟩
  · have hthen : thenPhase fuel false B op r = r := andThen_of_ne hr _
    rw [hthen]
    exact ⟨hstored, fun hout => absurd hout hr⟩

/-- `edit_operations` on a local datastore, unless the default is to replace:
the datastore stays clean, and a success means that all phases have been gone
through and the rest has been merged by default. -/
theorem editOperations_phases (h : Editing st) (hdef : defop ≠ .replace) :
    Stored (editOperations fuel false B defop st).2.orig ∧
      ((editOperations fuel false B defop st).1 = .success →
        ∃ W, (stateView st).Phases W ∧
          HasPaths (editOperations fuel false B defop st).2.orig (W.finish defop)) := by
  have h₀ : beforeDelete fuel false B defop st = (.success, st) := if_neg hdef
  obtain ⟨hs₁, he₁⟩ := thenPhase_phase fuel B .delete
    (r := (.success, st)) h.stored (fun _ => h) (by simp)
  obtain ⟨hs₂, he₂⟩ := thenPhase_phase fuel B .remove hs₁
    (fun hr => (he₁ hr).2.1) (by simp)
  obtain ⟨hs₃, he₃⟩ := thenPhase_phase fuel B .replace hs₂
    (fun hr => (he₂ hr).2.1) (by simp)
  obtain ⟨hs₄, he₄⟩ := thenPhase_phase fuel B .create hs₃
    (fun hr => (he₃ hr).2.1) (by simp)
  obtain ⟨hs₅, he₅⟩ := thenPhase_phase fuel B .merge hs₄
    (fun hr => (he₄ hr).2.1) (fun _ hr q => (he₄ hr).2.2.gone)
  rw [editOperations_eq, beforePhase, h₀]
  generalize hr₅ : thenPhase fuel false B .merge (thenPhase fuel false B .create
    (thenPhase fuel false B .replace (thenPhase fuel false B .remove
      (thenPhase fuel false B .delete (.success, st))))) = r₅ at hs₅ he₅
  by_cases hr : r₅.1 = .success
  · obtain ⟨hr₄, hedit, hph₅⟩ := he₅ hr
    obtain ⟨hr₃, -, hph₄⟩ := he₄ hr₄
    obtain ⟨hr₂, -, hph₃⟩ := he₃ hr₃
    obtain ⟨hr₁, -, hph₂⟩ := he₂ hr₂
    obtain ⟨-, -, hph₁⟩ := he₁ hr₁
    have hphases : (stateView st).Phases (stateView r₅.2) :=
      ⟨_, _, _, _, hph₁, hph₂, hph₃, hph₄, hph₅⟩
    rw [andThen_of_success hr]
    by_cases hmerge : defop = .merge ∨ defop = .notset
    · simp only [if_pos hmerge]
      rcases defaultMerge_hasPaths fuel B r₅.2.world hedit.stored hedit.sent
        with ⟨st', hrun, hpaths⟩ | ⟨hrun, -⟩
      · rw [hrun]
        exact ⟨hpaths.stored, fun _ => ⟨_, hphases, by rwa [EditView.finish, if_pos hmerge]⟩⟩
      · rw [hrun]
        exact ⟨hs₅, by simp [setOpFailed]⟩
    · simp only [if_neg hmerge]
      exact ⟨hs₅, fun _ => ⟨_, hphases, hs₅, by rw [EditView.finish, if_neg hmerge]; rfl⟩⟩
  · rw [andThen_of_ne hr]
    exact ⟨hs₅, fun hout => absurd ((setOpFailed_eq_success _).mp hout) hr⟩

end

/-! ### Checks and compaction -/

section

variable {D cfg edit : Doc} {noneCast : Option EditOp} {defop : DefOp}

theorem stored_nil : Stored [] := .intro clean_nil (by simp)

/-- The compaction changes no path, and adds no operation. -/
theorem compact_sent (hcfg : Sent cfg)
    (h : compactEditOperations noneCast defop cfg = some edit) :
    Sent edit ∧ Shows edit = Shows cfg ∧ ∀ o q, OpAt edit o q → OpAt cfg o q := by
  have hbare := compact_bare h
  have hsent : Sent edit := by
    rw [Sent, ← families_bare, hbare, families_bare]
    exact hcfg
  refine ⟨hsent, ?_, ?_⟩
  · rw [Shows, ← viewAt_bare, hbare, viewAt_bare]
  · intro o q hq
    obtain ⟨l, n, ctx, hf, hop, rfl⟩ := exists_focus_of_opAt hsent hq
    obtain ⟨m, hget, hel, hm⟩ := hasOp_of_compact h hop
    obtain ⟨ctx', hf'⟩ := Rose.exists_focus? hget
    rw [chainIds_congr (compact_chain h hf' hf)]
    exact opAt_of_focus hcfg hf' hel hm

/-- The check for `create` passes only when what is to be created is not there. -/
theorem not_present_of_check {mode : WdMode} {cfgds : Option Doc} (hD : Stored (cfgds.getD []))
    (hcfg : Sent cfg) (h : checkEditOps .create defop mode cfgds cfg = .success) {q : List Ident}
    (hq : OpAt cfg .create q) : ¬ Present (cfgds.getD []) q := by
  obtain ⟨l, n, ctx, hf, hop, rfl⟩ := exists_focus_of_opAt hcfg hq
  have hel : n.label.isElement = true := by
    obtain ⟨m, hget, hel, -⟩ := hop
    obtain rfl : m = n := Option.some.inj (hget.symm.trans (Rose.get?_of_focus? hf))
    exact hel
  cases cfgds with
  | none =>
    rintro ⟨x, hx⟩
    exact Rose.Addressing.not_viewAt_empty hx
  | some d =>
    have hnone := checkEditOps_create h hf hop
    exact not_present_of_find hD (placed_of_focus hcfg hf hel).named.matchesOfc hnone

end

/-! ### Requests -/

section

variable {σ : Type} (env : Setup) (B : Backend σ) {defop : DefOp} {cfgds : Option Doc} {cfg : Doc}
  (world : σ)

/-- A request that the engine carries out. -/
theorem editLocal_of_success {edit : Doc} {st' : EditState σ}
    (hcheck : checkRequest env defop cfgds cfg = .success)
    (hcompact : compactEditOperations env.noneCast defop cfg = some edit)
    (hrun : editOperations env.fuel false B defop ⟨cfgds.getD [], edit, world⟩ = (.success, st')) :
    (editLocal env B defop cfgds cfg world).1 = .success ∧
      (editLocal env B defop cfgds cfg world).2.getD [] = st'.orig := by
  simp only [editLocal, hcheck, hcompact, hrun]
  cases cfgds with
  | some d => exact ⟨rfl, rfl⟩
  | none =>
    refine ⟨rfl, ?_⟩
    dsimp only
    split
    · next hempty => simpa using (List.isEmpty_iff.mp hempty).symm
    · rfl

/-- A request ends as the engine does, or it changes nothing. -/
theorem editLocal_cases (defop : DefOp) (cfgds : Option Doc) (cfg : Doc) :
    ((editLocal env B defop cfgds cfg world).1 ≠ .success ∧
      (editLocal env B defop cfgds cfg world).2 = cfgds) ∨
    ∃ edit, checkRequest env defop cfgds cfg = .success ∧
      compactEditOperations env.noneCast defop cfg = some edit ∧
      (editLocal env B defop cfgds cfg world).1 =
        (editOperations env.fuel false B defop ⟨cfgds.getD [], edit, world⟩).1 ∧
      (editLocal env B defop cfgds cfg world).2.getD [] =
        (editOperations env.fuel false B defop ⟨cfgds.getD [], edit, world⟩).2.orig := by
  cases hcheck : checkRequest env defop cfgds cfg with
  | success =>
    cases hcompact : compactEditOperations env.noneCast defop cfg with
    | none =>
      rw [editLocal, hcheck, hcompact]
      exact .inl ⟨by simp, rfl⟩
    | some edit =>
      by_cases hr : (editOperations env.fuel false B defop ⟨cfgds.getD [], edit, world⟩).1 =
          .success
      · obtain ⟨hout, hdoc⟩ := editLocal_of_success env B world hcheck hcompact
          (Prod.ext hr rfl)
        exact .inr ⟨edit, rfl, rfl, hout.trans hr.symm, hdoc⟩
      · cases cfgds with
        | some d =>
          rw [editLocal, hcheck, hcompact]
          exact .inr ⟨edit, rfl, rfl, rfl, rfl⟩
        | none =>
          rw [editLocal, hcheck, hcompact]
          refine .inl ?_
          dsimp only
          split
          · next hsucc => exact absurd hsucc hr
          · exact ⟨hr, rfl⟩
  | failure e =>
    rw [editLocal, hcheck]
    exact .inl ⟨by simp, rfl⟩
  | crash =>
    rw [editLocal, hcheck]
    exact .inl ⟨by simp, rfl⟩
  | timeout =>
    rw [editLocal, hcheck]
    exact .inl ⟨by simp, rfl⟩

/-- The engine can work on an orderly request that has passed the checks. -/
theorem editing_of_check {edit : Doc} (hD : Stored (cfgds.getD [])) (hcfg : Sent cfg)
    (horder : Orderly (viewOf (cfgds.getD []) cfg))
    (hcheck : checkRequest env defop cfgds cfg = .success)
    (hcompact : compactEditOperations env.noneCast defop cfg = some edit) :
    Editing (⟨cfgds.getD [], edit, world⟩ : EditState σ) := by
  obtain ⟨hsent, -, hops⟩ := compact_sent hcfg hcompact
  refine ⟨hD, hsent, ⟨fun o q hq => horder.keys o q (hops o q hq), ?_, ?_⟩, ?_⟩
  · exact fun q hq => horder.covered q (hq.imp (hops _ q) (Or.imp (hops _ q) (hops _ q)))
  · exact fun q r hq hr => horder.above q r (hops _ q hq) (hr.imp (hops _ r) (hops _ r))
  · exact fun q hq => not_present_of_check hD hcfg (checkRequest_success hcheck).2.2 (hops _ q hq)

/-- With the default to replace, the datastore becomes what was sent, if the
loop has two rounds. -/
theorem editOperations_replaces (fuel : Nat) {D edit : Doc} (hD : Stored D) (hE : Sent edit) :
    ((editOperations fuel false B .replace ⟨D, edit, world⟩).1 = .success ∧
      HasPaths (editOperations fuel false B .replace ⟨D, edit, world⟩).2.orig
        (if edit = [] then Shows D else Shows edit)) ∨
    (editOperations fuel false B .replace ⟨D, edit, world⟩).1 ≠ .success ∧
      (editOperations fuel false B .replace ⟨D, edit, world⟩).2.orig = D ∧ fuel < 2 := by
  rcases defaultReplace_hasPaths fuel B world hD hE with
    ⟨st', hrun, hnil, hpaths⟩ | ⟨hrun, hfuel⟩
  · rw [editOperations_replace_eq hrun (fun _ => hnil)]
    exact .inl ⟨rfl, hpaths⟩
  · rw [editOperations_replace_eq hrun (by simp)]
    exact .inr ⟨by simp [setOpFailed], rfl, hfuel⟩

/-- However a request ends, the datastore stays clean. -/
theorem editLocal_stored (hD : Stored (cfgds.getD [])) (hcfg : Sent cfg)
    (horder : defop ≠ .replace → Orderly (viewOf (cfgds.getD []) cfg)) :
    Stored ((editLocal env B defop cfgds cfg world).2.getD []) := by
  rcases editLocal_cases env B world defop cfgds cfg with ⟨-, hsame⟩ |
    ⟨edit, hcheck, hcompact, -, horig⟩
  · rwa [hsame]
  · rw [horig]
    by_cases hdef : defop = .replace
    · subst hdef
      rcases editOperations_replaces B world env.fuel hD (compact_sent hcfg hcompact).1
        with ⟨-, hpaths⟩ | ⟨-, hsame, -⟩
      · exact hpaths.stored
      · rwa [hsame]
    · exact (editOperations_phases env.fuel B
        (editing_of_check env world hD hcfg (horder hdef) hcheck hcompact) hdef).1

end

end OfConfig.Proofs
