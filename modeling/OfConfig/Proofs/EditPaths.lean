import Mathlib.Data.List.Infix
import OfConfig.Proofs.Consumed
import OfConfig.Proofs.MergePaths

/-!
# `OfConfig.Proofs.EditPaths`: the phases of an edit, path by path

A document that is sent to a local datastore is seen as the paths it contains,
with their texts and operations, and the datastore as its paths (`EditView`).
`EditView.apply` is what an operation means on that level: `delete` and
`remove` cut the path off, `replace` and `create` write what was sent, `merge`
lays it over. A phase applies its operation as long as there is a path with it
(`Phase`).

* `findElementEquiv_exact`: the search in the datastore finds the one element
  at the path of the edit node.
* `phaseStep_hasPaths`: an operation of the engine writes what
  `EditView.apply` says.
* `opPhase_phase`: a phase of the engine that succeeds is a `Phase`, and what it
  leaves behind is clean in any case.

`Orderly` is what is asked of a request. The engine checks none of it.
-/

set_option autoImplicit false

namespace OfConfig.Proofs

open OfConfig.Lib OfConfig.Xml OfConfig.Edit OfConfig.Ovs

/-! ### Edit documents -/

/-- A clean edit document with the OF-CONFIG namespace. -/
abbrev Sent (E : Doc) : Prop := Rose.Families (Clean ⟨OfcNs, True⟩) [] E

theorem sent_of_check {E : Doc} (depth : Nat)
    (h : Rose.checkFamilies (Clean ⟨OfcNs, True⟩) depth [] E = true) : Sent E :=
  Rose.Families.of_check depth h

/-- The operations of the elements. -/
abbrev operations : Aspect (Option String) :=
  ⟨fun n => opAttr n.label, fun _ _ h _ => congrArg opAttr h⟩

/-- Edit documents, with the operations of the elements. -/
abbrev opDocs : Rose.Addressing Label Ident (Option String) := docs ⟨OfcNs, True⟩ operations

/-- The path leads to an element with the operation. -/
def OpAt (E : Doc) (op : EditOp) (q : List Ident) : Prop :=
  opDocs.ViewAt [] E q (some (opString op))

section

variable {E : Doc} {l : Loc} {n : Node} {ctx : List (Rose.Frame Label)}

theorem placed_of_focus (hE : Sent E) (hf : Rose.focus? E l = some (n, ctx))
    (hel : n.label.isElement = true) : Placed OfcNs n (Rose.ancestors n ctx) where
  named := named_of_focus hE hf hel
  below := by
    have h := hE.focus hf
    rwa [List.map_cons, Rose.map_label_ancestors]
  root := by
    intro hnil
    cases ctx with
    | cons f ctx => simp [Rose.chain_eq] at hnil
    | nil =>
      have hlen := Rose.length_of_focus? hf
      obtain ⟨i, rfl⟩ := List.length_eq_one_iff.mp hlen.symm
      have hget := Rose.get?_of_focus? hf
      cases hi : E[i]? with
      | none => simp [Rose.get?, hi] at hget
      | some m =>
        obtain rfl : m = n := by simpa [Rose.get?, Rose.getIn, hi] using hget
        exact (hE.here.top rfl m (List.mem_of_getElem? hi)).2 hel

/-- `find_element_equiv` finds an element exactly when the path of the edit node
leads to one, and it finds the only position with that path. -/
theorem findElementEquiv_exact {D : Doc} (hD : Stored D) (hE : Sent E)
    (hf : Rose.focus? E l = some (n, ctx)) (hel : n.label.isElement = true) :
    ((findElementEquiv D (Rose.chain n ctx)).isSome = true ↔
      Present D (chainIds (Rose.chain n ctx))) ∧
    ∀ f, findElementEquiv D (Rose.chain n ctx) = some f → ∀ l',
      storedDocs.idsTo [] D l' = some (chainIds (Rose.chain n ctx)) ↔ l' = f.loc := by
  have hnamed : Named MatchesOfc (n :: Rose.ancestors n ctx) :=
    (placed_of_focus hE hf hel).named.matchesOfc
  have hchain : Rose.chain n ctx = n :: Rose.ancestors n ctx := rfl
  rw [hchain]
  refine ⟨?_, fun f hfound l' => ⟨fun hl' => ?_, ?_⟩⟩
  · cases hfound : findElementEquiv D (n :: Rose.ancestors n ctx) with
    | none => simpa using not_present_of_find hD hnamed hfound
    | some f => simpa using present_of_find hD hnamed hfound
  · exact Rose.Addressing.idsTo_inj hD hl' (find_some hD hnamed hfound)
  · rintro rfl
    exact find_some hD hnamed hfound

/-- A port with its number. -/
def ofcPort (name number : String) (op : Option EditOp) : Node :=
  ofcElem "port" op
    [ofcElem "name" none [txt name], ofcElem "requested-number" none [txt number]]

/-- A capable-switch with the given ports. -/
def ofcSwitch (ports : List Node) : Doc :=
  [ofcElem "capable-switch" none [ofcElem "resources" none ports]]

/-- The second of two ports is found by its name. -/
theorem findElementEquiv_exact_port :
    let D := ofcSwitch [ofcPort "eth0" "1" none, ofcPort "eth1" "2" none]
    let chain := [ofcPort "eth1" "3" none, ofcElem "resources" none [ofcPort "eth1" "3" none],
      ofcElem "capable-switch" none [ofcElem "resources" none [ofcPort "eth1" "3" none]]]
    (findElementEquiv D chain).map Found.loc = some [0, 0, 1] ∧
      Present D [⟨"capable-switch", none⟩, ⟨"resources", none⟩, ⟨"port", some "eth1"⟩] := by
  intro D chain
  refine ⟨by decide +kernel, ?_⟩
  have hD : Stored D := stored_of_check 6 (by decide)
  have hE : Sent (ofcSwitch [ofcPort "eth1" "3" none]) := sent_of_check 6 (by decide)
  exact (findElementEquiv_exact hD hE (l := [0, 0, 0]) rfl rfl).1.mp (by decide +kernel)

/-- The kind of the documents plays no role in paths. -/
theorem shows_sent : Shows E = (docs ⟨OfcNs, True⟩ texts).ViewAt [] E :=
  View.ext fun _ _ => viewAt_congr rfl

/-- The paths of a node of the edit document are those that go through it. -/
theorem nodePaths_of_focus (hE : Sent E) (hf : Rose.focus? E l = some (n, ctx))
    (hel : n.label.isElement = true) :
    nodePaths n (Rose.ancestors n ctx) = View.within (chainIds (Rose.chain n ctx)) (Shows E) := by
  have hself := viewAt_of_focus (A := texts) hE hf hel
  have hids := idsTo_of_focus (A := texts) hE hf hel
  have hbelow := Rose.Addressing.regrown_of_focus hf hids id
  have hlabels : (n :: Rose.ancestors n ctx).map Rose.label = Rose.path n ctx :=
    Rose.map_label_chain n ctx
  rw [nodePaths_eq hel, hlabels, shows_sent]
  refine View.ext fun p x => ⟨?_, ?_⟩
  · rintro (⟨rfl, rfl⟩ | ⟨r, rfl, hr⟩)
    · exact ⟨hself, List.prefix_refl _⟩
    · have hne : r ≠ [] := by
        rintro rfl
        exact Rose.Addressing.not_viewAt_nil hr
      exact ⟨(hbelow.viewAt_children hE hne).mpr ((viewAt_congr rfl).mp hr), List.prefix_append _ _⟩
  · rintro ⟨hx, r, rfl⟩
    by_cases hne : r = []
    · subst hne
      rw [List.append_nil] at hx ⊢
      exact .inl ⟨rfl, Rose.Addressing.viewAt_unique hE hx hself⟩
    · exact .inr ⟨r, rfl, (viewAt_congr rfl).mp ((hbelow.viewAt_children hE hne).mp hx)⟩

theorem not_entryKey_of_keyPath (h : ¬ KeyPath (chainIds (Rose.chain n ctx))) :
    ¬ EntryKey (ctx.map Rose.Frame.label) n.label.name := by
  intro hentry
  have hk := isKey_of_entryKey hentry
  rw [← Rose.map_label_ancestors n, ← keyPath_chainIds] at hk
  exact h hk

/-- An element that is no key is taken out of the edit document. -/
theorem unlink_sent (hE : Sent E) (hf : Rose.focus? E l = some (n, ctx))
    (hel : n.label.isElement = true) (hkey : ¬ KeyPath (chainIds (Rose.chain n ctx))) :
    Sent (Rose.unlink l E) ∧
      Shows (Rose.unlink l E) = View.without (chainIds (Rose.chain n ctx)) (Shows E) ∧
      ∀ op q, OpAt (Rose.unlink l E) op q ↔
        OpAt E op q ∧ ¬ chainIds (Rose.chain n ctx) <+: q := by
  have hentry := not_entryKey_of_keyPath hkey
  obtain ⟨hsent, htexts⟩ := unlink_clean (A := texts) hE hf hel hentry
  obtain ⟨-, hops⟩ := unlink_clean (A := operations) hE hf hel hentry
  refine ⟨hsent, ?_, fun op q => hops q _⟩
  rw [shows_sent, shows_sent]
  exact View.ext htexts

theorem opAt_of_focus (hE : Sent E) (hf : Rose.focus? E l = some (n, ctx))
    (hel : n.label.isElement = true) {op : EditOp} (hop : opAttr n.label = some (opString op)) :
    OpAt E op (chainIds (Rose.chain n ctx)) := by
  have h := viewAt_of_focus (A := operations) hE hf hel
  rw [OpAt, ← hop]
  exact h

/-- A path with an operation is that of an element with it. -/
theorem exists_focus_of_opAt (hE : Sent E) {op : EditOp} {q : List Ident} (h : OpAt E op q) :
    ∃ l n ctx, Rose.focus? E l = some (n, ctx) ∧ HasOp op E l ∧
      q = chainIds (Rose.chain n ctx) := by
  obtain ⟨l, n, la, k, hget, hids, hk, hview⟩ := Rose.Addressing.exists_get_of_viewAt h
  have hel := (identAt_eq_some.mp hk).1
  obtain ⟨ctx, hf⟩ := Rose.exists_focus? hget
  have hids' := idsTo_of_focus (A := operations) hE hf hel
  exact ⟨l, n, ctx, hf, ⟨n, hget, hel, hview⟩, Option.some.inj (hids.symm.trans hids')⟩

end

/-! ### What an operation means -/

/-- A datastore and an edit document as sets of paths. -/
structure EditView where
  store : View Ident String
  sent : View Ident String
  op : EditOp → List Ident → Prop

/-- The two documents of `edit_operations`. -/
def viewOf (D E : Doc) : EditView := ⟨Shows D, Shows E, OpAt E⟩

/-- The datastore after the operation on a path. -/
def EditView.write (V : EditView) (q : List Ident) : EditOp → View Ident String
  | .delete => View.without q V.store
  | .remove => View.without q V.store
  | .replace => View.union (View.union (View.without q V.store) (View.missing q.dropLast V.store))
      (View.within q V.sent)
  | .create => View.union (View.union V.store (View.missing q.dropLast V.store))
      (View.within q V.sent)
  | .merge => View.overlay KeyPath (View.union V.store (View.missing q.dropLast V.store))
      (View.within q V.sent)

/-- An operation writes the datastore and takes its path out of what was sent. -/
def EditView.apply (V : EditView) (op : EditOp) (q : List Ident) : EditView where
  store := V.write q op
  sent := View.without q V.sent
  op o p := V.op o p ∧ ¬ q <+: p

/-- A phase: its operation is applied until there is no path left with it. -/
inductive Phase (op : EditOp) : EditView → EditView → Prop where
  | done {V : EditView} (h : ∀ q, ¬ V.op op q) : Phase op V V
  | next {V W : EditView} {q : List Ident} (hq : V.op op q) (h : Phase op (V.apply op q) W) :
      Phase op V W

/-- What is asked of a request: no operation is on a key, the entries and items
above what is written are there, and there is nothing to create or to replace
below what is created. -/
structure Orderly (V : EditView) : Prop where
  keys : ∀ o q, V.op o q → ¬ KeyPath q
  covered : ∀ q, V.op .create q ∨ V.op .replace q ∨ V.op .merge q → ∀ p, p ≠ [] →
    p <+: q.dropLast → View.Has V.store p ∨ Hollow p
  above : ∀ q r, V.op .create q → V.op .create r ∨ V.op .replace r → q <+: r → q = r

/-- Then the engine can work on it, once it is known that what is to be created
is not there. -/
structure Ready (V : EditView) : Prop extends Orderly V where
  fresh : ∀ q, V.op .create q → ¬ View.Has V.store q

/-- The paths with an operation. -/
def opPaths (E : Doc) (op : EditOp) : List (List Ident) :=
  (getOperationElements op E).filterMap (opDocs.idsTo [] E)

theorem mem_opPaths {E : Doc} (hE : Sent E) {op : EditOp} {q : List Ident} (h : OpAt E op q) :
    q ∈ opPaths E op := by
  obtain ⟨l, n, ctx, hf, ⟨m, hget, hel, hop⟩, rfl⟩ := exists_focus_of_opAt hE h
  obtain rfl : m = n := Option.some.inj (hget.symm.trans (Rose.get?_of_focus? hf))
  exact List.mem_filterMap.mpr ⟨l, (mem_getOperationElements op E l).mpr ⟨m, hget, hel, hop⟩,
    idsTo_of_focus hE hf hel⟩

/-- A request that can be seen to be orderly, for any datastore: nothing that is
written needs an entry above it. -/
def checkOrderly (E : Doc) : Bool :=
  decide ((∀ o ∈ [EditOp.delete, .remove, .replace, .create, .merge], ∀ q ∈ opPaths E o,
      ¬ KeyPath q) ∧
    (∀ o ∈ [EditOp.create, .replace, .merge], ∀ q ∈ opPaths E o, ∀ p ∈ q.dropLast.inits,
      p ≠ [] → Hollow p) ∧
    ∀ o ∈ [EditOp.create, .replace], ∀ q ∈ opPaths E .create, ∀ r ∈ opPaths E o,
      q <+: r → q = r)

theorem orderly_of_check {D E : Doc} (hE : Sent E) (h : checkOrderly E = true) :
    Orderly (viewOf D E) := by
  obtain ⟨hkeys, hcovered, habove⟩ := of_decide_eq_true h
  refine ⟨fun o q hq => hkeys o (by cases o <;> simp) q (mem_opPaths hE hq), ?_, ?_⟩
  · rintro q hq p hne hp
    have hin : p ∈ q.dropLast.inits := (List.mem_inits _ _).mpr hp
    rcases hq with hq | hq | hq
    · exact .inr (hcovered .create (by simp) q (mem_opPaths hE hq) p hin hne)
    · exact .inr (hcovered .replace (by simp) q (mem_opPaths hE hq) p hin hne)
    · exact .inr (hcovered .merge (by simp) q (mem_opPaths hE hq) p hin hne)
  · rintro q r hq (hr | hr) hqr
    · exact habove .create (by simp) q (mem_opPaths hE hq) r (mem_opPaths hE hr) hqr
    · exact habove .replace (by simp) q (mem_opPaths hE hq) r (mem_opPaths hE hr) hqr

/-! ### A request stays ready -/

section

variable {V W : EditView} {o op : EditOp} {p q : List Ident}

/-- What is not at the path of the operation nor below it stays. -/
theorem has_write (hp : View.Has V.store p) (hq : ¬ q <+: p) : View.Has (V.write q o) p := by
  have hwithout : View.Has (View.without q V.store) p := (View.has_without hq).mpr hp
  cases o with
  | delete => exact hwithout
  | remove => exact hwithout
  | replace => exact View.has_union.mpr (.inl (View.has_union.mpr (.inl hwithout)))
  | create => exact View.has_union.mpr (.inl (View.has_union.mpr (.inl hp)))
  | merge =>
    refine (View.has_overlay ?_).mpr (View.has_union.mpr (.inl hp))
    rintro r x hr ⟨-, hqr⟩
    exact hq (hqr.trans hr)

/-- What is not there stays so, unless it is on the path of the operation. -/
theorem not_has_write (ho : o ≠ .merge) (hp : ¬ View.Has V.store p) (hq : ¬ q <+: p)
    (habove : o = .create ∨ o = .replace → ¬ p <+: q) : ¬ View.Has (V.write q o) p := by
  have hwithout : ¬ View.Has (View.without q V.store) p := by rwa [View.has_without hq]
  have hmissing : ¬ p <+: q → ¬ View.Has (View.missing q.dropLast V.store) p := fun h =>
    View.not_has_missing fun hp => h (hp.trans (List.dropLast_prefix q))
  have hwithin : ¬ View.Has (View.within q V.sent) p := fun ⟨_, _, h⟩ => hq h
  cases o with
  | delete => exact hwithout
  | remove => exact hwithout
  | replace =>
    rw [EditView.write, View.has_union, View.has_union]
    rintro ((h | h) | h)
    · exact hwithout h
    · exact hmissing (habove (.inr rfl)) h
    · exact hwithin h
  | create =>
    rw [EditView.write, View.has_union, View.has_union]
    rintro ((h | h) | h)
    · exact hp h
    · exact hmissing (habove (.inl rfl)) h
    · exact hwithin h
  | merge => exact absurd rfl ho

/-- Every operation leaves the rest of the request ready. -/
theorem Ready.apply (h : Ready V) (hq : V.op op q)
    (hmerge : op = .merge → ∀ r, ¬ V.op .create r) : Ready (V.apply op q) where
  keys := fun o r hr => h.keys o r hr.1
  covered := by
    intro r hr p hne hp
    have hVr : (V.op .create r ∨ V.op .replace r ∨ V.op .merge r) ∧ ¬ q <+: r := by
      rcases hr with hr | hr | hr
      · exact ⟨.inl hr.1, hr.2⟩
      · exact ⟨.inr (.inl hr.1), hr.2⟩
      · exact ⟨.inr (.inr hr.1), hr.2⟩
    refine (h.covered r hVr.1 p hne hp).imp_left fun hhas => has_write hhas fun hqp => ?_
    exact hVr.2 ((hqp.trans hp).trans (List.dropLast_prefix r))
  fresh := by
    rintro r ⟨hr, hqr⟩
    have hop : op ≠ .merge := fun heq => hmerge heq r hr
    refine not_has_write hop (h.fresh r hr) hqr fun hcr hrq => hqr ?_
    -- a create above would be the operation itself
    have heq : r = q := by
      refine h.above r q hr ?_ hrq
      rcases hcr with rfl | rfl
      · exact .inl hq
      · exact .inr hq
    rw [heq]
  above := fun q' r hq' hr =>
    h.above q' r hq'.1 (hr.imp And.left And.left)

/-- What was sent shrinks. -/
theorem Phase.op_subset (h : Phase op V W) : W.op o q → V.op o q := by
  induction h with
  | done => exact id
  | next _ _ ih => exact fun hW => (ih hW).1

theorem Phase.gone (h : Phase op V W) : ¬ W.op op q := by
  induction h with
  | done h => exact h q
  | next _ _ ih => exact ih

/-- Without its operation a phase does nothing. -/
theorem Phase.eq_of_none (h : Phase op V W) (hnone : ∀ q, ¬ V.op op q) : W = V := by
  cases h with
  | done => rfl
  | next hq => exact absurd hq (hnone _)

/-- What a phase leaves of the request is not at a path with the operation nor
below one. -/
theorem Phase.op_iff (h : Phase op V W) {r : List Ident} :
    W.op o r ↔ V.op o r ∧ ∀ q, V.op op q → ¬ q <+: r := by
  induction h with
  | done hnone => exact ⟨fun hr => ⟨hr, fun q hq => absurd hq (hnone q)⟩, And.left⟩
  | @next V W q hq _ ih =>
    rw [ih]
    constructor
    · rintro ⟨⟨hr, hqr⟩, hrest⟩
      refine ⟨hr, fun q' hq' hq'r => ?_⟩
      by_cases hqq : q <+: q'
      · exact hqr (hqq.trans hq'r)
      · exact hrest q' ⟨hq', hqq⟩ hq'r
    · rintro ⟨hr, hall⟩
      exact ⟨⟨hr, hall q hq⟩, fun q' hq' => hall q' hq'.1⟩

/-- The two phases that delete cut off every path with their operation. -/
theorem Phase.cut (h : Phase op V W) (hop : op = .delete ∨ op = .remove) {x : Option String} :
    W.store p x ↔ V.store p x ∧ ∀ q, V.op op q → ¬ q <+: p := by
  have hwrite : ∀ (U : EditView) q, U.write q op = View.without q U.store := by
    rcases hop with rfl | rfl <;> exact fun _ _ => rfl
  induction h with
  | done hnone => exact ⟨fun hr => ⟨hr, fun q hq => absurd hq (hnone q)⟩, And.left⟩
  | @next V W q hq _ ih =>
    have hstore : (V.apply op q).store = View.without q V.store := hwrite V q
    refine ih.trans ?_
    rw [hstore]
    constructor
    · rintro ⟨⟨hx, hqp⟩, hrest⟩
      refine ⟨hx, fun q' hq' hq'p => ?_⟩
      by_cases hqq : q <+: q'
      · exact hqp (hqq.trans hq'p)
      · exact hrest q' ⟨hq', hqq⟩ hq'p
    · rintro ⟨hx, hall⟩
      exact ⟨⟨hx, hall q hq⟩, fun q' hq' => hall q' hq'.1⟩

end

/-! ### One operation of the engine -/

section

variable {σ : Type} {fuel : Nat} {B : Backend σ} {op : EditOp} {D E : Doc} {l : Loc} {n : Node}
  {ctx : List (Rose.Frame Label)} {s : σ}

theorem dropLast_chainIds (e : Node) (anc : List Node) :
    (chainIds (e :: anc)).dropLast = chainIds anc := by
  simp [chainIds]

/-- An operation writes the datastore as it should. -/
theorem phaseStep_hasPaths (hD : Stored D) (hE : Sent E) (hready : Ready (viewOf D E))
    (hf : Rose.focus? E l = some (n, ctx)) (hel : n.label.isElement = true)
    (hop : opAttr n.label = some (opString op))
    (hout : (phaseStep fuel false B op n ctx D s).out = .success) :
    HasPaths (phaseStep fuel false B op n ctx D s).orig
      ((viewOf D E).write (chainIds (Rose.chain n ctx)) op) := by
  have hplaced := placed_of_focus hE hf hel
  have hopAt : (viewOf D E).op op (chainIds (Rose.chain n ctx)) := opAt_of_focus hE hf hel hop
  have hkey := hready.keys op _ hopAt
  have hpaths := nodePaths_of_focus hE hf hel
  have hdrop : (chainIds (Rose.chain n ctx)).dropLast = chainIds (Rose.ancestors n ctx) :=
    dropLast_chainIds n _
  have hcov : op = .create ∨ op = .replace ∨ op = .merge →
      Covered D (chainIds (Rose.ancestors n ctx)) := by
    intro ho p hne hp
    rw [← hdrop] at hp
    refine hready.covered _ ?_ p hne hp
    rcases ho with rfl | rfl | rfl
    · exact .inl hopAt
    · exact .inr (.inl hopAt)
    · exact .inr (.inr hopAt)
  have hremove : (editRemove fuel false B n ctx D s).out = .success →
      HasPaths (editRemove fuel false B n ctx D s).orig
        (View.without (chainIds (Rose.chain n ctx)) (Shows D)) := fun hout =>
    deleteAll_hasPaths B fuel s hD hplaced.named.matchesOfc hkey hout
  cases op with
  | delete =>
    simp only [phaseStep, editDeleteOp] at hout ⊢
    split at hout
    · simp at hout
    · exact hremove hout
  | remove => exact hremove hout
  | replace =>
    have h := editReplace_hasPaths B s hD hplaced (hcov (.inr (.inl rfl))) hkey
    rwa [hpaths, ← hdrop] at h
  | create =>
    have h := editCreate_hasPaths B s hD hplaced (hcov (.inl rfl)) (hready.fresh _ hopAt)
    rwa [hpaths, ← hdrop] at h
  | merge =>
    have h := editMerge_hasPaths B n ctx D s hD hplaced (hcov (.inr (.inr rfl))) hkey
    rwa [hpaths, ← hdrop] at h

/-- It takes its node out of the edit document. -/
theorem phaseStep_left (hkey : ¬ KeyPath (chainIds (Rose.chain n ctx)))
    (hout : (phaseStep fuel false B op n ctx D s).out = .success) :
    (phaseStep fuel false B op n ctx D s).left = none := by
  by_cases hop : op = .merge
  · subst hop
    refine editMerge_left (.inl ?_) hout
    rw [Rose.chain_eq, keyPath_chainIds, ← nameAt_eq] at hkey
    simpa using hkey
  · exact unlinks_phaseStep hop n ctx D s hout

/-- An operation that does not succeed leaves the datastore alone. -/
theorem phaseStep_stuck (hout : (phaseStep fuel false B op n ctx D s).out ≠ .success) :
    (phaseStep fuel false B op n ctx D s).orig = D := by
  have hremove : (editRemove fuel false B n ctx D s).out ≠ .success →
      (editRemove fuel false B n ctx D s).orig = D := by
    intro hout
    simp only [editRemove, deleteAll] at hout ⊢
    cases hrun : Loop.run (deleteRound false B (Rose.chain n ctx)) fuel (D, s) with
    | none => rfl
    | some r =>
      refine absurd ?_ hout
      rw [hrun]
      refine Loop.run_induct (fun _ => True) (fun r => r.1 = .success)
        (fun _ _ _ _ => trivial) ?_ trivial hrun
      intro st r _ hround
      simp only [deleteRound, editDeleteAt_xml] at hround
      split at hround
      · cases hround
        rfl
      · simp at hround
  cases op with
  | delete =>
    simp only [phaseStep, editDeleteOp] at hout ⊢
    split
    · rfl
    · next f hf =>
        rw [hf] at hout
        exact hremove hout
  | remove => exact hremove hout
  | replace => exact absurd (editReplace_xml B n ctx D s).1 hout
  | create => exact absurd (editCreate_xml B n ctx D s).1 hout
  | merge => exact absurd (editMerge_xml B n ctx D s).1 hout

end

/-! ### A phase of the engine -/

section

variable {σ : Type} {fuel : Nat} {B : Backend σ} {op : EditOp}

/-- The documents of `edit_operations` as sets of paths. -/
abbrev stateView (st : EditState σ) : EditView := viewOf st.orig st.edit

/-- The documents of `edit_operations` between two operations. -/
structure Editing (st : EditState σ) : Prop where
  stored : Stored st.orig
  sent : Sent st.edit
  ready : Ready (stateView st)

/-- An operation that succeeds is one step of its phase. -/
theorem Editing.step {st : EditState σ} (h : Editing st) {l : Loc} {n : Node}
    {ctx : List (Rose.Frame Label)} (hf : Rose.focus? st.edit l = some (n, ctx))
    (hel : n.label.isElement = true) (hop : opAttr n.label = some (opString op))
    (hmerge : op = .merge → ∀ r, ¬ OpAt st.edit .create r)
    (hout : (phaseStep fuel false B op n ctx st.orig st.world).out = .success) :
    Editing (afterStep st l (phaseStep fuel false B op n ctx st.orig st.world)) ∧
      ∃ q, OpAt st.edit op q ∧
        stateView (afterStep st l (phaseStep fuel false B op n ctx st.orig st.world)) =
          (stateView st).apply op q := by
  have hopAt := opAt_of_focus h.sent hf hel hop
  have hkey := h.ready.keys op _ hopAt
  have hpaths := phaseStep_hasPaths h.stored h.sent h.ready hf hel hop hout
  have hedit : (afterStep st l (phaseStep fuel false B op n ctx st.orig st.world)).edit =
      Rose.unlink l st.edit := edit_afterStep_unlinked (phaseStep_left hkey hout)
  obtain ⟨hsent, htexts, hops⟩ := unlink_sent h.sent hf hel hkey
  have hview : stateView (afterStep st l (phaseStep fuel false B op n ctx st.orig st.world)) =
      (stateView st).apply op (chainIds (Rose.chain n ctx)) := by
    rw [stateView, viewOf, hedit, htexts, EditView.apply]
    congr 1
    · exact hpaths.paths
    · funext o q
      exact propext (hops o q)
  refine ⟨⟨hpaths.stored, ?_, ?_⟩, _, hopAt, hview⟩
  · rw [hedit]
    exact hsent
  · rw [hview]
    exact h.ready.apply hopAt hmerge

/-- A phase of the engine on a local datastore: the datastore stays clean, and
when the phase succeeds it has applied its operation to every path with it. -/
theorem opPhase_phase (fuel : Nat) (B : Backend σ) {st : EditState σ} (h : Editing st)
    (hmerge : op = .merge → ∀ r, ¬ OpAt st.edit .create r) :
    Stored (opPhase op (phaseStep fuel false B op) st).2.orig ∧
      ((opPhase op (phaseStep fuel false B op) st).1 = .success →
        Editing (opPhase op (phaseStep fuel false B op) st).2 ∧
        Phase op (stateView st) (stateView (opPhase op (phaseStep fuel false B op) st).2)) := by
  refine phaseLoop_induct
    (fun removed ls st' => Tracked op removed ls st'.edit ∧ Pending op removed ls st'.edit ∧
      Editing st' ∧ (op = .merge → ∀ r, ¬ OpAt st'.edit .create r) ∧
      ∀ W, Phase op (stateView st') W → Phase op (stateView st) W)
    (fun r => Stored r.2.orig ∧ (r.1 = .success →
      Editing r.2 ∧ Phase op (stateView st) (stateView r.2)))
    ?_ ?_ ?_ ?_ ⟨tracked_start op st.edit, pending_start op st.edit, h, hmerge, fun _ h => h⟩
  · rintro removed st' ⟨-, hpending, hedit, -, hphase⟩
    refine ⟨hedit.stored, fun _ => ⟨hedit, hphase _ (.done fun q hq => ?_)⟩⟩
    obtain ⟨l', -, -, -, hl', -⟩ := exists_focus_of_opAt hedit.sent hq
    obtain ⟨l, hl, -⟩ := hpending l' hl'
    simp at hl
  · rintro removed l ls st' ⟨-, -, hedit, -, -⟩
    exact ⟨hedit.stored, by simp⟩
  · rintro removed l ls st' l' n ctx ⟨htracked, hpending, hedit, hmerge', hphase⟩ hl' hfoc hout
    have hget := Rose.get?_of_focus? hfoc
    obtain ⟨u, hu, hel, hop⟩ := htracked l (by simp) l' hl'
    obtain rfl : u = n := Option.some.inj (hu.symm.trans hget)
    have hkey := hedit.ready.keys op _ (opAt_of_focus hedit.sent hfoc hel hop)
    have hleft := phaseStep_left hkey hout
    obtain ⟨hedit', q, hq, hview⟩ := hedit.step hfoc hel hop hmerge' hout
    have hunlinked : (afterStep st' l'
        (phaseStep fuel false B op u ctx st'.orig st'.world)).edit = Rose.unlink l' st'.edit :=
      edit_afterStep_unlinked hleft
    have htracked' : Tracked op removed ls st'.edit := fun m hm => htracked m (by simp [hm])
    refine ⟨?_, ?_, hedit', ?_, fun W hW => hphase W (.next hq ?_)⟩
    · rw [hunlinked, removedAfter, if_pos (by simp [hleft])]
      exact htracked'.unlinked hget
    · rw [hunlinked, removedAfter, if_pos (by simp [hleft])]
      exact hpending.unlinked hl' hget
    · intro heq r hr
      have hr' : (stateView (afterStep st' l'
          (phaseStep fuel false B op u ctx st'.orig st'.world))).op .create r := hr
      rw [hview] at hr'
      exact hmerge' heq r hr'.1
    · rwa [← hview]
  · rintro removed l ls st' l' n ctx ⟨-, -, hedit, -, -⟩ - - hout
    refine ⟨?_, fun hsucc => absurd hsucc hout⟩
    have horig := phaseStep_stuck hout
    rw [afterStep, horig]
    exact hedit.stored

end

end OfConfig.Proofs
