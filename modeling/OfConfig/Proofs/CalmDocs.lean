import OfConfig.Lib.Address
import OfConfig.Proofs.Apply
import OfConfig.Proofs.KnownPorts

/-!
# `OfConfig.Proofs.CalmDocs`: documents whose edit stays inside the transaction

Three things a request on the running datastore does are not part of its OVSDB
transaction: `txn_del_all` commits, `ofc_set_switchid` changes the id of the capable
switch at once, and `of_post_ports` runs after the commit if a port was added. This
module says on the documents when a request does none of them, element by element:

* `RootCalm`: the root is not replaced.
* `IdCalm`: an id that is applied is the one that is set, and no id is cleared.
* `PortCalm`: a port that is applied is in the running configuration and stays there.

The conditions are on the labels of an element's path and on its children, so they
hold of what the phases leave of the edit document (`CalmEdit.unlink`). What they are
for is said by `setsId_of_calm` and `portFree_of_op`, `portFree_of_none`,
`portFree_of_text`: an element that is created sets no other id and adds no port.
-/

set_option autoImplicit false

namespace OfConfig.Proofs

open OfConfig.Lib OfConfig.Xml OfConfig.Edit

variable {D : Doc} {cs : List Node} {l : Loc} {p : List Label} {ps : List PortRef} {t : Node}

/-! ### The conditions -/

/-- What a request finds: the id of the capable switch, the default operation and the
running configuration as a document. -/
structure Baseline where
  csId : Option String
  defop : DefOp
  orig : Doc

/-- The path is one of an id of a capable switch. -/
def isId : List Label → Bool
  | a :: s :: _ => a.name = "id" && s.name = "capable-switch"
  | _ => false

theorem isId_names {q : List Label} (h : p.map Label.name = q.map Label.name) :
    isId p = isId q := by
  rcases p with _ | ⟨a, _ | ⟨s, p⟩⟩ <;> rcases q with _ | ⟨a', _ | ⟨s', q⟩⟩ <;> simp_all [isId]

/-- The operation of an element removes its equivalent from the datastore. -/
def deletesEquiv : OpAttr → Bool
  | .op .delete => true
  | .op .remove => true
  | .op .replace => true
  | _ => false

/-- An id is cleared and not set again: it is deleted or removed, or it is replaced
by an element that does not start with a text. -/
def Clears (a : Label) (cs : List Node) : Prop :=
  deletesEquiv (getOperation a) = true ∧ (getOperation a = .op .replace → firstIsText cs = false)

instance (a : Label) (cs : List Node) : Decidable (Clears a cs) := by
  unfold Clears
  infer_instance

/-- An id of the request: if it is applied, a text in it is the id that is set, and
if it is cleared, the running configuration has none. Further down than in the root
there is no id in the running configuration (`CalmRunning`). -/
def IdCalm (b : Baseline) (p : List Label) (cs : List Node) : Prop :=
  isId p = true →
    (Requested b.defop p → ∀ l ∈ firstKept cs, l.isText = true → l.content = b.csId) ∧
      match p with
      | [a, s] => Clears a cs → ¬ HasId b.orig a s
      | _ => True

/-- A root of the request: if it is applied, and it has the operation replace or
`edit_merge` would replace it for the text it starts with, then it is a new root. -/
def RootCalm (b : Baseline) (p : List Label) (cs : List Node) : Prop :=
  match p with
  | [s] => Requested b.defop [s] → getOperation s = .op .replace ∨ startsWithText cs = true →
      ¬ HasRoot b.orig s
  | _ => True

/-- The operation at the front of a path. -/
def headOp : List Label → OpAttr
  | [] => .unset
  | a :: _ => getOperation a

/-- The elements of a request that applies the ports of a list, all of which are in
the running configuration, and creates none. -/
structure PortCalm (defop : DefOp) (ports : List PortRef) (p : List Label) (cs : List Node) :
    Prop where
  /-- A port that is applied is one of the list. It is merged: nothing on its path is
  created or replaced, and it does not start with a text. -/
  requested : isPort p = true → Requested defop p → startsWithText cs = false ∧
    (∀ z ∈ p, getOperation z ≠ .op .create ∧ getOperation z ≠ .op .replace) ∧
    ∃ w ∈ ports, w.path = p ∧ portName cs = some w.key
  /-- What is deleted or replaced leaves the ports of the list where they are. -/
  spared : ∀ w ∈ ports, deletesEquiv (headOp p) = true → Spares w p cs
  /-- The name of a port has no operation, nor has anything below it. -/
  named : ports ≠ [] → belowName p = true → headOp p = .unset
  /-- The `resources` of the capable switch are not replaced for a text. -/
  resources : ports ≠ [] → p.map Label.name = ["resources", "capable-switch"] →
    startsWithText cs = false

/-- The ports of the capable switch that a request applies, as far as they have a
name. -/
def requestedPorts (defop : DefOp) (edit : Doc) : List PortRef :=
  edit.flatMap fun s => s.children.flatMap fun r => r.children.filterMap fun q =>
    let p := [q.label, r.label, s.label]
    if isPort p = true ∧ Requested defop p then
      (portName q.children).map fun key => ⟨s.label, r.label, q.label, key⟩
    else none

/-- The request creates no port: those it applies are in the running configuration,
and they are still there when `edit_merge` looks for them. -/
structure OldPorts (b : Baseline) (edit : Doc) : Prop where
  known : ∀ w ∈ requestedPorts b.defop edit, hasPort b.orig w = true
  calm : Rose.Families (PortCalm b.defop (requestedPorts b.defop edit)) [] edit

/-- The operations on the path belong to a phase from the `k`-th on. -/
def Settled (k : Nat) (p : List Label) : Prop :=
  ∀ z ∈ p, ∀ o, getOperation z = .op o → k ≤ phaseIndex o

/-- The conditions on an element with this path and these children, when `k` phases
are over. Without a list of ports any port may be created. -/
structure CalmAt (b : Baseline) (ports : Option (List PortRef)) (k : Nat) (p : List Label)
    (cs : List Node) : Prop where
  id : IdCalm b p cs
  root : RootCalm b p cs
  ports : ∀ ps, ports = some ps → PortCalm b.defop ps p cs
  settled : Settled k p

/-- An edit document after `k` phases. -/
abbrev CalmEdit (b : Baseline) (ports : Option (List PortRef)) (k : Nat) (edit : Doc) : Prop :=
  Rose.Families (CalmAt b ports k) [] edit

/-- A node of such a document. -/
abbrev CalmNode (b : Baseline) (ports : Option (List PortRef)) (k : Nat) (n : Node)
    (ctx : List (Rose.Frame Label)) : Prop :=
  Rose.Families (CalmAt b ports k) (Rose.path n ctx) n.children

/-- Below the root, a `capable-switch` has no id. -/
def NoId (p : List Label) (cs : List Node) : Prop :=
  match p with
  | a :: _ :: _ => a.name = "capable-switch" → ∀ c ∈ cs, c.label.name ≠ "id"
  | _ => True

/-- A running configuration with an id at its root only. -/
abbrev CalmRunning (D : Doc) : Prop := Rose.Families NoId [] D

instance (b : Baseline) (p : List Label) (cs : List Node) : Decidable (IdCalm b p cs) :=
  match p with
  | [a, s] => inferInstanceAs (Decidable (isId [a, s] = true →
      (Requested b.defop [a, s] → ∀ l ∈ firstKept cs, l.isText = true → l.content = b.csId) ∧
        (Clears a cs → ¬ HasId b.orig a s)))
  | [] => isTrue (by simp [IdCalm, isId])
  | [_] => isTrue (by simp [IdCalm, isId])
  | a :: s :: r :: p => inferInstanceAs (Decidable (isId (a :: s :: r :: p) = true →
      (Requested b.defop (a :: s :: r :: p) →
        ∀ l ∈ firstKept cs, l.isText = true → l.content = b.csId) ∧ True))

instance (b : Baseline) (p : List Label) (cs : List Node) : Decidable (RootCalm b p cs) :=
  match p with
  | [s] => inferInstanceAs (Decidable (Requested b.defop [s] →
      getOperation s = .op .replace ∨ startsWithText cs = true → ¬ HasRoot b.orig s))
  | [] => isTrue trivial
  | _ :: _ :: _ => isTrue trivial

instance (p : List Label) (cs : List Node) : Decidable (NoId p cs) :=
  match p with
  | a :: _ :: _ => inferInstanceAs (Decidable (a.name = "capable-switch" →
      ∀ c ∈ cs, c.label.name ≠ "id"))
  | [] => isTrue trivial
  | [_] => isTrue trivial

instance (defop : DefOp) (ports : List PortRef) (p : List Label) (cs : List Node) :
    Decidable (PortCalm defop ports p cs) :=
  decidable_of_iff
    ((isPort p = true → Requested defop p → startsWithText cs = false ∧
        (∀ z ∈ p, getOperation z ≠ .op .create ∧ getOperation z ≠ .op .replace) ∧
        ∃ w ∈ ports, w.path = p ∧ portName cs = some w.key) ∧
      (∀ w ∈ ports, deletesEquiv (headOp p) = true → Spares w p cs) ∧
      (ports ≠ [] → belowName p = true → headOp p = .unset) ∧
      (ports ≠ [] → p.map Label.name = ["resources", "capable-switch"] →
        startsWithText cs = false))
    ⟨fun h => ⟨h.1, h.2.1, h.2.2.1, h.2.2.2⟩,
      fun h => ⟨h.requested, h.spared, h.named, h.resources⟩⟩

variable {b : Baseline} {ports : Option (List PortRef)} {k : Nat}

/-! ### What the phases leave -/

theorem Spares.congr {w : PortRef} {ds : List Node} (h : Spares w p cs)
    (htext : startsWithText ds = startsWithText cs)
    (hname : isPort p = true → portName ds = portName cs) : Spares w p ds := by
  rcases p with _ | ⟨x, _ | ⟨y, _ | ⟨z, _ | ⟨u, p⟩⟩⟩⟩
  case cons.cons.cons.nil =>
    intro hp
    rw [htext, hname hp]
    exact h hp
  all_goals exact h

theorem IdCalm.unlink (h : IdCalm b p cs) (hl : Rose.get? cs l = some t)
    (hop : getOperation t.label ≠ .unset) (htext : t.label.isText = false) :
    IdCalm b p (Rose.unlink l cs) := by
  intro hid
  obtain ⟨hset, hclear⟩ := h hid
  refine ⟨by rwa [firstKept_unlink hl hop], ?_⟩
  split
  · next a s =>
      rintro ⟨hdel, hrep⟩
      refine hclear ⟨hdel, fun hr => ?_⟩
      cases hf : firstIsText cs with
      | false => rfl
      | true => exact (firstIsText_unlink hl htext hf).symm.trans (hrep hr)
  · trivial

theorem RootCalm.unlink (h : RootCalm b p cs) (hl : Rose.get? cs l = some t)
    (hop : getOperation t.label ≠ .unset) : RootCalm b p (Rose.unlink l cs) := by
  unfold RootCalm at h ⊢
  split
  · rwa [startsWithText_unlink hl hop]
  · trivial

/-- A port of the edit document keeps its name: what is unlinked has an operation, so
it is not at or below the name. -/
theorem portName_kept {defop : DefOp} (hps : ps ≠ []) (h : Rose.Families (PortCalm defop ps) p cs)
    (hp : isPort p = true) (hl : Rose.get? cs l = some t) (hop : getOperation t.label ≠ .unset) :
    portName (Rose.unlink l cs) = portName cs := by
  refine portName_unlink hl ?_
  intro i u hi hu hname
  obtain ⟨i', u', q, hi', hu', hsuf, hfam⟩ := h.get hl
  obtain rfl : i = i' := by simpa using hi.symm.trans hi'
  obtain rfl : u = u' := by simpa using hu.symm.trans hu'
  obtain ⟨a, rest, rfl⟩ : ∃ a rest, p = a :: rest := by
    cases p with
    | nil => simp [isPort] at hp
    | cons a rest => exact ⟨a, rest, rfl⟩
  have ha : a.name = "port" := by
    rcases rest with _ | ⟨c, _ | ⟨d, rest⟩⟩ <;> simp [isPort] at hp
    exact hp.1.1
  exact hop (hfam.here.named hps (belowName_of_suffix hname ha hsuf))

theorem PortCalm.unlink {defop : DefOp} (h : Rose.Families (PortCalm defop ps) p cs)
    (hl : Rose.get? cs l = some t) (hop : getOperation t.label ≠ .unset) :
    PortCalm defop ps p (Rose.unlink l cs) where
  requested hp hreq := by
    obtain ⟨htext, hops, w, hw, hpath, hname⟩ := h.here.requested hp hreq
    refine ⟨by rwa [startsWithText_unlink hl hop], hops, w, hw, hpath, ?_⟩
    rwa [portName_kept (List.ne_nil_of_mem hw) h hp hl hop]
  spared w hw hdel := (h.here.spared w hw hdel).congr (startsWithText_unlink hl hop)
    (fun hp => portName_kept (List.ne_nil_of_mem hw) h hp hl hop)
  named := h.here.named
  resources hne hp := by
    rw [startsWithText_unlink hl hop]
    exact h.here.resources hne hp

/-- The edit document when an element with an operation was unlinked. -/
theorem CalmEdit.unlink {edit : Doc} (h : CalmEdit b ports k edit) (hl : Rose.get? edit l = some t)
    (hop : getOperation t.label ≠ .unset) (htext : t.label.isText = false) :
    CalmEdit b ports k (Rose.unlink l edit) := by
  refine Rose.Families.unlink ?_ h hl
  intro p cs l h hl
  exact ⟨h.here.id.unlink hl hop htext, h.here.root.unlink hl hop,
    fun ps hps => PortCalm.unlink (h.mono fun _ _ hc => hc.ports ps hps) hl hop, h.here.settled⟩

/-- A phase is over, and its operation is gone. -/
theorem CalmEdit.next {edit : Doc} {op : EditOp} (h : CalmEdit b ports (phaseIndex op) edit)
    (hgone : ∀ x p, PathIn edit (x :: p) → getOperation x ≠ .op op) :
    CalmEdit b ports (phaseIndex op + 1) edit := by
  refine Rose.Families.of_focus ⟨h.here.id, h.here.root, h.here.ports, by simp [Settled]⟩ ?_
  intro l t ctx hf
  have hcalm := (h.focus hf).here
  refine ⟨hcalm.id, hcalm.root, hcalm.ports, ?_⟩
  intro z hz o ho
  obtain ⟨inner, rest, hsplit⟩ := List.append_of_mem hz
  have hin : PathIn edit (inner ++ z :: rest) := ⟨l, t, ctx, hf, hsplit.symm⟩
  have hne : phaseIndex op ≠ phaseIndex o := by
    intro heq
    exact hgone z rest hin.above (phaseIndex_inj heq ▸ ho)
  have hle := hcalm.settled z hz o ho
  omega

theorem CalmRunning.unlink (h : CalmRunning D) (hl : Rose.get? D l = some t) :
    CalmRunning (Rose.unlink l D) := by
  refine Rose.Families.unlink ?_ h hl
  intro p cs l h hl
  have hhere := h.here
  rcases p with _ | ⟨a, _ | ⟨a', p⟩⟩
  · trivial
  · trivial
  · intro hname c hc
    obtain ⟨u, hu, hlab⟩ := Rose.label_mem_unlink hl hc
    rw [← hlab]
    exact hhere hname u hu

/-! ### What is found in the running configuration -/

/-- The equivalent of a node below the root is below the root, in a place
of the same name. -/
theorem find_below {n : Node} {ctx : List (Rose.Frame Label)} {f : Found} (hctx : ctx ≠ [])
    (hf : findElementEquiv D (Rose.chain n ctx) = some f) :
    ∃ ctx', Rose.focus? D f.loc = some (f.node, ctx') ∧ ctx' ≠ [] ∧
      parentName ctx' 0 = parentName ctx 0 ∧ f.node.label.name = n.label.name := by
  obtain ⟨ctx', hfoc, hanc⟩ := find_focus hf
  refine ⟨ctx', hfoc, ?_, ?_, find_name hf⟩
  · rintro rfl
    have h1 := Rose.length_of_focus? hfoc
    have h2 := length_loc_of_find hf
    have h3 := List.length_pos_iff.mpr hctx
    simp only [List.length_nil, Rose.length_chain] at h1 h2
    omega
  · have hp : nameAt f.anc 0 = nameAt (Rose.ancestors n ctx) 0 := find_parentName hf
    rwa [← hanc, nameAt_ancestors, nameAt_ancestors] at hp

/-- An id of the edit document that has an equivalent is one of the root. -/
theorem hasId_of_calm (h : CalmRunning D) {n : Node} {ctx : List (Rose.Frame Label)} {f : Found}
    (hid : isId (Rose.path n ctx) = true) (hf : findElementEquiv D (Rose.chain n ctx) = some f) :
    ∃ s, Rose.path n ctx = [n.label, s] ∧ HasId D n.label s := by
  rcases ctx with _ | ⟨fr, ctx⟩
  · simp [isId, Rose.path] at hid
  obtain ⟨hn, hs⟩ : n.label.name = "id" ∧ fr.label.name = "capable-switch" := by
    simpa [isId, Rose.path] using hid
  rcases ctx with _ | ⟨fr', ctx⟩
  · exact ⟨fr.label, rfl, hasId_of_find (s := fr.plug n) hf⟩
  · -- further down the parent of the equivalent is a capable switch below the root
    exfalso
    obtain ⟨g, j, hg, -, -, hm⟩ := find_cons_some hf
    obtain ⟨i, -, hi, -⟩ := findMatch_some hm
    obtain ⟨c, hc, hne, -, -⟩ := find_below (n := fr.plug n) (by simp) hg
    obtain ⟨fr'', c, rfl⟩ := List.exists_cons_of_ne_nil hne
    have hgname : g.node.label.name = "capable-switch" := by
      rw [find_name hg]
      exact hs
    exact (h.focus hc).here hgname f.node (List.mem_of_getElem? hi) (by rw [find_name hf, hn])

/-! ### What is created -/

section

variable {n : Node} {ctx : List (Rose.Frame Label)}

/-- Below an element that is applied everything is, once the deletions are over. -/
theorem requested_below (hk : 2 ≤ k) (hp : Settled k p)
    (hreq : b.defop ≠ .none ∨ ∃ z ∈ Rose.path n ctx, getOperation z ≠ .unset)
    (hsuf : Rose.path n ctx <:+ p) : Requested b.defop p := by
  refine ⟨fun z hz => ⟨fun ho => ?_, fun ho => ?_⟩, ?_⟩
  · have hle : k ≤ 0 := hp z hz _ ho
    omega
  · have hle : k ≤ 1 := hp z hz _ ho
    omega
  · rcases hreq with h | ⟨z, hz, ho⟩
    · exact .inl h
    · exact .inr ⟨z, hsuf.subset hz, ho⟩

/-- An id that is created with these children sets the id that is set already, or none. -/
def SetsId (csId : Option String) (p : List Label) (cs : List Node) : Prop :=
  isId p = true → ∀ s, firstText cs = some s → csId = some s

/-- The ids in an element that is created. -/
theorem setsId_of_calm (h : CalmNode b ports k n ctx) (hk : 2 ≤ k)
    (hreq : b.defop ≠ .none ∨ ∃ z ∈ Rose.path n ctx, getOperation z ≠ .unset) :
    Rose.Families (SetsId b.csId) (Rose.path n ctx) n.children := by
  refine h.mono_below ?_
  intro p cs hsuf _ hcalm hid s hs
  have hreq' := requested_below hk hcalm.settled hreq hsuf
  have htext := (hcalm.id hid).1 hreq' (.text s) (firstKept_of_firstText hs) rfl
  exact htext.symm

/-- The path is not one of a port of the capable switch. -/
def PortFree (p : List Label) (_ : List Node) : Prop := isPort p = false

/-- No port is created with an element if none of the list can be at it or below it. -/
theorem portFree_of_calm (h : CalmNode b (some ps) k n ctx) (hk : 2 ≤ k)
    (hreq : b.defop ≠ .none ∨ ∃ z ∈ Rose.path n ctx, getOperation z ≠ .unset)
    (hno : ∀ w ∈ ps, isPort w.path = true → ∀ inner, inner ++ Rose.path n ctx = w.path →
      (∀ z ∈ Rose.path n ctx, getOperation z ≠ .op .create ∧ getOperation z ≠ .op .replace) →
      (inner = [] → startsWithText n.children = false ∧ portName n.children = some w.key) → False) :
    Rose.Families PortFree (Rose.path n ctx) n.children := by
  refine h.mono_below ?_
  intro p cs hsuf hbase hcalm
  by_contra hfree
  have hport : isPort p = true := by simpa [PortFree] using hfree
  have hreq' := requested_below hk hcalm.settled hreq hsuf
  obtain ⟨htext, hops, w, hw, hpath, hname⟩ := (hcalm.ports ps rfl).requested hport hreq'
  obtain ⟨inner, hinner⟩ := hsuf
  refine hno w hw (hpath ▸ hport) inner (hinner.trans hpath.symm) (fun z hz => hops z ?_) ?_
  · rw [← hinner]
    exact List.mem_append_right _ hz
  · rintro rfl
    obtain rfl := hbase (by rw [← hinner, List.nil_append])
    exact ⟨htext, hname⟩

/-- An element with the operation create or replace. -/
theorem portFree_of_op (h : CalmNode b (some ps) k n ctx) (hk : 2 ≤ k)
    (hop : getOperation n.label = .op .create ∨ getOperation n.label = .op .replace) :
    Rose.Families PortFree (Rose.path n ctx) n.children := by
  refine portFree_of_calm h hk (.inr ⟨n.label, by simp [Rose.path], ?_⟩) ?_
  · rcases hop with ho | ho <;> simp [ho]
  · intro w _ _ inner _ hops _
    obtain ⟨hcreate, hreplace⟩ := hops n.label (by simp [Rose.path])
    exact hop.elim hcreate hreplace

/-- An element that `edit_merge` does not find. -/
theorem portFree_of_none (h : CalmNode b (some ps) k n ctx) (hk : 2 ≤ k)
    (hreq : b.defop ≠ .none ∨ ∃ z ∈ Rose.path n ctx, getOperation z ≠ .unset)
    (hD : ∀ w ∈ ps, hasPort D w = true) (hf : findElementEquiv D (Rose.chain n ctx) = none) :
    Rose.Families PortFree (Rose.path n ctx) n.children := by
  refine portFree_of_calm h hk hreq ?_
  intro w hw _ inner hpath _ hport
  rw [← Rose.map_label_chain, Rose.chain_eq] at hpath
  obtain ⟨f, hsome⟩ := find_of_hasPort (hD w hw) hpath fun hnil =>
    ⟨firstIsText_of_startsWithText (hport hnil).1, (hport hnil).2⟩
  rw [Rose.chain_eq, hsome] at hf
  cases hf

/-- An element that `edit_merge` takes for a leaf. -/
theorem portFree_of_text (h : CalmNode b (some ps) k n ctx) (hk : 2 ≤ k)
    (hreq : b.defop ≠ .none ∨ ∃ z ∈ Rose.path n ctx, getOperation z ≠ .unset) (hctx : ctx ≠ [])
    (htext : firstIsText n.children = true) :
    Rose.Families PortFree (Rose.path n ctx) n.children := by
  have hstart := startsWithText_of_firstIsText htext
  refine portFree_of_calm h hk hreq ?_
  intro w hw hnamed inner hpath _ hport
  rcases ctx with _ | ⟨fr, _ | ⟨fr', ctx⟩⟩
  · exact hctx rfl
  · -- the `resources`
    obtain ⟨hs, hr, -⟩ : fr.label = w.switch ∧ n.label = w.resources ∧
        inner.reverse = [w.port] := by
      simpa [PortRef.path, Rose.path] using congrArg List.reverse hpath
    have hnames : (Rose.path n [fr]).map Label.name = ["resources", "capable-switch"] := by
      simp only [isPort, PortRef.path, Bool.and_eq_true, decide_eq_true_eq] at hnamed
      simp [Rose.path, hs, hr, hnamed]
    have hfalse := (h.here.ports ps rfl).resources (List.ne_nil_of_mem hw) hnames
    simp [hstart] at hfalse
  · -- the port itself
    have hnil : inner = [] := by
      have hlen := congrArg List.length hpath
      simp only [PortRef.path, Rose.path, List.length_append, List.length_cons, List.length_map,
        List.length_nil] at hlen
      exact List.length_eq_zero_iff.mp (by omega)
    simp [(hport hnil).1] at hstart

end

end OfConfig.Proofs
