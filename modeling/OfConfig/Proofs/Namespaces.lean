import OfConfig.Xml.Namespace

/-!
# `OfConfig.Proofs.Namespaces`: which namespace definitions `clrns` keeps

`find_namespace_usage` looks at the element, at its attributes and at the
elements below (`findNamespaceUsage_iff`), and the loop of `clrns` goes once
through the list of definitions. Its invariant (`clrns_loop`): the definitions
passed so far are those in use, and the rest of the list hangs behind them.

* `clrns_keeps_used`: what is left are the definitions in use, in their order.
  The others are freed, and the tree reads as before.
-/

set_option autoImplicit false

namespace OfConfig.Xml

open OfConfig.Lib OfConfig.Lib.Linked

/-! ### Usage -/

/-- A node is part of a tree. -/
inductive NsNode.InSubtree : NsNode → NsNode → Prop where
  | self (t : NsNode) : InSubtree t t
  | child {t c u : NsNode} (hc : c ∈ u.children) (h : InSubtree t c) : InSubtree t u

/-- The namespace of the node, or of one of its attributes. -/
def NsNode.Names (t : NsNode) (ns : Nat) : Prop :=
  t.ns = some ns ∨ ∃ a ∈ t.properties, a.ns = some ns

/-- The definition is referenced in the tree. -/
def NsNode.Refers (t : NsNode) (ns : Nat) : Prop := ∃ u : NsNode, u.InSubtree t ∧ u.Names ns

section Usage

variable {ns : Nat}

theorem NsNode.refers_iff {t : NsNode} :
    t.Refers ns ↔ t.Names ns ∨ ∃ c ∈ t.children, c.Refers ns := by
  constructor
  · rintro ⟨u, hu, hn⟩
    cases hu with
    | self => exact .inl hn
    | child hc h => exact .inr ⟨_, hc, u, h, hn⟩
  · rintro (hn | ⟨c, hc, u, hu, hn⟩)
    · exact ⟨t, .self t, hn⟩
    · exact ⟨u, .child hc hu, hn⟩

/-- Only elements refer to definitions. -/
theorem NsNode.not_refers_other (label : { l : Label // l.isElement = false }) :
    ¬ (NsNode.other label).Refers ns := by
  rw [NsNode.refers_iff]
  rintro ((hn | ⟨a, ha, -⟩) | ⟨c, hc, -⟩)
  · cases hn
  · cases ha
  · cases hc

theorem findNamespaceUsageIn_iff (cs : List NsNode) :
    findNamespaceUsageIn ns cs = true ↔ ∃ c ∈ cs, findNamespaceUsage ns c = true := by
  induction cs with
  | nil => simp [findNamespaceUsageIn]
  | cons c cs ih =>
    have hc : (c.isElement && findNamespaceUsage ns c) = findNamespaceUsage ns c := by
      cases c with
      | element => rfl
      | other => rfl
    rw [findNamespaceUsageIn, hc]
    simp only [List.mem_cons, exists_eq_or_imp, ← ih]
    split <;> simp [*]

/-- `find_namespace_usage` finds every reference. -/
theorem findNamespaceUsage_iff (t : NsNode) : findNamespaceUsage ns t = true ↔ t.Refers ns := by
  induction t using NsNode.induct with
  | other label =>
    exact iff_of_false (by simp [findNamespaceUsage]) (NsNode.not_refers_other label)
  | element name nodeNs properties children ih =>
    have hchildren : (∃ c ∈ children, findNamespaceUsage ns c = true) ↔
        ∃ c ∈ children, c.Refers ns :=
      exists_congr fun c => and_congr_right fun hc => ih c hc
    rw [findNamespaceUsage, NsNode.refers_iff]
    split_ifs with hns hprop
    · exact iff_of_true rfl (.inl (.inl hns))
    · obtain ⟨a, ha, h⟩ := List.any_eq_true.mp hprop
      exact iff_of_true rfl (.inl (.inr ⟨a, ha, of_decide_eq_true h⟩))
    · rw [findNamespaceUsageIn_iff, hchildren]
      refine (or_iff_right ?_).symm
      rintro (h | ⟨a, ha, h⟩)
      · exact hns h
      · exact hprop (List.any_eq_true.mpr ⟨a, ha, decide_eq_true h⟩)

end Usage

/-! ### Taking one definition out -/

/-- The field `next`. -/
def NsHeap.nexts (h : NsHeap) : Links := fun p => (h.mem p).map XmlNs.next

/-- The records after one was taken out. -/
def NsHeap.without (h : NsHeap) (prev : Option Nat) (ns : Nat) (next : Option Nat) : NsHeap :=
  ⟨if prev = none then next else h.nsDef,
    fun p => if p = ns then none
      else (h.mem p).map (fun d => if prev = some p then { d with next := next } else d)⟩

section Unlink

variable {h : NsHeap} {ks rs : List Nat} {ns : Nat}

/-- Taking out a definition that stands behind `prev`. -/
theorem NsHeap.unlink_eq {prev : Option Nat} {d : XmlNs} (hd : h.mem ns = some d)
    (hprev : ∀ p, prev = some p → p ≠ ns ∧ (h.mem p).isSome = true) :
    h.unlink prev ns = some (d.next, h.without prev ns d.next) := by
  cases prev with
  | none =>
    rw [NsHeap.unlink, hd, Option.bind_some]
    refine congrArg (fun m => some (d.next, NsHeap.mk d.next m)) (funext fun p => ?_)
    by_cases hp : p = ns
    · simp [hp]
    · simp [hp]
  | some q =>
    obtain ⟨hq, hsome⟩ := hprev q rfl
    obtain ⟨e, he⟩ := Option.isSome_iff_exists.mp hsome
    simp only [NsHeap.unlink, hd, Option.bind_some, NsHeap.setNext, he, Option.map_some,
      NsHeap.xmlFreeNs, Function.update_of_ne hq, Function.update_self]
    refine congrArg (fun m => some (d.next, NsHeap.mk h.nsDef m)) (funext fun p => ?_)
    by_cases hp : p = ns
    · simp [hp]
    · by_cases hpq : p = q
      · subst hpq
        simp [hp, he]
      · have hqp : ¬ q = p := fun h => hpq h.symm
        simp [hp, hpq, hqp]

/-- The list without the definition. -/
theorem NsHeap.walk_without {d : XmlNs} (hd : h.mem ns = some d)
    (hwalk : Walk h.nexts h.nsDef (ks ++ ns :: rs) none) :
    Walk (h.without ks.getLast? ns d.next).nexts (h.without ks.getLast? ns d.next).nsDef
      (ks ++ rs) none := by
  have hnodup := hwalk.nodup
  have hother : ∀ b ∈ ks ++ rs, b ≠ ns := by
    intro b hb hbn
    subst hbn
    have hperm := List.perm_middle.nodup_iff.mp hnodup
    exact (List.nodup_cons.mp hperm).1 hb
  have hsame : ∀ b ∈ ks ++ rs, ks.getLast? ≠ some b →
      (h.without ks.getLast? ns d.next).nexts b = h.nexts b := by
    intro b hb hlast
    simp only [NsHeap.nexts, NsHeap.without, if_neg (hother b hb), if_neg hlast]
    rw [Option.map_map]
    rfl
  have hfirst : (h.without ks.getLast? ns d.next).nsDef = if ks = [] then d.next else h.nsDef := by
    simp only [NsHeap.without, List.getLast?_eq_none_iff]
  rw [hfirst]
  refine hwalk.remove (by rw [NsHeap.nexts, hd]; rfl) ?_ ?_ ?_
  · intro b hb
    refine hsame b (List.mem_append_left _ ((List.dropLast_sublist ks).subset hb)) (fun hlast => ?_)
    -- a list without repetition does not have its last entry before the end
    obtain ⟨ys, rfl⟩ := List.getLast?_eq_some_iff.mp hlast
    rw [List.dropLast_concat] at hb
    have hks := (List.nodup_append.mp hnodup).1
    exact (List.nodup_append.mp hks).2.2 b hb b (List.mem_singleton_self b) rfl
  · intro b hb
    refine hsame b (List.mem_append_right _ hb) (fun hlast => ?_)
    exact (List.nodup_append.mp hnodup).2.2 b (List.mem_of_getLast? hlast) b
      (List.mem_cons_of_mem _ hb) rfl
  · intro b hb
    have hmem : b ∈ ks ++ rs := List.mem_append_left _ (List.mem_of_getLast? hb)
    have hsome := hwalk.isSome b (List.mem_append_left _ (List.mem_of_getLast? hb))
    rw [NsHeap.nexts, Option.isSome_map] at hsome
    obtain ⟨e, he⟩ := Option.isSome_iff_exists.mp hsome
    simp [NsHeap.nexts, NsHeap.without, hother b hmem, hb, he]

end Unlink

/-! ### The loop -/

/-- What the loop makes of a list: `ks` are behind it, `rs` before it. -/
structure Cleared (node : NsNode) (h : NsHeap) (ks rs : List Nat) (h' : NsHeap) : Prop where
  /-- the definitions in use stay, in their order -/
  walk : Walk h'.nexts h'.nsDef (ks ++ rs.filter (findNamespaceUsage · node)) none
  /-- the others are freed -/
  freed : ∀ ns ∈ rs, findNamespaceUsage ns node = false → h'.mem ns = none
  /-- nothing else is freed, and no `href` changes -/
  href : ∀ ns, (ns ∈ rs → findNamespaceUsage ns node = true) →
    (h'.mem ns).map XmlNs.href = (h.mem ns).map XmlNs.href
  /-- definitions that are not in the list stay as they are -/
  rest : ∀ ns ∉ ks ++ rs, h'.mem ns = h.mem ns

section Loop

variable {node : NsNode} {h h' : NsHeap} {ks rs : List Nat} {ns : Nat}

/-- A definition in use is passed. -/
theorem Cleared.pass (hused : findNamespaceUsage ns node = true)
    (hc : Cleared node h (ks ++ [ns]) rs h') : Cleared node h ks (ns :: rs) h' where
  walk := by
    have hwalk := hc.walk
    rw [List.append_assoc, List.singleton_append] at hwalk
    rwa [List.filter_cons, if_pos hused]
  freed := by
    intro p hp hunused
    rcases List.mem_cons.mp hp with rfl | hp
    · rw [hused] at hunused
      cases hunused
    · exact hc.freed p hp hunused
  href p hp := hc.href p (fun hmem => hp (List.mem_cons_of_mem _ hmem))
  rest p hp := hc.rest p (by simpa using hp)

/-- A definition that is not in use is taken out. -/
theorem Cleared.drop {d : XmlNs} (hd : h.mem ns = some d)
    (hunused : findNamespaceUsage ns node = false) (hns : ns ∉ rs)
    (hc : Cleared node (h.without ks.getLast? ns d.next) ks rs h') :
    Cleared node h ks (ns :: rs) h' where
  walk := by
    rw [List.filter_cons, if_neg (by rw [hunused]; exact Bool.false_ne_true)]
    exact hc.walk
  freed := by
    intro p hp hp'
    rcases List.mem_cons.mp hp with rfl | hp
    · have hkeep := hc.href p (fun hmem => absurd hmem hns)
      simpa [NsHeap.without] using hkeep
    · exact hc.freed p hp hp'
  href := by
    intro p hp
    have hpn : p ≠ ns := by
      rintro rfl
      rw [hp List.mem_cons_self] at hunused
      cases hunused
    rw [hc.href p (fun hmem => hp (List.mem_cons_of_mem _ hmem))]
    simp only [NsHeap.without, if_neg hpn, Option.map_map]
    refine congrArg (fun f => Option.map f (h.mem p)) (funext fun e => ?_)
    rw [Function.comp_apply]
    split <;> rfl
  rest := by
    intro p hp
    have hpn : p ≠ ns := by
      rintro rfl
      exact hp (List.mem_append_right _ List.mem_cons_self)
    have hlast : ks.getLast? ≠ some p :=
      fun hlast => hp (List.mem_append_left _ (List.mem_of_getLast? hlast))
    rw [hc.rest p (fun hmem => hp (by simp only [List.mem_append, List.mem_cons] at hmem ⊢; tauto))]
    simp [NsHeap.without, hpn, hlast]

/-- The loop from any place of the list. -/
theorem clrns_loop (node : NsNode) {rounds : Nat} (hwalk : Walk h.nexts h.nsDef (ks ++ rs) none)
    (hrounds : rs.length < rounds) :
    ∃ h', Loop.run (clrnsRound node) rounds ⟨ks.getLast?, rs.head?, h⟩ = some (some h') ∧
      Cleared node h ks rs h' := by
  -- the induction is on what is left of the list; both branches go on with less
  induction rs generalizing ks h rounds with
  | nil =>
    obtain ⟨n, rfl⟩ := Nat.exists_eq_add_of_lt hrounds
    refine ⟨h, Loop.run_succ_exit rfl (0 + n), ?_⟩
    exact ⟨by simpa using hwalk, by simp, fun _ _ => rfl, fun _ _ => rfl⟩
  | cons ns rs ih =>
    obtain ⟨n, rfl⟩ : ∃ n, rounds = n + 1 :=
      ⟨rounds - 1, by rw [List.length_cons] at hrounds; omega⟩
    have hn : rs.length < n := Nat.lt_of_succ_lt_succ hrounds
    obtain ⟨r, -, hback⟩ := walk_append_iff.mp hwalk
    obtain ⟨rfl, s, hs, hrest⟩ := walk_cons_iff.mp hback
    obtain ⟨d, hd, rfl⟩ := Option.map_eq_some_iff.mp hs
    have hnext : d.next = rs.head? := hrest.eq_head?
    cases hused : findNamespaceUsage ns node with
    | true =>
      have hwalk' : Walk h.nexts h.nsDef ((ks ++ [ns]) ++ rs) none := by
        rwa [List.append_assoc, List.singleton_append]
      have hround : clrnsRound node ⟨ks.getLast?, some ns, h⟩ = .again ⟨some ns, d.next, h⟩ := by
        simp [clrnsRound, hused, hd]
      obtain ⟨h', hrun, hc⟩ := ih hwalk' hn
      rw [List.getLast?_concat, ← hnext] at hrun
      exact ⟨h', (Loop.run_succ_again hround n).trans hrun, hc.pass hused⟩
    | false =>
      have hnodup := List.perm_middle.nodup_iff.mp hwalk.nodup
      have hmem := (List.nodup_cons.mp hnodup).1
      have hprev : ∀ p, ks.getLast? = some p → p ≠ ns ∧ (h.mem p).isSome = true := by
        intro p hp
        have hks : p ∈ ks := List.mem_of_getLast? hp
        refine ⟨fun h => hmem (h ▸ List.mem_append_left _ hks), ?_⟩
        simpa [NsHeap.nexts] using hwalk.isSome p (List.mem_append_left _ hks)
      have hround : clrnsRound node ⟨ks.getLast?, some ns, h⟩ =
          .again ⟨ks.getLast?, d.next, h.without ks.getLast? ns d.next⟩ := by
        simp [clrnsRound, hused, NsHeap.unlink_eq hd hprev]
      obtain ⟨h', hrun, hc⟩ := ih (NsHeap.walk_without hd hwalk) hn
      rw [← hnext] at hrun
      refine ⟨h', (Loop.run_succ_again hround n).trans hrun, hc.drop hd hused (fun hns => ?_)⟩
      exact hmem (List.mem_append_right _ hns)

end Loop

/-! ### The tree -/

section Resolve

variable {h h' : NsHeap}

/-- The records have the same `href` wherever the tree refers to them. -/
def SameHrefs (h h' : NsHeap) (t : NsNode) : Prop :=
  ∀ ns, t.Refers ns → (h'.mem ns).map XmlNs.href = (h.mem ns).map XmlNs.href

theorem NsHeap.href_congr {p : Option Nat}
    (hp : ∀ ns, p = some ns → (h'.mem ns).map XmlNs.href = (h.mem ns).map XmlNs.href) :
    h'.href p = h.href p := by
  cases p with
  | none => rfl
  | some ns => exact hp ns rfl

theorem resolveAttrs_congr {as : List NsAttr} (has : ∀ a ∈ as, h'.href a.ns = h.href a.ns) :
    as.mapM (NsAttr.resolve h') = as.mapM (NsAttr.resolve h) := by
  induction as with
  | nil => rfl
  | cons a as ih =>
    rw [List.mapM_cons, List.mapM_cons, ih (fun b hb => has b (List.mem_cons_of_mem _ hb)),
      NsAttr.resolve, NsAttr.resolve, has a List.mem_cons_self]

theorem resolveAll_congr {cs : List NsNode} (hcs : ∀ c ∈ cs, c.resolve h' = c.resolve h) :
    NsNode.resolveAll h' cs = NsNode.resolveAll h cs := by
  induction cs with
  | nil => rw [NsNode.resolveAll, NsNode.resolveAll]
  | cons c cs ih =>
    rw [NsNode.resolveAll, NsNode.resolveAll, hcs c List.mem_cons_self,
      ih (fun d hd => hcs d (List.mem_cons_of_mem _ hd))]

/-- A tree is read through the records it refers to. -/
theorem resolve_congr {t : NsNode} (hsame : SameHrefs h h' t) : t.resolve h' = t.resolve h := by
  induction t using NsNode.induct with
  | other label => rw [NsNode.resolve, NsNode.resolve]
  | element name ns properties children ih =>
    have hns : h'.href ns = h.href ns :=
      NsHeap.href_congr (fun p hp => hsame p (NsNode.refers_iff.mpr (.inl (.inl hp))))
    have hprops : properties.mapM (NsAttr.resolve h') = properties.mapM (NsAttr.resolve h) := by
      refine resolveAttrs_congr (fun a ha => NsHeap.href_congr (fun p hp => ?_))
      exact hsame p (NsNode.refers_iff.mpr (.inl (.inr ⟨a, ha, hp⟩)))
    have hchildren : NsNode.resolveAll h' children = NsNode.resolveAll h children :=
      resolveAll_congr (fun c hc => ih c hc (fun p hp =>
        hsame p (NsNode.refers_iff.mpr (.inr ⟨c, hc, hp⟩))))
    rw [NsNode.resolve, NsNode.resolve, hns, hprops, hchildren]

end Resolve

instance (t : NsNode) (ns : Nat) : Decidable (t.Refers ns) :=
  decidable_of_iff _ (findNamespaceUsage_iff t)

theorem decide_refers (t : NsNode) (ns : Nat) : decide (t.Refers ns) = findNamespaceUsage ns t := by
  rw [Bool.eq_iff_iff, decide_eq_true_iff, findNamespaceUsage_iff]

/-- For every element and every list of definitions on it: `clrns` leaves the
definitions that are referenced in the element's tree, in their order, and frees
the others. A definition that is referenced keeps its `href`, so no reference
leads to a freed one, and the tree reads as before. -/
theorem clrns_keeps_used (node : NsNode) (hnode : node.isElement = true) (h : NsHeap)
    (defs : List Nat) (hdefs : Walk h.nexts h.nsDef defs none) (rounds : Nat)
    (hrounds : defs.length < rounds) :
    ∃ h', clrns rounds (some node) h = some (some h') ∧
      Walk h'.nexts h'.nsDef (defs.filter (fun ns => node.Refers ns)) none ∧
      (∀ ns ∈ defs, ¬ node.Refers ns → h'.mem ns = none) ∧
      (∀ ns, node.Refers ns → (h'.mem ns).map XmlNs.href = (h.mem ns).map XmlNs.href) ∧
      (∀ ns ∉ defs, h'.mem ns = h.mem ns) ∧
      node.resolve h' = node.resolve h := by
  have hdefs' : Walk h.nexts h.nsDef ([] ++ defs) none := hdefs
  obtain ⟨h', hrun, hc⟩ := clrns_loop node hdefs' hrounds
  have hsame : SameHrefs h h' node :=
    fun ns hns => hc.href ns (fun _ => (findNamespaceUsage_iff node).mpr hns)
  refine ⟨h', ?_, ?_, ?_, hsame, hc.rest, resolve_congr hsame⟩
  · rw [clrns, if_neg (by rw [hnode]; exact Bool.noConfusion), hdefs.eq_head?]
    exact hrun
  · simpa only [decide_refers, List.nil_append] using hc.walk
  · intro ns hns hunused
    refine hc.freed ns hns ?_
    rwa [← decide_refers, decide_eq_false_iff_not]

/-- An element with two definitions in front of the one an attribute below
refers to, and one behind it. -/
def sampleNode : NsNode :=
  .element "config" none [] [.other ⟨.text "\n", rfl⟩,
    .element "port" none [⟨some 3, "operation", "create"⟩] []]

/-- The definitions of `sampleNode`. -/
def sampleDefs : NsHeap :=
  ⟨some 1, fun p =>
    if p = 1 then some ⟨some 2, "urn:a"⟩
    else if p = 2 then some ⟨some 3, "urn:b"⟩
    else if p = 3 then some ⟨some 4, "urn:c"⟩
    else if p = 4 then some ⟨none, "urn:d"⟩
    else none⟩

theorem clrns_keeps_used_sample :
    [1, 2, 3, 4].filter (fun ns => sampleNode.Refers ns) = [3] ∧
    ∃ h', clrns 5 (some sampleNode) sampleDefs = some (some h') ∧
      Walk h'.nexts h'.nsDef ([1, 2, 3, 4].filter (fun ns => sampleNode.Refers ns)) none := by
  have hdefs : Walk sampleDefs.nexts sampleDefs.nsDef [1, 2, 3, 4] none :=
    .cons rfl (.cons rfl (.cons rfl (.cons rfl (.nil none))))
  obtain ⟨h', hrun, hwalk, -⟩ := clrns_keeps_used sampleNode rfl sampleDefs _ hdefs 5 (by decide)
  exact ⟨by decide, h', hrun, hwalk⟩

end OfConfig.Xml
