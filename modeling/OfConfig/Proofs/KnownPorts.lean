import OfConfig.Proofs.Requested

/-!
# `OfConfig.Proofs.KnownPorts`: ports that an edit finds in the running configuration

`edit_merge` calls `txn_add_port` for a port that `find_element_equiv` does not find,
and `txn_add_port` is what makes `of_post_ports` do something after the commit. So a
request creates no port if all the ports it applies are in the running configuration
and stay there until they are looked up.

* `hasPort`: the running configuration has a port of this name, in the places where
  `find_element_equiv` looks for it (`find_port`).
* `Spares`: what an element of the edit document must not be if its equivalent is to
  be deleted and a port is to stay.
* `hasPort_unlink`: a port survives the deletion of the equivalent of an element that
  spares it.
-/

set_option autoImplicit false

namespace OfConfig.Proofs

open OfConfig.Lib OfConfig.Xml OfConfig.Edit

variable {D : Doc} {anc cs : List Node} {e n s t : Node} {l : Loc} {p : List Label}

/-! ### The name of a port -/

/-- The name of a port as `matching_elements` compares it: the text at the start of
its first `name`, white space aside. -/
def portName (cs : List Node) : Option String :=
  (go2node cs "name").bind fun k => (firstText k.children).map clrwspace

/-- Neither the first child of a name nor anything below it is touched when a tree is
cut out of another child. -/
theorem go2node_unlink {name : String} (hl : Rose.get? cs l = some t)
    (h : ∀ i u, l.head? = some i → cs[i]? = some u →
      ¬ (u.label.isElement = true ∧ u.label.name = name)) :
    go2node (Rose.unlink l cs) name = go2node cs name := by
  have hskip : ∀ (u : Node) (pre post : List Node),
      ¬ (u.label.isElement = true ∧ u.label.name = name) →
      go2node (pre ++ u :: post) name = go2node (pre ++ post) name := by
    intro u pre post hu
    have hq : (u.label.isElement && decide (u.label.name = name)) = false := by
      rw [← Bool.not_eq_true]
      simpa using hu
    simp only [go2node, List.find?_append, List.find?_cons, hq]
  rcases Rose.unlink_cases hl with
    ⟨pre, post, hcs, hloc, hun⟩ | ⟨pre, u, post, l', hcs, hloc, -, hun⟩
  · have ht := h pre.length t (by rw [hloc]; rfl) (by rw [hcs]; simp)
    rw [hun, hcs, hskip t pre post ht]
  · have hu := h pre.length u (by rw [hloc]; rfl) (by rw [hcs]; simp)
    rw [hun, hcs, hskip u pre post hu, hskip _ pre post (by exact hu)]

theorem portName_unlink (hl : Rose.get? cs l = some t)
    (h : ∀ i u, l.head? = some i → cs[i]? = some u → u.label.name ≠ "name") :
    portName (Rose.unlink l cs) = portName cs := by
  rw [portName, portName, go2node_unlink hl (fun i u hi hu hn => h i u hi hu hn.2)]

/-- The path leads to the `name` of a `port` or to something below it. -/
def belowName : List Label → Bool
  | a :: b :: rest => (a.name = "name" && b.name = "port") || belowName (b :: rest)
  | _ => false

theorem belowName_of_suffix {a b : Label} {rest : List Label} (ha : a.name = "name")
    (hb : b.name = "port") (h : a :: b :: rest <:+ p) : belowName p = true := by
  obtain ⟨inner, rfl⟩ := h
  induction inner with
  | nil => simp [belowName, ha, hb]
  | cons c inner ih =>
    cases inner with
    | nil =>
      rw [List.nil_append] at ih
      rw [List.singleton_append, belowName, ih, Bool.or_true]
    | cons d inner =>
      rw [List.cons_append] at ih
      rw [List.cons_append, List.cons_append, belowName, ih, Bool.or_true]

theorem belowName_names {q : List Label} (h : p.map Label.name = q.map Label.name) :
    belowName p = belowName q := by
  induction p generalizing q with
  | nil =>
    obtain rfl := List.map_eq_nil_iff.mp h.symm
    rfl
  | cons a p ih =>
    cases q with
    | nil => simp at h
    | cons b q =>
      rw [List.map_cons, List.map_cons, List.cons.injEq] at h
      cases p with
      | nil =>
        obtain rfl := List.map_eq_nil_iff.mp h.2.symm
        rfl
      | cons c p =>
        cases q with
        | nil => simp at h
        | cons d q =>
          have hcd : c.name = d.name := by simpa using (List.cons.inj h.2).1
          rw [belowName, belowName, h.1, hcd, ih h.2]

/-! ### Ports of the running configuration -/

/-- A port that an edit document applies: the labels on its path and its name. -/
structure PortRef where
  switch : Label
  resources : Label
  port : Label
  key : String

/-- The labels on the path of a port of the capable switch. -/
def PortRef.path (w : PortRef) : List Label := [w.port, w.resources, w.switch]

/-- The path is one of a port of a capable switch. -/
def isPort : List Label → Bool
  | a :: b :: c :: _ => a.name = "port" && b.name = "resources" && c.name = "capable-switch"
  | _ => false

theorem isPort_names {q : List Label} (h : p.map Label.name = q.map Label.name) :
    isPort p = isPort q := by
  rcases p with _ | ⟨a, _ | ⟨b, _ | ⟨c, p⟩⟩⟩ <;> rcases q with _ | ⟨a', _ | ⟨b', _ | ⟨c', q⟩⟩⟩ <;>
    simp_all [isPort]

/-- The running configuration has the port, in the first root and the first
`resources` that match. -/
def hasPort (D : Doc) (w : PortRef) : Bool :=
  isPort w.path &&
    match D.find? (fun t => labelMatches w.switch t.label) with
    | none => false
    | some s =>
      match s.children.find? (fun t => labelMatches w.resources t.label) with
      | none => false
      | some r => r.children.any
          (fun y => labelMatches w.port y.label && portName y.children = some w.key)

theorem hasPort_iff {w : PortRef} : hasPort D w = true ↔ isPort w.path = true ∧
    ∃ s r y, D.find? (fun t => labelMatches w.switch t.label) = some s ∧
      s.children.find? (fun t => labelMatches w.resources t.label) = some r ∧
      y ∈ r.children ∧ labelMatches w.port y.label = true ∧
      portName y.children = some w.key := by
  rw [hasPort, Bool.and_eq_true]
  refine and_congr_right fun _ => ?_
  constructor
  · intro h
    split at h
    · cases h
    · next s hs =>
        split at h
        · cases h
        · next r hr =>
            obtain ⟨y, hy, hm⟩ := List.any_eq_true.mp h
            obtain ⟨hlab, hkey⟩ := Bool.and_eq_true_iff.mp hm
            exact ⟨s, r, y, hs, hr, hy, hlab, of_decide_eq_true hkey⟩
  · rintro ⟨s, r, y, hs, hr, hy, hlab, hkey⟩
    simp only [hs, hr]
    exact List.any_eq_true.mpr ⟨y, hy, by simp [hlab, hkey]⟩

/-! ### The lookup of a port -/

/-- The loop over the siblings returns the first one whose label matches, if nothing
else is compared. -/
theorem findMatch_of_find? {ns : List Node} (anc : List Node)
    (h : ns.find? (fun t => labelMatches e.label t.label) = some s) (hname : e.label.name ≠ "text")
    (htext : comparesText e.label.name (nameAt anc 0) = false)
    (hkey : keyName e.label.name (nameAt anc 1) = none) :
    ∃ i, findMatch e anc 0 ns = some (i, s) := by
  obtain ⟨hs, pre, post, rfl, hpre⟩ := List.find?_eq_some_iff_append.mp h
  have hm : Matches e s anc := matches_of_labelMatches hs hname htext hkey
  refine ⟨0 + pre.length, findMatch_of_first 0 (by simp) hm ?_⟩
  intro m hmem
  rw [List.take_left] at hmem
  by_contra hne
  have hlab := labelMatches_of_matches (n := m) hne
  exact absurd hlab (by simpa using hpre m hmem)

theorem find_root_of_find? (hname : n.label.name = "capable-switch")
    (h : D.find? (fun t => labelMatches n.label t.label) = some s) :
    ∃ g, findElementEquiv D [n] = some g ∧ g.node = s ∧ g.anc = [] := by
  obtain ⟨i, hi⟩ := findMatch_of_find? [] h (by rw [hname]; decide)
    (by rw [hname]; decide) (by rw [hname]; decide)
  exact ⟨⟨[i], s, []⟩, by simp [findElementEquiv, hi], rfl, rfl⟩

theorem find_resources_of_find? {p : Node} {g : Found} {r : Node}
    (hg : findElementEquiv D [p] = some g) (hanc : g.anc = []) (hname : n.label.name = "resources")
    (h : g.node.children.find? (fun t => labelMatches n.label t.label) = some r) :
    ∃ f, findElementEquiv D [n, p] = some f ∧ f.node = r ∧ f.anc = [g.node] := by
  obtain ⟨i, hi⟩ := findMatch_of_find? [g.node] h (by rw [hname]; decide)
    (by rw [hname]; rfl) (by rw [hname]; rfl)
  refine ⟨⟨g.loc ++ [i], r, [g.node]⟩, ?_, rfl, rfl⟩
  rw [findElementEquiv]
  simp only [hg, hanc, hi, Option.map_some]

/-- Two ports of one name match, unless both start with a text. -/
theorem matches_port {key : String} (hlab : labelMatches e.label n.label = true)
    (hname : e.label.name = "port") (htext : firstIsText e.children = false)
    (hanc : nameAt anc 1 = some "capable-switch") (he : portName e.children = some key)
    (hn : portName n.children = some key) : Matches e n anc := by
  obtain ⟨hel, hnl, heq, hns⟩ := (labelMatches_element (by rw [hname]; decide)).mp hlab
  rw [matches_content anc hel hnl heq hns, ContentMatches, byText, htext]
  simp only [Bool.and_false, Bool.false_and, Bool.false_eq_true, if_false]
  intro k hk
  obtain rfl : "name" = k := by
    rw [← heq, hname, hanc] at hk
    simpa [keyName] using hk
  obtain ⟨k1, hk1, hs1⟩ := Option.bind_eq_some_iff.mp he
  obtain ⟨k2, hk2, hs2⟩ := Option.bind_eq_some_iff.mp hn
  refine ⟨k1, k2, hk1, hk2, .inr (.inr ?_)⟩
  obtain ⟨t1, ht1, hc1⟩ := Option.map_eq_some_iff.mp hs1
  obtain ⟨t2, ht2, hc2⟩ := Option.map_eq_some_iff.mp hs2
  obtain ⟨c1, hh1, hl1⟩ := head_of_firstText ht1
  obtain ⟨c2, hh2, hl2⟩ := head_of_firstText ht2
  refine ⟨c1, c2, hh1, hh2, (matches_text _ (by rw [hl1]; rfl) (by rw [hl2]; rfl)).mpr ?_⟩
  rw [hl1, hl2]
  exact hc1.trans hc2.symm

/-- Conversely, ports that match have one name. -/
theorem portName_of_matches {k key : String} (h : Matches e n anc) (hname : e.label.name = "port")
    (htext : firstIsText e.children = false) (hanc : nameAt anc 1 = some "capable-switch")
    (he : portName e.children = some k) (hn : portName n.children = some key) : k = key := by
  obtain ⟨hel, hnl, heq, hns⟩ := (labelMatches_element (by rw [hname]; decide)).mp
    (labelMatches_of_matches h)
  rw [matches_content anc hel hnl heq hns, ContentMatches, byText, htext] at h
  simp only [Bool.and_false, Bool.false_and, Bool.false_eq_true, if_false] at h
  obtain ⟨k1, k2, hk1, hk2, hfirst⟩ := h "name" (by rw [← heq, hname, hanc]; rfl)
  obtain ⟨t1, ht1, rfl⟩ := Option.map_eq_some_iff.mp (by simpa [portName, hk1] using he)
  obtain ⟨t2, ht2, rfl⟩ := Option.map_eq_some_iff.mp (by simpa [portName, hk2] using hn)
  obtain ⟨c1, hh1, hl1⟩ := head_of_firstText ht1
  obtain ⟨c2, hh2, hl2⟩ := head_of_firstText ht2
  rcases hfirst with hnil | hnil | ⟨d1, d2, hd1, hd2, hm⟩
  · simp [hnil] at hh1
  · simp [hnil] at hh2
  · obtain rfl : c1 = d1 := by simpa using hh1.symm.trans hd1
    obtain rfl : c2 = d2 := by simpa using hh2.symm.trans hd2
    rw [matches_text _ (by rw [hl1]; rfl) (by rw [hl2]; rfl), hl1, hl2] at hm
    exact hm

/-- A port of the running configuration is found, and so are the nodes above it, from
the labels on the way down to it. The port itself has to come with its name. -/
theorem find_of_hasPort {w : PortRef} (h : hasPort D w = true) {inner : List Label}
    (hpath : inner ++ (n :: anc).map Rose.label = w.path)
    (hport : inner = [] → firstIsText n.children = false ∧ portName n.children = some w.key) :
    ∃ f, findElementEquiv D (n :: anc) = some f := by
  obtain ⟨hnamed, s, r, y, hs, hr, hy, hlab, hkey⟩ := hasPort_iff.mp h
  obtain ⟨⟨hwp, hwr⟩, hws⟩ : (w.port.name = "port" ∧ w.resources.name = "resources") ∧
      w.switch.name = "capable-switch" := by simpa [isPort, PortRef.path] using hnamed
  have hroot : ∀ m : Node, m.label = w.switch →
      ∃ g, findElementEquiv D [m] = some g ∧ g.node = s ∧ g.anc = [] := by
    intro m hm
    exact find_root_of_find? (by rw [hm, hws]) (by rw [hm]; exact hs)
  have hres : ∀ m b : Node, m.label = w.resources → b.label = w.switch →
      ∃ g, findElementEquiv D [m, b] = some g ∧ g.node = r ∧ g.anc = [s] := by
    intro m b hm hb
    obtain ⟨g, hg, rfl, hanc⟩ := hroot b hb
    exact find_resources_of_find? hg hanc (by rw [hm, hwr]) (by rw [hm]; exact hr)
  have hrev := congrArg List.reverse hpath
  rcases anc with _ | ⟨b, _ | ⟨c, _ | ⟨d, rest⟩⟩⟩
  · have hn : n.label = w.switch := by simp [PortRef.path] at hrev; exact hrev.1
    obtain ⟨g, hg, -⟩ := hroot n hn
    exact ⟨g, hg⟩
  · obtain ⟨hb, hn, -⟩ : b.label = w.switch ∧ n.label = w.resources ∧ inner.reverse = [w.port] := by
      simpa [PortRef.path] using hrev
    obtain ⟨g, hg, -⟩ := hres n b hn hb
    exact ⟨g, hg⟩
  · obtain ⟨hc, hb, hn, hinner⟩ : c.label = w.switch ∧ b.label = w.resources ∧
        n.label = w.port ∧ inner = [] := by simpa [PortRef.path] using hrev
    obtain ⟨htext, hname⟩ := hport hinner
    obtain ⟨g, hg, hnode, hanc⟩ := hres b c hb hc
    have hsname : s.label.name = "capable-switch" := by
      have hsl : labelMatches w.switch s.label = true := by simpa using List.find?_some hs
      rw [← labelMatches_name hsl, hws]
    have hm : Matches n y (g.node :: g.anc) := by
      refine matches_port (by rwa [hn]) (by rw [hn, hwp]) htext ?_ hname hkey
      simp [nameAt, hanc, hsname]
    cases hmatch : findMatch n (g.node :: g.anc) 0 g.node.children with
    | none =>
      rw [findMatch_eq_none_iff, hnode] at hmatch
      exact absurd (hmatch y hy) (by rw [← hnode]; exact hm)
    | some q =>
      refine ⟨⟨g.loc ++ [q.1], q.2, g.node :: g.anc⟩, ?_⟩
      rw [findElementEquiv]
      simp only [hg, hmatch, Option.map_some]
  · have hlen := congrArg List.length hpath
    simp only [PortRef.path, List.length_append, List.length_map, List.length_cons,
      List.length_nil] at hlen
    omega

/-! ### What leaves a port alone -/

/-- The equivalent of an element with this path and these children can be deleted and
the port stays: the element is not the `resources`, it is not a port that could be
found for this one, and it is not at or below the name of a port. -/
def Spares (w : PortRef) (p : List Label) (cs : List Node) : Prop :=
  match p with
  | [a, c] => c.name = "capable-switch" → a.name ≠ "resources"
  | [a, b, c] => isPort [a, b, c] = true →
      startsWithText cs = false ∧ portName cs ≠ none ∧ portName cs ≠ some w.key
  | _ => belowName p = false

instance (w : PortRef) (p : List Label) (cs : List Node) : Decidable (Spares w p cs) := by
  unfold Spares
  split <;> infer_instance

section

variable {w : PortRef} {p : List Label} {cs : List Node}

theorem Spares.child (h : Spares w p cs) {x : String}
    (hp : p.map Label.name = [x, "capable-switch"]) : x ≠ "resources" := by
  rcases p with _ | ⟨a, _ | ⟨c, _ | ⟨d, p⟩⟩⟩ <;> simp at hp
  obtain ⟨rfl, hc⟩ := hp
  exact h hc

theorem Spares.port (h : Spares w p cs)
    (hp : p.map Label.name = ["port", "resources", "capable-switch"]) :
    startsWithText cs = false ∧ portName cs ≠ none ∧ portName cs ≠ some w.key := by
  rcases p with _ | ⟨a, _ | ⟨b, _ | ⟨c, _ | ⟨d, p⟩⟩⟩⟩ <;> simp at hp
  exact h (by simp [isPort, hp])

theorem Spares.below (h : Spares w p cs) (hp : 4 ≤ p.length) : belowName p = false := by
  rcases p with _ | ⟨a, _ | ⟨b, _ | ⟨c, _ | ⟨d, p⟩⟩⟩⟩ <;> first | exact h | simp at hp

end

/-- The first node whose label matches, when one of the nodes gets other children. -/
theorem find?_newChildren {a : Label} {pre post : List Node} {u : Node} (cs : List Node)
    (h : (pre ++ u :: post).find? (fun t => labelMatches a t.label) = some s) :
    (pre ++ .node u.label cs :: post).find? (fun t => labelMatches a t.label) = some s ∨
      s = u ∧ (pre ++ .node u.label cs :: post).find? (fun t => labelMatches a t.label) =
        some (.node u.label cs) := by
  rw [List.find?_append] at h ⊢
  cases hpre : pre.find? (fun t => labelMatches a t.label) with
  | some x =>
    rw [hpre] at h
    exact .inl h
  | none =>
    rw [hpre, Option.none_or, List.find?_cons] at h
    rw [Option.none_or, List.find?_cons, Rose.label_node]
    cases hu : labelMatches a u.label with
    | true =>
      rw [hu] at h
      exact .inr ⟨(Option.some.inj h).symm, rfl⟩
    | false =>
      rw [hu] at h
      exact .inl h

/-- The names on the way down to the equivalent of a node are those of the node's own
path. -/
theorem path_names_of_find {ctx ctx' : List (Rose.Frame Label)} {f : Found}
    (hf : findElementEquiv D (Rose.chain n ctx) = some f)
    (hanc : Rose.ancestors f.node ctx' = f.anc) :
    (Rose.path f.node ctx').map Label.name = (Rose.path n ctx).map Label.name := by
  have h := find_names hf
  rw [← hanc, ← Rose.chain_eq] at h
  rw [← Rose.map_label_chain, ← Rose.map_label_chain, List.map_map, List.map_map]
  exact h

/-- The port and its name are left when a tree is cut out of the ports of the
`resources`: it is not the port, and not at or below its name. -/
theorem port_unlink {y : Node} {w : PortRef} (hl : Rose.get? cs l = some t) (hy : y ∈ cs)
    (hlab : labelMatches w.port y.label = true) (hkey : portName y.children = some w.key)
    (hself : l.length = 1 → t ≠ y)
    (hname : ∀ i j l' u, l = i :: j :: l' → cs[i]? = some u → u.label.name = w.port.name →
      ∀ v, u.children[j]? = some v → v.label.name ≠ "name") :
    ∃ y' ∈ Rose.unlink l cs, labelMatches w.port y'.label = true ∧
      portName y'.children = some w.key := by
  rcases Rose.unlink_cases hl with
    ⟨pre, post, rfl, rfl, hun⟩ | ⟨pre, u, post, l', rfl, rfl, hl', hun⟩
  · refine ⟨y, ?_, hlab, hkey⟩
    rw [hun]
    rcases List.mem_append.mp hy with h | h
    · exact List.mem_append_left _ h
    · rcases List.mem_cons.mp h with rfl | h
      · exact absurd rfl (hself rfl)
      · exact List.mem_append_right _ h
  · rw [hun]
    by_cases hyu : y = u
    · subst hyu
      refine ⟨.node y.label (Rose.unlink l' y.children), by simp, hlab, ?_⟩
      rw [Rose.children_node, portName_unlink hl', hkey]
      intro j v hj hv
      cases l' with
      | nil => cases hj
      | cons j' l' =>
        obtain rfl : j' = j := by simpa using hj
        exact hname pre.length j' l' y rfl (by simp) (labelMatches_name hlab).symm v hv
    · refine ⟨y, ?_, hlab, hkey⟩
      rcases List.mem_append.mp hy with h | h
      · exact List.mem_append_left _ h
      · exact List.mem_append_right _
          (List.mem_cons_of_mem _ ((List.mem_cons.mp h).resolve_left hyu))

/-- The port is still there when the equivalent of an element that spares it was cut
out of the running configuration. -/
theorem hasPort_unlink {w : PortRef} {ctx : List (Rose.Frame Label)} {f : Found}
    (h : hasPort D w = true) (hf : findElementEquiv D (Rose.chain n ctx) = some f) (hctx : ctx ≠ [])
    (hs : Spares w (Rose.path n ctx) n.children) : hasPort (Rose.unlink f.loc D) w = true := by
  obtain ⟨hnamed, s, r, y, hsw, hr, hy, hlab, hkey⟩ := hasPort_iff.mp h
  obtain ⟨⟨hwp, hwr⟩, hws⟩ : (w.port.name = "port" ∧ w.resources.name = "resources") ∧
      w.switch.name = "capable-switch" := by simpa [isPort, PortRef.path] using hnamed
  have hsname : s.label.name = "capable-switch" := by
    have hsl : labelMatches w.switch s.label = true := by simpa using List.find?_some hsw
    rw [← labelMatches_name hsl, hws]
  have hrname : r.label.name = "resources" := by
    have hrl : labelMatches w.resources r.label = true := by simpa using List.find?_some hr
    rw [← labelMatches_name hrl, hwr]
  have hyname : y.label.name = "port" := by rw [← labelMatches_name hlab, hwp]
  refine hasPort_iff.mpr ⟨hnamed, ?_⟩
  obtain ⟨ctx', hfoc, hanc⟩ := find_focus hf
  have hnames := path_names_of_find hf hanc
  have hlabels := Rose.labelsTo_of_focus? hfoc
  -- the tree is cut out below the root, below the `resources`, and among or below the ports
  rcases Rose.unlink_cases (Rose.get?_of_focus? hfoc) with
    ⟨pre, post, -, hloc, -⟩ | ⟨pre, u, post, l₁, hD, hloc, hl₁, hun⟩
  · have hlen := length_loc_of_find hf
    have hpos := List.length_pos_iff.mpr hctx
    rw [hloc, Rose.length_chain] at hlen
    simp only [List.length_cons, List.length_nil] at hlen
    omega
  rw [hun]
  have hu : D[pre.length]? = some u := by
    rw [hD]
    simp
  rw [hloc, Rose.labelsTo_cons hu] at hlabels
  rw [hD] at hsw
  rcases find?_newChildren (Rose.unlink l₁ u.children) hsw with hsame | ⟨rfl, hnew⟩
  · exact ⟨s, r, y, hsame, hr, hy, hlab, hkey⟩
  rcases Rose.unlink_cases hl₁ with
    ⟨pre₁, post₁, hcs, rfl, hun₁⟩ | ⟨pre₁, v, post₁, l₂, hcs, rfl, hl₂, hun₁⟩
  · -- a child of the root: the element that spares the port is not the `resources`
    have hne : f.node.label.name ≠ "resources" := by
      have hv : s.children[pre₁.length]? = some f.node := by
        rw [hcs]
        simp
      rw [Rose.labelsTo_cons hv, Rose.labelsTo, Option.map_some, Option.map_some] at hlabels
      refine hs.child ?_
      rw [← hnames, ← List.reverse_reverse (Rose.path f.node ctx'), ← Option.some.inj hlabels]
      simp [hsname]
    have hskip : labelMatches w.resources f.node.label = false := by
      rw [← Bool.not_eq_true]
      intro hm
      exact hne (by rw [← labelMatches_name hm, hwr])
    refine ⟨_, r, y, hnew, ?_, hy, hlab, hkey⟩
    rw [hcs] at hr
    rw [Rose.children_node, hun₁, ← hr, List.find?_append, List.find?_append, List.find?_cons,
      hskip]
  have hv : s.children[pre₁.length]? = some v := by
    rw [hcs]
    simp
  rw [Rose.labelsTo_cons hv] at hlabels
  rw [hcs] at hr
  rcases find?_newChildren (Rose.unlink l₂ v.children) hr with hsame | ⟨rfl, hnew₁⟩
  · exact ⟨_, r, y, hnew, by rw [Rose.children_node, hun₁]; exact hsame, hy, hlab, hkey⟩
  have hself : l₂.length = 1 → f.node ≠ y := by
    rintro hlen rfl
    obtain ⟨i, rfl⟩ := List.length_eq_one_iff.mp hlen
    rw [Rose.get?_one] at hl₂
    rw [Rose.labelsTo_cons hl₂, Rose.labelsTo] at hlabels
    simp only [Option.map_some, Option.some.injEq] at hlabels
    have hpath : (Rose.path n ctx).map Label.name = ["port", "resources", "capable-switch"] := by
      rw [← hnames, ← List.reverse_reverse (Rose.path f.node ctx'), ← hlabels]
      simp [hsname, hrname, hyname]
    obtain ⟨htext, hsome, hdiff⟩ := hs.port hpath
    obtain ⟨k, hk⟩ := Option.ne_none_iff_exists'.mp hsome
    have hnname : n.label.name = "port" := by
      rw [← find_name hf, hyname]
    have hgrand : nameAt f.anc 1 = some "capable-switch" := by
      have hup := congrArg (fun ns => ns[1]?) (List.cons.inj (find_names hf)).2
      have hup' := congrArg (fun ns => ns[2]?) hpath
      rw [← Rose.map_label_chain, Rose.chain_eq] at hup'
      simp only [List.map_map, List.getElem?_map, List.map_cons, List.getElem?_cons_succ,
        List.getElem?_cons_zero] at hup hup'
      rw [nameAt, hup]
      exact hup'
    have heq := portName_of_matches (find_matches hf) hnname
      (firstIsText_of_startsWithText htext) hgrand hk hkey
    exact hdiff (by rw [hk, heq])
  have hname : ∀ i j l' u, l₂ = i :: j :: l' → r.children[i]? = some u →
      u.label.name = w.port.name → ∀ v, u.children[j]? = some v → v.label.name ≠ "name" := by
    rintro i j l' u rfl hi hup v hj hvn
    rw [Rose.labelsTo_cons hi, Rose.labelsTo_cons hj] at hlabels
    cases hls : Rose.labelsTo v.children l' with
    | none => simp [hls] at hlabels
    | some ls =>
      simp only [hls, Option.map_some, Option.some.injEq] at hlabels
      have hpath : Rose.path f.node ctx' =
          ls.reverse ++ [v.label, u.label, r.label, s.label] := by
        rw [← List.reverse_reverse (Rose.path f.node ctx'), ← hlabels]
        simp
      have hbelow : belowName (Rose.path f.node ctx') = true :=
        belowName_of_suffix hvn (hup.trans hwp) ⟨ls.reverse, hpath.symm⟩
      rw [belowName_names hnames] at hbelow
      have hlen : 4 ≤ (Rose.path n ctx).length := by
        have hlen := congrArg List.length hnames
        rw [List.length_map, List.length_map, hpath] at hlen
        simp at hlen
        omega
      simp [hs.below hlen] at hbelow
  obtain ⟨y', hy', hlab', hkey'⟩ := port_unlink hl₂ hy hlab hkey hself hname
  exact ⟨_, .node r.label (Rose.unlink l₂ r.children), y', hnew,
    by rw [Rose.children_node, hun₁]; exact hnew₁, hy', hlab', hkey'⟩

end OfConfig.Proofs
