import OfConfig.Ovs.Backend

/-!
# `OfConfig.Proofs.Tunnels`: the tunnel of an interface

A tunnel is kept in the options of the interface, one option for each leaf
(`key` and `vni` share one), and its kind in `external_ids`. One function
adds options without overwriting, one overwrites, one removes a fixed list
and one renders by kind.

`ShowsTunnel` says that an interface shows a tunnel. `ShowsTunnel.step` is
what one call does under its condition `Careful`, and
`tunnel_shown_of_careful` follows for runs: the configuration shows the last
tunnel that was added, with the later changes, and after a delete nothing is
left.
-/

set_option autoImplicit false

namespace OfConfig.Proofs

open OfConfig.Lib OfConfig.Xml OfConfig.Edit OfConfig.Ovs

/-! ### Tunnels -/

/-- The branches of the choice. -/
inductive TunnelKind where
  | tunnel
  | ipgre
  | vxlan
deriving DecidableEq

/-- The element of a branch. -/
def TunnelKind.text : TunnelKind → String
  | .tunnel => "tunnel"
  | .ipgre => "ipgre-tunnel"
  | .vxlan => "vxlan-tunnel"

/-- The leaves of a tunnel. -/
inductive TunnelLeaf where
  | localIp
  | remoteIp
  | csum
  | key
  | vni
deriving DecidableEq

/-- The element of a leaf. -/
def TunnelLeaf.text : TunnelLeaf → String
  | .localIp => "local-endpoint-ipv4-adress"
  | .remoteIp => "remote-endpoint-ipv4-adress"
  | .csum => "checksum-present"
  | .key => "key"
  | .vni => "vni"

/-- The option of a leaf. -/
def TunnelLeaf.option : TunnelLeaf → String
  | .localIp => "local_ip"
  | .remoteIp => "remote_ip"
  | .csum => "csum"
  | .key => "key"
  | .vni => "key"

/-- The leaves of a branch. -/
def TunnelKind.has : TunnelKind → TunnelLeaf → Bool
  | _, .localIp => true
  | _, .remoteIp => true
  | .ipgre, .csum => true
  | .ipgre, .key => true
  | .vxlan, .vni => true
  | _, _ => false

/-- A tunnel: a branch and values for some of its leaves. -/
structure Tunnel where
  kind : TunnelKind
  val : TunnelLeaf → Option String
  fits : ∀ leaf, kind.has leaf = false → val leaf = none

/-- A leaf of the tunnel gets a value, or loses it. -/
def Tunnel.set (t : Tunnel) (leaf : TunnelLeaf) (value : Option String) : Tunnel where
  kind := t.kind
  val l := if l = leaf ∧ t.kind.has l = true then value else t.val l
  fits l hl := by
    rw [if_neg (fun hand => Bool.false_ne_true (hl.symm.trans hand.2))]
    exact t.fits l hl

/-- The element of a leaf with its value. -/
def Tunnel.leafText (t : Tunnel) (leaf : TunnelLeaf) : String := putOption leaf.text (t.val leaf)

/-- The configuration of a tunnel. -/
def Tunnel.text (t : Tunnel) : String :=
  put t.kind.text (t.leafText .localIp ++ t.leafText .remoteIp ++ t.leafText .csum ++
    t.leafText .key ++ t.leafText .vni)

theorem Tunnel.leafText_eq_empty {t : Tunnel} {leaf : TunnelLeaf} (h : t.kind.has leaf = false) :
    t.leafText leaf = "" := by
  rw [leafText, t.fits leaf h]
  rfl

/-- An element describes a tunnel: it has each leaf once at most, with a
content. -/
structure Describes (node : Node) (t : Tunnel) : Prop where
  name : node.label.name = t.kind.text
  leaves : ∀ leaf : TunnelLeaf, (node.children.filter (fun c =>
    c.label.isElement && c.label.name = leaf.text)).map firstContent = (t.val leaf).toList.map some

/-! ### Calls -/

/-- A call for the tunnel of an interface. -/
inductive TunnelCall where
  /-- `txn_add_port_tunnel` -/
  | add (node : Node) (t : Tunnel) (h : Describes node t)
  /-- `txn_mod_port_tunnel_opt` -/
  | mod (leaf : TunnelLeaf) (value : Option String)
  /-- `txn_del_port_tunnel` -/
  | del (node : Node)

/-- The call. -/
def TunnelCall.exec (env : Env) (name : String) : TunnelCall → Txn Unit
  | .add node _ _ => txnAddPortTunnel (some name) node
  | .mod leaf value => txnModPortTunnelOpt (some name) leaf.text value
  | .del node => txnDelPortTunnel env (some name) node

/-- The tunnel after the call. -/
def TunnelCall.apply (T : Option Tunnel) : TunnelCall → Option Tunnel
  | .add _ t _ => some t
  | .mod leaf value => T.map (fun t => t.set leaf value)
  | .del _ => none

/-- What the code does not check. A tunnel is added only where its options
are free, or have the values already; `checksum-present` is not among the
leaves that are set. An option that the tunnel shows is changed under the
name it is shown with. A tunnel is deleted only without `checksum-present`. -/
def TunnelCall.Careful (row : Interface) : TunnelCall → Prop
  | .add _ t _ => ∀ leaf, t.kind.has leaf = true → row.options.get leaf.option = t.val leaf ∨
      leaf ≠ .csum ∧ row.options.get leaf.option = none
  | .mod leaf _ => ∀ kind : TunnelKind, row.externalIds.get "tunnel_type" = some kind.text →
      ∀ shown, kind.has shown = true → shown.option = leaf.option → shown = leaf
  | .del _ => row.options.get "csum" = none

/-- An interface shows a tunnel, or none. -/
def ShowsTunnel (T : Option Tunnel) (row : Interface) : Prop :=
  match T with
  | none => row.externalIds.get "tunnel_type" = none
  | some t => row.externalIds.get "tunnel_type" = some t.kind.text ∧
      ∀ leaf, t.kind.has leaf = true → row.options.get leaf.option = t.val leaf

/-- `get_ports_config` shows it. -/
theorem portTunnel_eq {T : Option Tunnel} {row : Interface} (h : ShowsTunnel T row) :
    portTunnel row = (T.map Tunnel.text).getD "" := by
  cases T with
  | none =>
    unfold portTunnel
    rw [show row.externalIds.get "tunnel_type" = none from h]
    rfl
  | some t =>
    obtain ⟨htype, hval⟩ := h
    have hleaf : ∀ leaf, t.kind.has leaf = true →
        findAndAppendSmapVal row.options leaf.option leaf.text = t.leafText leaf := by
      intro leaf hhas
      rw [findAndAppendSmapVal, hval leaf hhas, Tunnel.leafText]
    have hlocal := hleaf .localIp (by cases t.kind <;> rfl)
    have hremote := hleaf .remoteIp (by cases t.kind <;> rfl)
    simp only [TunnelLeaf.option, TunnelLeaf.text] at hlocal hremote
    unfold portTunnel Tunnel.text
    rw [htype]
    dsimp only [Option.map_some, Option.getD_some]
    rw [hlocal, hremote]
    -- what follows the endpoints depends on the kind
    cases hkind : t.kind with
    | tunnel =>
      have hnone : ∀ leaf, TunnelKind.tunnel.has leaf = false → t.leafText leaf = "" :=
        fun leaf h => Tunnel.leafText_eq_empty (hkind ▸ h)
      rw [hnone .csum rfl, hnone .key rfl, hnone .vni rfl]
      simp [TunnelKind.text]
    | ipgre =>
      have hcsum := hleaf .csum (by rw [hkind]; rfl)
      have hkey := hleaf .key (by rw [hkind]; rfl)
      have hvni : t.leafText .vni = "" := Tunnel.leafText_eq_empty (by rw [hkind]; rfl)
      simp only [TunnelLeaf.option, TunnelLeaf.text] at hcsum hkey
      rw [hvni, hcsum, hkey]
      simp [TunnelKind.text, String.append_assoc]
    | vxlan =>
      have hvni := hleaf .vni (by rw [hkind]; rfl)
      have hcsum : t.leafText .csum = "" := Tunnel.leafText_eq_empty (by rw [hkind]; rfl)
      have hkey : t.leafText .key = "" := Tunnel.leafText_eq_empty (by rw [hkind]; rfl)
      simp only [TunnelLeaf.option, TunnelLeaf.text] at hvni
      rw [hcsum, hkey, hvni]
      simp [TunnelKind.text]

/-! ### The interface -/

/-- The interface that a name leads to. All interfaces have names. -/
structure HasInterface (name : String) (u : Uuid) (row : Interface) (w : Work) : Prop where
  distinct : w.idl.interface.Distinct
  named : ∀ r ∈ w.idl.interface.live, r.val.name.isSome = true
  found : ∃ r, findInterface (some name) w.idl = some r ∧ r.uuid = u ∧ r.val = row

variable {name : String} {u : Uuid} {row : Interface} {w : Work}

namespace HasInterface

variable (h : HasInterface name u row w)

include h

theorem name_eq : row.name = some name := by
  obtain ⟨r, hfind, -, rfl⟩ := h.found
  exact (of_decide_eq_true (Table.first_some hfind).2).symm

theorem deref : w.idl.interface.deref u = some row := by
  obtain ⟨r, hfind, rfl, rfl⟩ := h.found
  exact h.distinct.deref (h.distinct.rowAt (Table.first_some hfind).1)

/-- A change that leaves the names. -/
theorem update {f : Interface → Interface} (hf : ∀ r, (f r).name = r.name) :
    ∃ w', updateInterface u f w = (.ok (), w') ∧ HasInterface name u (f row) w' := by
  obtain ⟨r, hfind, rfl, rfl⟩ := h.found
  refine ⟨_, rfl, h.distinct.update _ _, fun x hx => ?_, ?_⟩
  · obtain ⟨x₀, hx₀, rfl⟩ := Table.mem_live_update.mp hx
    have hname := h.named x₀ hx₀
    split
    · rw [hf]
      exact hname
    · exact hname
  · have hname : decide (some name = (f r.val).name) = true := by
      rw [hf, h.name_eq]
      exact decide_eq_true rfl
    have hfirst : (w.idl.interface.update r.uuid f).first (fun i => some name = i.name) =
        some { r with val := f r.val } := h.distinct.first_update hfind hname
    exact ⟨_, hfirst, rfl, rfl⟩

theorem find : ∃ r, readDb (findInterface (some name)) w = (.ok (some r), w) ∧ r.uuid = u ∧
    r.val = row := by
  obtain ⟨r, hfind, hu, hrow⟩ := h.found
  exact ⟨r, Prog.read_ok.mpr ⟨hfind, rfl⟩, hu, hrow⟩

omit h in
/-- Where all names are there, the search that compares with `strcmp` stops
at the same interface. -/
theorem searchInterface_run {rs : List (Row Interface)}
    (hnamed : ∀ r ∈ rs, r.val.name.isSome = true) {r : Row Interface}
    (hfind : rs.find? (fun r => some name = r.val.name) = some r) :
    searchInterface name rs w = (.ok r, w) := by
  induction rs with
  | nil => cases hfind
  | cons x rs ih =>
    obtain ⟨n, hn⟩ := Option.isSome_iff_exists.mp (hnamed x (by simp))
    have hderef : Ovs.deref x.val.name w = (.ok n, w) := Prog.ofOption_ok.mpr ⟨hn, rfl⟩
    unfold searchInterface
    rw [Prog.bind_run_ok hderef]
    by_cases heq : n = name
    · rw [List.find?_cons_of_pos (by rw [hn, heq]; exact decide_eq_true rfl)] at hfind
      rw [if_pos heq, Option.some.inj hfind]
      rfl
    · rw [List.find?_cons_of_neg (by
        rw [hn, decide_eq_true_iff]
        exact fun h => heq (Option.some.inj h).symm)] at hfind
      rw [if_neg heq]
      exact ih (fun r hr => hnamed r (by simp [hr])) hfind

end HasInterface

/-! ### Adding options -/

/-- The first value that the children have for an option. -/
def firstGiven (cs : List Node) (option : String) : Option String :=
  (cs.find? (fun c => c.label.isElement && tunnelOption c.label.name = some option)).bind
    firstContent

theorem firstGiven_cons (c : Node) (cs : List Node) (option : String) :
    firstGiven (c :: cs) option =
      if (if c.label.isElement then tunnelOption c.label.name else none) = some option then
        firstContent c else firstGiven cs option := by
  cases helem : c.label.isElement with
  | false => simp [firstGiven, helem]
  | true =>
    by_cases hopt : tunnelOption c.label.name = some option
    · simp [firstGiven, helem, hopt]
    · simp [firstGiven, helem, hopt]

/-- All options of the children have a value. -/
def AllGiven (cs : List Node) : Prop :=
  ∀ c ∈ cs, c.label.isElement = true → (tunnelOption c.label.name).isSome = true →
    (firstContent c).isSome = true

/-- One round of `txn_add_port_tunnel`. -/
def addLeaf (u : Uuid) (c : Node) : Txn Unit := do
  match if c.label.isElement then tunnelOption c.label.name else none with
  | none => pure ()
  | some key =>
    let r ← readDb (fun db => db.interface.deref u)
    addOption u key (firstContent c) ((r.bind (fun r => r.options.get key)).isSome)

/-- The end of `txn_add_port_tunnel`. -/
def setTunnelType (u : Uuid) (node : Node) : Txn Unit :=
  updateInterface u (fun r =>
    { r with type := some (if node.label.name = "vxlan-tunnel" then "vxlan" else "gre")
             externalIds := r.externalIds.replace "tunnel_type" node.label.name })

theorem txnAddPortTunnel_run {node : Node} {r : Row Interface}
    (hsearch : searchInterface name w.idl.interface.live w = (.ok r, w)) :
    txnAddPortTunnel (some name) node w =
      (Prog.forEach node.children (addLeaf r.uuid) >>= fun _ => setTunnelType r.uuid node) w := by
  have hargument : argument (some name) w = (.ok name, w) := rfl
  have hlive : readDb (fun db => db.interface.live) w = (.ok w.idl.interface.live, w) := rfl
  unfold txnAddPortTunnel
  rw [Prog.bind_run_ok hargument, Prog.bind_run_ok hlive, Prog.bind_run_ok hsearch]
  rfl

/-- A round sets the option of its child, unless it has a value. -/
theorem HasInterface.addLeaf_run (h : HasInterface name u row w) {c : Node} {cs : List Node}
    (hgiven : AllGiven (c :: cs)) : ∃ w' row', addLeaf u c w = (.ok (), w') ∧
      HasInterface name u row' w' ∧ row'.externalIds = row.externalIds ∧
      ∀ option, (row'.options.get option).or (firstGiven cs option) =
        (row.options.get option).or (firstGiven (c :: cs) option) := by
  have hcons := firstGiven_cons c cs
  have hvalue := hgiven c (by simp)
  unfold addLeaf
  cases hkey : (if c.label.isElement then tunnelOption c.label.name else none) with
  | none =>
    refine ⟨w, row, rfl, h, rfl, fun option => ?_⟩
    rw [hcons, hkey, if_neg (by simp)]
  | some key =>
    obtain ⟨helem, hopt⟩ : c.label.isElement = true ∧ tunnelOption c.label.name = some key := by
      simpa using hkey
    obtain ⟨v, hv⟩ := Option.isSome_iff_exists.mp (hvalue helem (by rw [hopt]; rfl))
    have hread : readDb (fun db => db.interface.deref u) w = (.ok (some row), w) :=
      Prog.read_ok.mpr ⟨h.deref, rfl⟩
    dsimp only
    rw [Prog.bind_run_ok hread, Option.bind_some]
    unfold addOption
    cases hold : row.options.get key with
    | some old =>
      refine ⟨w, row, rfl, h, rfl, fun option => ?_⟩
      rw [hcons, hkey]
      by_cases heq : key = option
      · rw [if_pos (by rw [heq]), ← heq, hold]
        rfl
      · rw [if_neg (fun hs => heq (Option.some.inj hs))]
    | none =>
      obtain ⟨w', hrun, h'⟩ := h.update (f := fun r =>
        { r with options := r.options.addOnce key v }) (fun _ => rfl)
      have hderef : Ovs.deref (firstContent c) w = (.ok v, w) :=
        Prog.ofOption_ok.mpr ⟨hv, rfl⟩
      refine ⟨w', _, (Prog.bind_run_ok hderef).trans hrun, h', rfl, fun option => ?_⟩
      rw [hcons, hkey, Smap.get_addOnce, hold, hv]
      by_cases heq : key = option
      · subst heq
        rw [if_pos rfl, if_pos rfl, hold]
        rfl
      · rw [if_neg (fun hs => heq hs.symm), if_neg (fun hs => heq (Option.some.inj hs))]

/-- `txn_add_port_tunnel` succeeds. It sets the options that are free, the
type, and the kind of the tunnel. -/
theorem HasInterface.addPortTunnel (h : HasInterface name u row w) {node : Node}
    (hgiven : AllGiven node.children) :
    ∃ w' row', txnAddPortTunnel (some name) node w = (.ok (), w') ∧ HasInterface name u row' w' ∧
      row'.externalIds = row.externalIds.replace "tunnel_type" node.label.name ∧
      ∀ option, row'.options.get option =
        (row.options.get option).or (firstGiven node.children option) := by
  obtain ⟨r, hfind, hu, -⟩ := h.found
  rw [txnAddPortTunnel_run (HasInterface.searchInterface_run h.named hfind), hu]
  -- the invariant: what the row has, or will get from the children that are left
  let I (cs : List Node) (w : Work) : Prop := AllGiven cs ∧ ∃ row', HasInterface name u row' w ∧
    row'.externalIds = row.externalIds ∧ ∀ option,
      (row'.options.get option).or (firstGiven cs option) =
        (row.options.get option).or (firstGiven node.children option)
  have hstart : I node.children w := ⟨hgiven, row, h, rfl, fun _ => rfl⟩
  obtain ⟨w₁, hloop, -, row₁, h₁, hext, hopt⟩ : ∃ w₁,
      Prog.forEach node.children (addLeaf u) w = (.ok (), w₁) ∧ I [] w₁ := by
    refine Prog.forEach_run hstart fun c cs s hs => ?_
    obtain ⟨hall, row', h', hext, hopt⟩ := hs
    obtain ⟨s', row'', hrun, h'', hext', hopt'⟩ := h'.addLeaf_run hall
    exact ⟨s', hrun, fun c hc => hall c (by simp [hc]), row'', h'', hext'.trans hext,
      fun option => (hopt' option).trans (hopt option)⟩
  obtain ⟨w', hrun, h'⟩ := h₁.update (f := fun r =>
    { r with type := some (if node.label.name = "vxlan-tunnel" then "vxlan" else "gre")
             externalIds := r.externalIds.replace "tunnel_type" node.label.name }) (fun _ => rfl)
  refine ⟨w', _, (Prog.bind_run_ok hloop).trans hrun, h', ?_, fun option => ?_⟩
  · rw [hext]
  · have hlast := hopt option
    rwa [firstGiven, List.find?_nil, Option.bind_none, Option.or_none] at hlast

/-- The elements that `txn_add_port_tunnel` takes. -/
theorem tunnelOption_eq_some {n option : String} :
    tunnelOption n = some option ↔
      ∃ leaf : TunnelLeaf, leaf ≠ .csum ∧ n = leaf.text ∧ leaf.option = option := by
  constructor
  · intro h
    unfold tunnelOption at h
    split at h
    · exact ⟨.localIp, by decide, ‹_›, Option.some.inj h⟩
    · split at h
      · exact ⟨.remoteIp, by decide, ‹_›, Option.some.inj h⟩
      · split at h
        · next hkey =>
            rcases hkey with hkey | hvni
            · exact ⟨.key, by decide, hkey, Option.some.inj h⟩
            · exact ⟨.vni, by decide, hvni, Option.some.inj h⟩
        · cases h
  · rintro ⟨leaf, hne, rfl, rfl⟩
    cases leaf with
    | csum => exact absurd rfl hne
    | localIp => rfl
    | remoteIp => rfl
    | key => rfl
    | vni => rfl

/-- Two leaves of a tunnel do not share an option. -/
theorem TunnelKind.option_inj {kind : TunnelKind} {a b : TunnelLeaf} (ha : kind.has a = true)
    (hb : kind.has b = true) (h : a.option = b.option) : a = b := by
  revert h ha hb
  cases kind <;> cases a <;> cases b <;> decide

namespace Describes

variable {node : Node} {t : Tunnel} (h : Describes node t)

include h

/-- A leaf of the element has the value of the tunnel. -/
theorem content {c : Node} (hc : c ∈ node.children) (helem : c.label.isElement = true)
    {leaf : TunnelLeaf} (hname : c.label.name = leaf.text) :
    ∃ v, firstContent c = some v ∧ t.val leaf = some v := by
  have hmem : c ∈ node.children.filter (fun c => c.label.isElement && c.label.name = leaf.text) :=
    List.mem_filter.mpr ⟨hc, by simp [helem, hname]⟩
  have hcontent := List.mem_map_of_mem (f := firstContent) hmem
  rw [h.leaves leaf] at hcontent
  obtain ⟨v, hv, heq⟩ := List.mem_map.mp hcontent
  exact ⟨v, heq.symm, Option.mem_toList.mp hv⟩

theorem allGiven : AllGiven node.children := by
  intro c hc helem hopt
  obtain ⟨option, hoption⟩ := Option.isSome_iff_exists.mp hopt
  obtain ⟨leaf, -, hname, -⟩ := tunnelOption_eq_some.mp hoption
  obtain ⟨v, hv, -⟩ := h.content hc helem hname
  rw [hv]
  rfl

/-- The value for the option of a leaf is the one of the tunnel. -/
theorem firstGiven_eq {leaf : TunnelLeaf} (hhas : t.kind.has leaf = true) (hne : leaf ≠ .csum) :
    firstGiven node.children leaf.option = t.val leaf := by
  have hsame : node.children.filter (fun c =>
        c.label.isElement && tunnelOption c.label.name = some leaf.option) =
      node.children.filter (fun c => c.label.isElement && c.label.name = leaf.text) := by
    refine List.filter_congr fun c hc => ?_
    cases helem : c.label.isElement with
    | false => rfl
    | true =>
      rw [Bool.true_and, Bool.true_and]
      refine decide_eq_decide.mpr ⟨fun hopt => ?_, fun hname => ?_⟩
      · obtain ⟨leaf', -, hname, hopt'⟩ := tunnelOption_eq_some.mp hopt
        obtain ⟨v, -, hv⟩ := h.content hc helem hname
        have hhas' : t.kind.has leaf' = true := by
          cases hhas' : t.kind.has leaf' with
          | true => rfl
          | false =>
            rw [t.fits leaf' hhas'] at hv
            cases hv
        rw [hname, TunnelKind.option_inj hhas' hhas hopt']
      · exact tunnelOption_eq_some.mpr ⟨leaf, hne, hname, rfl⟩
  rw [firstGiven, ← List.head?_filter, hsame]
  have hhead := congrArg List.head? (h.leaves leaf)
  rw [List.head?_map] at hhead
  cases hval : t.val leaf with
  | none =>
    rw [hval] at hhead
    rw [Option.map_eq_none_iff.mp hhead]
    rfl
  | some v =>
    rw [hval] at hhead
    obtain ⟨c, hc, hv⟩ := Option.map_eq_some_iff.mp hhead
    rw [hc]
    exact hv

end Describes

theorem firstGiven_csum (cs : List Node) : firstGiven cs "csum" = none := by
  have hnone : cs.find? (fun c =>
      c.label.isElement && tunnelOption c.label.name = some "csum") = none := by
    refine List.find?_eq_none.mpr fun c _ hc => ?_
    obtain ⟨-, hopt⟩ : c.label.isElement = true ∧ tunnelOption c.label.name = some "csum" := by
      simpa using hc
    obtain ⟨leaf, hne, -, hoption⟩ := tunnelOption_eq_some.mp hopt
    revert hne hoption
    cases leaf <;> decide
  rw [firstGiven, hnone]
  rfl

/-! ### Steps -/

/-- `txn_add_port_tunnel` -/
theorem HasInterface.add (h : HasInterface name u row w) {node : Node} {t : Tunnel}
    (hd : Describes node t) (hcareful : (TunnelCall.add node t hd).Careful row) :
    ∃ w' row', txnAddPortTunnel (some name) node w = (.ok (), w') ∧ HasInterface name u row' w' ∧
      ShowsTunnel (some t) row' := by
  obtain ⟨w', row', hrun, h', hext, hopt⟩ := h.addPortTunnel hd.allGiven
  refine ⟨w', row', hrun, h', ?_, fun leaf hhas => ?_⟩
  · rw [hext, Smap.get_replace, if_pos rfl, hd.name]
  · rw [hopt]
    rcases hcareful leaf hhas with hsame | ⟨hne, hfree⟩
    · rw [hsame]
      by_cases hcsum : leaf = .csum
      · subst hcsum
        rw [show TunnelLeaf.csum.option = "csum" from rfl, firstGiven_csum, Option.or_none]
      · rw [hd.firstGiven_eq hhas hcsum, Option.or_self]
    · rw [hfree, hd.firstGiven_eq hhas hne, Option.none_or]

theorem tunnelOptKey_text (leaf : TunnelLeaf) : tunnelOptKey leaf.text = some leaf.option := by
  cases leaf <;> rfl

/-- An option gets a value, or is removed. -/
def setOption (key : String) (value : Option String) (m : Smap) : Smap :=
  match value with
  | some v => m.replace key v
  | none => m.remove key

theorem get_setOption (key : String) (value : Option String) (m : Smap) (key' : String) :
    (setOption key value m).get key' = if key' = key then value else m.get key' := by
  cases value with
  | none => exact Smap.get_remove m key key'
  | some v => exact Smap.get_replace m key v key'

/-- `txn_mod_port_tunnel_opt` -/
theorem HasInterface.mod (h : HasInterface name u row w) {T : Option Tunnel}
    (hshows : ShowsTunnel T row) {leaf : TunnelLeaf} {value : Option String}
    (hcareful : (TunnelCall.mod leaf value).Careful row) :
    ∃ w' row', txnModPortTunnelOpt (some name) leaf.text value w = (.ok (), w') ∧
      HasInterface name u row' w' ∧ ShowsTunnel (T.map (fun t => t.set leaf value)) row' := by
  obtain ⟨r, hread, hu, -⟩ := h.find
  obtain ⟨w', hrun, h'⟩ := h.update (f := fun r =>
    { r with options := setOption leaf.option value r.options }) (fun _ => rfl)
  refine ⟨w', _, ?_, h', ?_⟩
  · unfold txnModPortTunnelOpt
    rw [tunnelOptKey_text]
    dsimp only
    rw [Prog.bind_run_ok hread, ← hrun, ← hu]
    rfl
  · cases T with
    | none => exact hshows
    | some t =>
      obtain ⟨htype, hval⟩ := hshows
      refine ⟨htype, fun shown hhas => ?_⟩
      have honly := hcareful t.kind htype shown hhas
      show (setOption leaf.option value row.options).get shown.option = (t.set leaf value).val shown
      rw [get_setOption]
      by_cases hoption : shown.option = leaf.option
      · rw [if_pos hoption]
        exact (if_pos ⟨honly hoption, hhas⟩).symm
      · have hne : shown ≠ leaf := fun heq => hoption (congrArg TunnelLeaf.option heq)
        rw [if_neg hoption, hval shown hhas]
        exact (if_neg (fun hand => hne hand.1)).symm

/-- Nothing of a tunnel is left. -/
def Cleared (row : Interface) : Prop :=
  row.externalIds.get "tunnel_type" = none ∧ ∀ leaf : TunnelLeaf, row.options.get leaf.option = none

/-- `txn_del_port_tunnel` -/
theorem HasInterface.del (h : HasInterface name u row w) (env : Env) (node : Node)
    (hcareful : (TunnelCall.del node).Careful row) :
    ∃ w' row', txnDelPortTunnel env (some name) node w = (.ok (), w') ∧
      HasInterface name u row' w' ∧ Cleared row' := by
  obtain ⟨r, hread, hu, -⟩ := h.find
  obtain ⟨w₁, hrun₁, h₁⟩ := h.update (f := fun r =>
    { r with options := ((r.options.remove "local_ip").remove "remote_ip").remove "key"
             externalIds := r.externalIds.remove "tunnel_type" }) (fun _ => rfl)
  obtain ⟨w', hrun, h'⟩ := h₁.update (f := fun r =>
    { r with type := some (plainType env name) }) (fun _ => rfl)
  refine ⟨w', _, ?_, h', ?_, fun leaf => ?_⟩
  · have hname : Ovs.deref (some name) w₁ = (.ok name, w₁) := rfl
    rw [← hu] at hrun₁ hrun
    unfold txnDelPortTunnel
    rw [Prog.bind_run_ok hread]
    dsimp only
    rw [Prog.bind_run_ok hrun₁, Prog.bind_run_ok hname]
    exact hrun
  · exact (Smap.get_remove _ _ _).trans (if_pos rfl)
  · have hcsum : row.options.get "csum" = none := hcareful
    simp only [Smap.get_remove]
    cases leaf with
    | csum => simpa [TunnelLeaf.option] using hcsum
    | localIp => simp [TunnelLeaf.option]
    | remoteIp => simp [TunnelLeaf.option]
    | key => simp [TunnelLeaf.option]
    | vni => simp [TunnelLeaf.option]

/-- One call that meets its condition. -/
theorem HasInterface.step (h : HasInterface name u row w) {T : Option Tunnel}
    (hshows : ShowsTunnel T row) (env : Env) {c : TunnelCall} (hcareful : c.Careful row) :
    ∃ w' row', c.exec env name w = (.ok (), w') ∧ HasInterface name u row' w' ∧
      ShowsTunnel (c.apply T) row' ∧ (∀ node, c = .del node → Cleared row') := by
  cases c with
  | add node t hd =>
    obtain ⟨w', row', hrun, h', hshows'⟩ := h.add hd hcareful
    exact ⟨w', row', hrun, h', hshows', fun _ hc => by cases hc⟩
  | mod leaf value =>
    obtain ⟨w', row', hrun, h', hshows'⟩ := h.mod hshows hcareful
    exact ⟨w', row', hrun, h', hshows', fun _ hc => by cases hc⟩
  | del node =>
    obtain ⟨w', row', hrun, h', hcleared⟩ := h.del env node hcareful
    exact ⟨w', row', hrun, h', hcleared.1, fun _ _ => hcleared⟩

/-! ### Runs -/

/-- Every call of a run meets its condition in the state before it. -/
def CarefulRun (env : Env) (name : String) : List TunnelCall → Work → Prop
  | [], _ => True
  | c :: cs, w => (∀ r, findInterface (some name) w.idl = some r → c.Careful r.val) ∧
      CarefulRun env name cs (c.exec env name w).2

theorem HasInterface.run {env : Env} {T : Option Tunnel} {calls : List TunnelCall}
    (h : HasInterface name u row w) (hshows : ShowsTunnel T row)
    (hcareful : CarefulRun env name calls w) :
    ∃ w' row', Prog.forEach calls (TunnelCall.exec env name) w = (.ok (), w') ∧
      HasInterface name u row' w' ∧ ShowsTunnel (calls.foldl TunnelCall.apply T) row' ∧
      (∀ node, calls.getLast? = some (.del node) → Cleared row') := by
  induction calls generalizing T row w with
  | nil => exact ⟨w, row, rfl, h, hshows, fun _ hlast => by cases hlast⟩
  | cons c calls ih =>
    obtain ⟨hc, hrest⟩ := hcareful
    obtain ⟨r, hfind, -, hrow⟩ := h.found
    obtain ⟨w₁, row₁, hrun₁, h₁, hshows₁, hdel₁⟩ := h.step hshows env (hrow ▸ hc r hfind)
    rw [hrun₁] at hrest
    cases calls with
    | nil =>
      refine ⟨w₁, row₁, Prog.bind_run_ok hrun₁, h₁, hshows₁, fun node hlast => ?_⟩
      exact hdel₁ node (Option.some.inj hlast)
    | cons c' calls =>
      obtain ⟨w', row', hrun, h', hshows', hdel⟩ := ih h₁ hshows₁ hrest
      refine ⟨w', row', (Prog.bind_run_ok hrun₁).trans hrun, h', hshows', fun node hlast => ?_⟩
      exact hdel node (by rwa [List.getLast?_cons_cons] at hlast)

/-- After a run of calls that meet their conditions, the configuration shows
the tunnel that was added last, with the later changes. After a delete nothing
of a tunnel is left. -/
theorem tunnel_shown_of_careful {env : Env} {T : Option Tunnel} {calls : List TunnelCall}
    (h : HasInterface name u row w) (hshows : ShowsTunnel T row)
    (hcareful : CarefulRun env name calls w) :
    ∃ w' row', Prog.forEach calls (TunnelCall.exec env name) w = (.ok (), w') ∧
      HasInterface name u row' w' ∧
      portTunnel row' = ((calls.foldl TunnelCall.apply T).map Tunnel.text).getD "" ∧
      (∀ node, calls.getLast? = some (.del node) → Cleared row') := by
  obtain ⟨w', row', hrun, h', hshows', hdel⟩ := h.run hshows hcareful
  exact ⟨w', row', hrun, h', portTunnel_eq hshows', hdel⟩

/-! ### A change of the kind, with and without a delete -/

/-- An interface without a tunnel. -/
def plainInterface : Work :=
  { idl := { interface := [⟨0, false, true, { name := some "eth0" }⟩] } }

/-- A leaf of a tunnel. -/
def leafNode (leaf : TunnelLeaf) (value : String) : Node := elem leaf.text none [txt value]

/-- A GRE tunnel with a key. -/
def greTunnel : Tunnel where
  kind := .ipgre
  val
    | .remoteIp => some "10.0.0.1"
    | .key => some "5"
    | _ => none
  fits leaf h := by cases leaf <;> first | rfl | cases h

/-- Its element. -/
def greNode : Node :=
  elem "ipgre-tunnel" none [leafNode .remoteIp "10.0.0.1", leafNode .key "5"]

/-- A VXLAN tunnel. -/
def vxlanTunnel : Tunnel where
  kind := .vxlan
  val
    | .remoteIp => some "10.0.0.2"
    | .vni => some "7"
    | _ => none
  fits leaf h := by cases leaf <;> first | rfl | cases h

/-- Its element. -/
def vxlanNode : Node :=
  elem "vxlan-tunnel" none [leafNode .remoteIp "10.0.0.2", leafNode .vni "7"]

theorem greNode_describes : Describes greNode greTunnel :=
  ⟨rfl, fun leaf => by cases leaf <;> rfl⟩

theorem vxlanNode_describes : Describes vxlanNode vxlanTunnel :=
  ⟨rfl, fun leaf => by cases leaf <;> rfl⟩

/-- The GRE tunnel is added, gets another endpoint and is deleted before the
VXLAN tunnel is added. -/
def switchKind : List TunnelCall :=
  [.add greNode greTunnel greNode_describes, .mod .localIp (some "10.0.0.9"), .del greNode,
    .add vxlanNode vxlanTunnel vxlanNode_describes]

/-- The options and the kind that a call sees. -/
def seen (w : Work) : Option (Smap × Smap) :=
  (findInterface (some "eth0") w.idl).map (fun r => (r.val.options, r.val.externalIds))

theorem careful_of_seen {w : Work} (options ids : Smap) {c : TunnelCall}
    (h : seen w = some (options, ids))
    (hc : ∀ row : Interface, row.options = options → row.externalIds = ids → c.Careful row) :
    ∀ r, findInterface (some "eth0") w.idl = some r → c.Careful r.val := by
  intro r hr
  rw [seen, hr, Option.map_some, Option.some.injEq, Prod.mk.injEq] at h
  exact hc r.val h.1 h.2

/-- A tunnel without `checksum-present` may be added where there is no
option. -/
theorem careful_add_of_free {node : Node} {t : Tunnel} {hd : Describes node t} {row : Interface}
    (hrow : row.options = []) (hcsum : t.val .csum = none) :
    (TunnelCall.add node t hd).Careful row := by
  intro leaf _
  rw [hrow]
  by_cases hleaf : leaf = .csum
  · subst hleaf
    exact .inl hcsum.symm
  · exact .inr ⟨hleaf, rfl⟩

theorem careful_switchKind : CarefulRun grantingEnv "eth0" switchKind plainInterface := by
  refine ⟨careful_of_seen [] [] rfl fun row h _ => careful_add_of_free h rfl,
    careful_of_seen [("remote_ip", "10.0.0.1"), ("key", "5")] [("tunnel_type", "ipgre-tunnel")]
      (by decide) fun row _ _ kind _ shown _ hoption => ?_,
    careful_of_seen [("remote_ip", "10.0.0.1"), ("key", "5"), ("local_ip", "10.0.0.9")]
      [("tunnel_type", "ipgre-tunnel")] (by decide) fun row h _ => ?_,
    careful_of_seen [] [] (by decide) fun row h _ => careful_add_of_free h rfl, trivial⟩
  · revert hoption
    cases shown <;> decide
  · show row.options.get "csum" = none
    rw [h]
    decide

theorem tunnel_shown_of_careful_switch : CarefulRun grantingEnv "eth0" switchKind plainInterface ∧
    ∃ w' row', Prog.forEach switchKind (TunnelCall.exec grantingEnv "eth0") plainInterface =
        (.ok (), w') ∧ HasInterface "eth0" 0 row' w' ∧ portTunnel row' = vxlanTunnel.text := by
  have hstart : HasInterface "eth0" 0 { name := some "eth0" } plainInterface :=
    ⟨by simp [Table.Distinct, plainInterface], by decide, _, rfl, rfl, rfl⟩
  obtain ⟨w', row', hrun, h', htext, -⟩ :=
    tunnel_shown_of_careful (T := none) hstart rfl careful_switchKind
  exact ⟨careful_switchKind, w', row', hrun, h', htext⟩

/-- The element with `checksum-present`. -/
def csumNode : Node := elem "ipgre-tunnel" none [leafNode .csum "true"]

/-- What the configuration shows of the tunnel of `eth0`. -/
def shownTunnel (w : Work) : Option String :=
  (findInterface (some "eth0") w.idl).map (fun r => portTunnel r.val)

/-- A new tunnel loses `checksum-present`. A second tunnel shows the endpoint
of the first one. A delete leaves the option `csum`, and the next tunnel shows
it. -/
theorem tunnel_values_mixed :
    shownTunnel (txnAddPortTunnel (some "eth0") csumNode plainInterface).2 =
        some "<ipgre-tunnel></ipgre-tunnel>" ∧
      shownTunnel (Prog.forEach [TunnelCall.add greNode greTunnel greNode_describes,
          .add vxlanNode vxlanTunnel vxlanNode_describes] (TunnelCall.exec grantingEnv "eth0")
          plainInterface).2 =
        some ("<vxlan-tunnel><remote-endpoint-ipv4-adress>10.0.0.1</remote-endpoint-ipv4-adress>" ++
          "<vni>5</vni></vxlan-tunnel>") ∧
      shownTunnel (Prog.forEach [TunnelCall.add greNode greTunnel greNode_describes,
          .mod .csum (some "true"), .del greNode, .add greNode greTunnel greNode_describes]
          (TunnelCall.exec grantingEnv "eth0") plainInterface).2 =
        some ("<ipgre-tunnel><remote-endpoint-ipv4-adress>10.0.0.1</remote-endpoint-ipv4-adress>" ++
          "<checksum-present>true</checksum-present><key>5</key></ipgre-tunnel>") := by
  refine ⟨by decide, by decide, by decide +kernel⟩

end OfConfig.Proofs
