import OfConfig.Proofs.EditCalls
import OfConfig.Proofs.OpAttributes

/-!
# `OfConfig.Proofs.EditRuns`: what a request leaves in a local datastore

`ofcds_editconfig` on a clean datastore, for a clean request, from the text to
the paths of the new document:

* `merge_request_paths`, `merge_request_twice`: a request without operations
  succeeds and lays what was sent over the datastore. Sent once more, it changes
  nothing.
* `replace_request_paths`: with the default to replace, what was sent is all
  that is left.
* `request_phases`: a request with operations goes through the phases of
  `OfConfig.Proofs.EditPaths`.
* `delete_request_paths`: a request that only deletes cuts off the paths with an
  operation. The compaction may have dropped some of the operations, but only
  below another one.
-/

set_option autoImplicit false

namespace OfConfig.Proofs

open OfConfig.Lib OfConfig.Xml OfConfig.Edit

variable {σ : Type}

/-! ### Requests without operations -/

section

variable {cfg : Doc}

theorem has_key {la : List Label} {n : Node} {key : String} (h : Identified la n)
    (hkey : keyName n.label.name (nameUp la 1) = some key) :
    (go2node n.children key).isNone = false := by
  obtain ⟨v, hv⟩ := Option.isSome_iff_exists.mp (h.entry key hkey).1
  obtain ⟨k, hk, -⟩ := keyValue_eq_some hv
  simp [hk]

theorem keyName_of_resourceKey {name key : String} (h : resourceKey name = some key) :
    keyName name (some "capable-switch") = some key := by
  rw [resourceKey] at h
  split at h
  · next hname => simpa [keyName, hname] using h
  · split at h
    · next hname => rcases hname with rfl | rfl | rfl <;> simpa [keyName] using h
    · split at h
      · next hname => simpa [keyName, hname] using h
      · simp at h

theorem not_missesId {la : List Label} {n : Node} {name : String}
    (hname : name = "controller" ∨ name = "switch")
    (h : n.label.isElement = true → Identified la n) : missesId name n = false := by
  rw [missesId]
  cases hel : n.label.isElement with
  | false => rfl
  | true =>
    by_cases heq : n.label.name = name
    · have hkey : keyName n.label.name (nameUp la 1) = some "id" := by simp [keyName, heq, hname]
      simp [has_key (h hel) hkey]
    · simp [heq]

/-- The list entries of a clean document have their keys. -/
theorem checkKeys_of_sent (h : Sent cfg) : checkKeys cfg = .success := by
  rcases sent_cases h with rfl | ⟨e, rfl, hel⟩
  · rfl
  · have hname : e.label.name = "capable-switch" := (h.here.top rfl e (by simp)).2 hel
    have hbelow := h.child (List.mem_singleton_self e)
    have hnone : e.children.findSome? missingKeyBelow = none := by
      refine List.findSome?_eq_none_iff.mpr fun l1 hl1 => ?_
      have hbelow1 := hbelow.child hl1
      rw [missingKeyBelow]
      split
      · rfl
      · split
        · refine List.find?_eq_none.mpr fun l2 hl2 => ?_
          rw [missesResourceKey]
          cases hel2 : l2.label.isElement with
          | false => simp
          | true =>
            cases hkey : resourceKey l2.label.name with
            | none => simp
            | some key =>
              have hkey' : keyName l2.label.name (nameUp [l1.label, e.label] 1) = some key := by
                rw [nameUp, List.getElem?_cons_succ]
                simpa [hname] using keyName_of_resourceKey hkey
              simp [has_key (hbelow1.here.named l2 hl2 hel2) hkey']
        · split
          · refine List.findSome?_eq_none_iff.mpr fun l2 hl2 => ?_
            have hbelow2 := hbelow1.child hl2
            rw [switchMissingKey]
            split
            · rfl
            · rw [not_missesId (.inr rfl) (hbelow1.here.named l2 hl2), if_neg (by simp)]
              split
              · rfl
              · next l3 hl3 =>
                  have hbelow3 := hbelow2.child (List.mem_of_find?_eq_some hl3)
                  refine List.find?_eq_none.mpr fun l4 hl4 => ?_
                  rw [not_missesId (.inl rfl) (hbelow3.here.named l4 hl4)]
                  simp
          · rfl
    have hroot : rootElement [e] = some e := by simp [rootElement, hel]
    rw [checkKeys, hroot]
    simp [hnone]

/-- Without operations there is nothing to compact. -/
theorem compactR_of_noOp (n : Node) (h : AllIn NoOp n) (supreme : Option EditOp) :
    compactEditOperationsR supreme n = some n := by
  induction n using Rose.induct with
  | h l cs ih =>
    have hop : getOperation l = .unset := by
      have hl : opAttr l = none := h.self
      rw [getOperation, hl]
    have hcs : ∀ ds : List Node, (∀ c ∈ ds, c ∈ cs) → compactChildren supreme ds = some ds := by
      intro ds
      induction ds with
      | nil => exact fun _ => rfl
      | cons c ds ihds =>
        intro hsub
        rw [compactChildren, ih c (hsub c (by simp)) (h.children c (hsub c (by simp))),
          ihds fun d hd => hsub d (by simp [hd])]
        rfl
    rw [compactEditOperationsR, hop, hcs cs fun _ hc => hc]
    rfl

theorem compact_of_noOp (h : AllLabels NoOp cfg) (noneCast : Option EditOp) (defop : DefOp) :
    compactEditOperations noneCast defop cfg = some cfg := by
  induction cfg with
  | nil => rfl
  | cons n ns ih =>
    rw [compactEditOperations, compactR_of_noOp n (h n (by simp)),
      ih fun m hm => h m (by simp [hm])]
    simp

theorem not_hasOp_of_noOp (h : AllLabels NoOp cfg) (op : EditOp) (l : Loc) : ¬ HasOp op cfg l := by
  rintro ⟨n, hget, -, hop⟩
  obtain ⟨ctx, hf⟩ := Rose.exists_focus? hget
  have hnone : opAttr n.label = none := h.path ⟨l, n, ctx, hf, rfl⟩
  simp [hnone] at hop

theorem getOperationElements_of_noOp (h : AllLabels NoOp cfg) (op : EditOp) :
    getOperationElements op cfg = [] :=
  List.eq_nil_iff_forall_not_mem.mpr fun l hl =>
    not_hasOp_of_noOp h op l ((mem_getOperationElements op cfg l).mp hl)

/-- A clean request without operations passes the checks. -/
theorem checkRequest_of_noOp (env : Setup) (defop : DefOp) (cfgds : Option Doc) (hcfg : Sent cfg)
    (h : AllLabels NoOp cfg) : checkRequest env defop cfgds cfg = .success := by
  simp [checkRequest, checkKeys_of_sent hcfg, checkEditOps, getOperationElements_of_noOp h,
    checkEditOpsLoop]

/-- Then the phases do nothing. -/
theorem editOperations_of_noOp (fuel : Nat) (B : Backend σ) (defop : DefOp) (st : EditState σ)
    (hdef : defop ≠ .replace) (h : AllLabels NoOp st.edit) :
    editOperations fuel false B defop st =
      let r := if defop = .merge ∨ defop = .notset then docLoop fuel (defaultMergeRound false B) st
        else (.success, st)
      (setOpFailed r.1, r.2) := by
  have hphase : ∀ op, thenPhase fuel false B op (.success, st) = (.success, st) := fun op =>
    opPhase_of_empty _ (getOperationElements_of_noOp h op)
  rw [editOperations_eq, beforePhase, beforeDelete, if_neg hdef]
  simp only [hphase]
  rfl

end

/-! ### Requests to the server -/

section

variable {env : Setup} {B : Backend σ} {t : Datastore} {config : String} {defop : DefOp}
  {srv : Server σ} {cfg : Doc}

/-- The document of a local datastore, an empty one if there is none. -/
def docOf (srv : Server σ) (t : Datastore) : Doc := (srv.gds t).getD []

theorem validConfigRoot_of_sent (h : Sent cfg) : validConfigRoot cfg = true := by
  rcases sent_cases h with rfl | ⟨e, rfl, hel⟩
  · rfl
  · have hname := (h.here.top rfl e (by simp)).2 hel
    simp [validConfigRoot, rootElement, hel, hname]

/-- `ofcds_editconfig` on a local datastore edits the document of that
datastore. -/
theorem editconfig_local (B : Backend σ) (defop : DefOp) (srv : Server σ)
    (ht : t.isLocal = true) (hread : env.read config = some cfg) (hcfg : Sent cfg) :
    (ofcdsEditconfig env B t config defop srv).1 =
        (editLocal env B (effectiveDefop defop) (srv.gds t) cfg srv.world).1 ∧
      (ofcdsEditconfig env B t config defop srv).2.gds t =
        (editLocal env B (effectiveDefop defop) (srv.gds t) cfg srv.world).2 ∧
      (ofcdsEditconfig env B t config defop srv).2.gds t.other = srv.gds t.other := by
  have hfilter : (env.read config).filter validConfigRoot = some cfg := by
    rw [hread]
    simp [validConfigRoot_of_sent hcfg]
  cases t <;> simp [Datastore.isLocal] at ht <;>
    simp [ofcdsEditconfig, hfilter, Server.gds, storeRollback, effectiveDefop, Datastore.other]

/-- Laying a clean document without operations over a clean one. The checks
pass, the compaction and the phases have nothing to do, and the default merge
goes through within two rounds. -/
theorem editLocal_merge {cfgds : Option Doc} (B : Backend σ) (w : σ)
    (hD : Stored (cfgds.getD [])) (hcfg : Sent cfg) (hops : AllLabels NoOp cfg)
    (hfuel : 2 ≤ env.fuel) :
    (editLocal env B .merge cfgds cfg w).1 = .success ∧
      HasPaths ((editLocal env B .merge cfgds cfg w).2.getD [])
        (View.overlay KeyPath (Shows (cfgds.getD [])) (Shows cfg)) := by
  have hcheck := checkRequest_of_noOp env .merge cfgds hcfg hops
  have hcompact := compact_of_noOp hops env.noneCast .merge
  have hrun := editOperations_of_noOp env.fuel B .merge ⟨cfgds.getD [], cfg, w⟩ (by simp) hops
  rcases defaultMerge_hasPaths env.fuel B w hD hcfg with ⟨st', hloop, hpaths⟩ | ⟨-, hlt⟩
  · rw [if_pos (.inl rfl), hloop] at hrun
    obtain ⟨hsucc, horig⟩ := editLocal_of_success env B w hcheck hcompact hrun
    rw [horig]
    exact ⟨hsucc, hpaths⟩
  · omega

/-- A document with operations goes through the phases, path by path, if the
default operation is not to replace. -/
theorem editLocal_phases {cfgds : Option Doc} {w : σ} (hD : Stored (cfgds.getD []))
    (hcfg : Sent cfg) (horder : Orderly (viewOf (cfgds.getD []) cfg)) (hdef : defop ≠ .replace)
    (hsucc : (editLocal env B defop cfgds cfg w).1 = .success) :
    ∃ edit W, compactEditOperations env.noneCast defop cfg = some edit ∧
      EditView.Phases ⟨Shows (cfgds.getD []), Shows cfg, OpAt edit⟩ W ∧
      HasPaths ((editLocal env B defop cfgds cfg w).2.getD []) (W.finish defop) := by
  rcases editLocal_cases env B w defop cfgds cfg with ⟨hfail, -⟩ |
    ⟨edit, hcheck, hcompact, hout, horig⟩
  · exact absurd hsucc hfail
  · obtain ⟨-, hshows, -⟩ := compact_sent hcfg hcompact
    obtain ⟨-, hphases⟩ := editOperations_phases env.fuel B
      (editing_of_check env w hD hcfg horder hcheck hcompact) hdef
    obtain ⟨W, hW, hpaths⟩ := hphases (hout.symm.trans hsucc)
    rw [stateView, viewOf, hshows] at hW
    rw [horig]
    exact ⟨edit, W, hcompact, hW, hpaths⟩

/-- A clean request without operations and with the default to merge lays what
was sent over a clean local datastore, and succeeds. -/
theorem merge_request_paths (ht : t.isLocal = true) (hread : env.read config = some cfg)
    (hcfg : Sent cfg) (hops : AllLabels NoOp cfg) (hdef : effectiveDefop defop = .merge)
    (hfuel : 2 ≤ env.fuel) (hD : Stored (docOf srv t)) :
    (ofcdsEditconfig env B t config defop srv).1 = .success ∧
      HasPaths (docOf (ofcdsEditconfig env B t config defop srv).2 t)
        (View.overlay KeyPath (Shows (docOf srv t)) (Shows cfg)) := by
  obtain ⟨hout, hdoc, -⟩ := editconfig_local B defop srv ht hread hcfg
  rw [hout, docOf, hdoc, hdef]
  exact editLocal_merge B srv.world hD hcfg hops hfuel

theorem allLabels_of_paths {P : Label → Prop} {d : Doc}
    (h : ∀ p ∈ allPaths d, ∀ x ∈ p.head?, P x) : AllLabels P d := by
  intro n hn
  obtain ⟨i, hi⟩ := List.mem_iff_getElem?.mp hn
  have hf : Rose.focus? d [i] = some (n, []) := by simp [Rose.focus?, hi, Rose.focusIn]
  exact allIn_of_paths hf fun x p hp _ => h _ (mem_allPaths hp) x rfl

/-- A server whose startup datastore has the port `eth0`. -/
def portServer : Server Unit := ofcdsInit (some (ofcSwitch [ofcPort "eth0" "1" none])) ()

theorem stored_portServer : Stored (docOf portServer .startup) :=
  stored_of_check 6 (by decide)

/-- The port gets another number, and there is a second port. -/
theorem merge_request_paths_ports :
    let cfg := ofcSwitch [ofcPort "eth0" "2" none, ofcPort "eth1" "3" none]
    let r := ofcdsEditconfig (.ofDocs [cfg]) idleBackend .startup (xmlText cfg) .merge portServer
    r.1 = .success ∧ HasPaths (docOf r.2 .startup)
      (View.overlay KeyPath (Shows (docOf portServer .startup)) (Shows cfg)) :=
  merge_request_paths rfl (Setup.read_ofDocs _ _) (sent_of_check 6 (by decide))
    (allLabels_of_paths (by decide)) rfl (by decide) stored_portServer

/-- A text of a clean edit document has nothing below it. -/
theorem sent_leaf (hcfg : Sent cfg) {p q : List Ident} {s : String} {x : Option String}
    (hq : Shows cfg q (some s)) (hqp : q <+: p) (hp : Shows cfg p x) : p = q := by
  have hq' := hq
  rw [shows_sent] at hq'
  obtain ⟨l, n, la, k, hget, hids, hk, hview⟩ := Rose.Addressing.exists_get_of_viewAt hq'
  have hel := (identAt_eq_some.mp hk).1
  obtain ⟨ctx, hf⟩ := Rose.exists_focus? hget
  have hids' := idsTo_of_focus (A := texts) hcfg hf hel
  obtain rfl := Option.some.inj (hids.symm.trans hids')
  have hwithin : View.within (chainIds (Rose.chain n ctx)) (Shows cfg) p x := ⟨hp, hqp⟩
  rw [← nodePaths_of_focus hcfg hf hel,
    nodePaths_of_ownText (placed_of_focus hcfg hf hel) hview] at hwithin
  exact hwithin.1

/-- Sending it once more changes no path. -/
theorem merge_request_twice (ht : t.isLocal = true) (hread : env.read config = some cfg)
    (hcfg : Sent cfg) (hops : AllLabels NoOp cfg) (hdef : effectiveDefop defop = .merge)
    (hfuel : 2 ≤ env.fuel) (hD : Stored (docOf srv t)) :
    Shows (docOf (ofcdsEditconfig env B t config defop
        (ofcdsEditconfig env B t config defop srv).2).2 t) =
      Shows (docOf (ofcdsEditconfig env B t config defop srv).2 t) := by
  obtain ⟨-, hdoc, -⟩ := editconfig_local B defop srv ht hread hcfg
  obtain ⟨-, hdoc', -⟩ := editconfig_local B defop (ofcdsEditconfig env B t config defop srv).2 ht
    hread hcfg
  obtain ⟨-, honce⟩ := editLocal_merge B srv.world hD hcfg hops hfuel
  rw [← hdef, ← hdoc] at honce
  obtain ⟨-, htwice⟩ := editLocal_merge B (ofcdsEditconfig env B t config defop srv).2.world
    honce.stored hcfg hops hfuel
  rw [← hdef, ← hdoc'] at htwice
  rw [docOf, docOf, htwice.paths, honce.paths]
  refine View.overlay_idem ?_ fun p q s x hq hqp hp => sent_leaf hcfg hq hqp hp
  rw [shows_sent]
  exact fun p x y => Rose.Addressing.viewAt_unique hcfg

/-- Two ports, sent twice. -/
theorem merge_request_twice_ports :
    let cfg := ofcSwitch [ofcPort "eth0" "2" none, ofcPort "eth1" "3" none]
    let edit := ofcdsEditconfig (.ofDocs [cfg]) idleBackend .startup (xmlText cfg) .merge
    Shows (docOf (edit (edit portServer).2).2 .startup) =
      Shows (docOf (edit portServer).2 .startup) :=
  merge_request_twice rfl (Setup.read_ofDocs _ _) (sent_of_check 6 (by decide))
    (allLabels_of_paths (by decide)) rfl (by decide) stored_portServer

/-- With the default to replace, a request that succeeds leaves what was sent,
whatever operations are in it; and without operations it succeeds. -/
theorem replace_request_paths (ht : t.isLocal = true) (hread : env.read config = some cfg)
    (hcfg : Sent cfg) (hne : cfg ≠ []) (hdef : defop = .replace) (hfuel : 2 ≤ env.fuel)
    (hD : Stored (docOf srv t)) :
    ((ofcdsEditconfig env B t config defop srv).1 = .success →
      HasPaths (docOf (ofcdsEditconfig env B t config defop srv).2 t) (Shows cfg)) ∧
    (AllLabels NoOp cfg → (ofcdsEditconfig env B t config defop srv).1 = .success) := by
  subst hdef
  obtain ⟨hout, hdoc, -⟩ := editconfig_local B .replace srv ht hread hcfg
  rw [hout, docOf, hdoc, show effectiveDefop .replace = .replace from rfl]
  refine ⟨fun hsucc => ?_, fun hops => ?_⟩
  · rcases editLocal_cases env B srv.world .replace (srv.gds t) cfg with ⟨hfail, -⟩ |
      ⟨edit, -, hcompact, -, horig⟩
    · exact absurd hsucc hfail
    · obtain ⟨hsent, hshows, -⟩ := compact_sent hcfg hcompact
      rcases editOperations_replaces B srv.world env.fuel hD hsent with ⟨-, hpaths⟩ |
        ⟨-, -, hlt⟩
      · have hedit : edit ≠ [] := by
          rintro rfl
          have hbare := compact_bare hcompact
          exact hne (by simpa using hbare.symm)
        rw [horig, ← hshows]
        rwa [if_neg hedit] at hpaths
      · omega
  · have hcheck := checkRequest_of_noOp env .replace (srv.gds t) hcfg hops
    have hcompact := compact_of_noOp hops env.noneCast .replace
    rcases editOperations_replaces B srv.world env.fuel hD hcfg with ⟨hrun, -⟩ |
      ⟨-, -, hlt⟩
    · exact (editLocal_of_success env B srv.world hcheck hcompact (Prod.ext hrun rfl)).1
    · omega

/-- One port in the place of another. -/
theorem replace_request_paths_port :
    let cfg := ofcSwitch [ofcPort "eth1" "3" none]
    let r := ofcdsEditconfig (.ofDocs [cfg]) idleBackend .startup (xmlText cfg) .replace portServer
    r.1 = .success ∧ HasPaths (docOf r.2 .startup) (Shows cfg) := by
  intro cfg r
  have hread : (Setup.ofDocs [cfg]).read (xmlText cfg) = some cfg := Setup.read_ofDocs cfg []
  have hboth := replace_request_paths (B := idleBackend) rfl hread
    (sent_of_check 6 (by decide)) (List.cons_ne_nil _ _) rfl (by decide) stored_portServer
  have hsucc := hboth.2 (allLabels_of_paths (by decide))
  exact ⟨hsucc, hboth.1 hsucc⟩

/-- A request with operations goes through the phases, path by path. -/
theorem request_phases (ht : t.isLocal = true) (hread : env.read config = some cfg)
    (hcfg : Sent cfg) (horder : Orderly (viewOf (docOf srv t) cfg))
    (hdef : effectiveDefop defop ≠ .replace) (hD : Stored (docOf srv t))
    (hsucc : (ofcdsEditconfig env B t config defop srv).1 = .success) :
    ∃ edit W, compactEditOperations env.noneCast (effectiveDefop defop) cfg = some edit ∧
      EditView.Phases ⟨Shows (docOf srv t), Shows cfg, OpAt edit⟩ W ∧
      HasPaths (docOf (ofcdsEditconfig env B t config defop srv).2 t)
        (W.finish (effectiveDefop defop)) := by
  obtain ⟨hout, hdoc, -⟩ := editconfig_local B defop srv ht hread hcfg
  rw [hout] at hsucc
  rw [docOf, docOf, hdoc]
  exact editLocal_phases hD hcfg horder hdef hsucc

/-- One port is deleted, another one created. -/
theorem request_phases_ports :
    let cfg := ofcSwitch [ofcPort "eth0" "1" (some .delete), ofcPort "eth1" "3" (some .create)]
    let r := ofcdsEditconfig (.ofDocs [cfg]) idleBackend .startup (xmlText cfg) .merge portServer
    ∃ edit W, compactEditOperations (some .create) .merge cfg = some edit ∧
      EditView.Phases ⟨Shows (docOf portServer .startup), Shows cfg, OpAt edit⟩ W ∧
      HasPaths (docOf r.2 .startup) (W.finish .merge) := by
  intro cfg r
  have hsent : Sent cfg := sent_of_check 6 (by decide)
  have horder : Orderly (viewOf (docOf portServer .startup) cfg) :=
    orderly_of_check hsent (by decide +kernel)
  have hread : (Setup.ofDocs [cfg]).read (xmlText cfg) = some cfg := Setup.read_ofDocs cfg []
  have hsucc : (ofcdsEditconfig (.ofDocs [cfg]) idleBackend .startup (xmlText cfg) .merge
      portServer).1 = .success := by
    rw [ofcdsEditconfig_startup (filter_read_ofDocs cfg [] (by decide))]
    decide +kernel
  exact request_phases rfl hread hsent horder (by decide) stored_portServer hsucc

end

/-! ### Requests that only delete -/

section

variable {cfg edit : Doc} {noneCast : Option EditOp} {defop : DefOp} {o : EditOp}

/-- An operation that is not inherited is kept by the compaction. -/
theorem opAt_of_kept (hcfg : Sent cfg) (h : compactEditOperations noneCast defop cfg = some edit)
    {l : Loc} {n : Node} {ctx : List (Rose.Frame Label)}
    (hf : Rose.focus? cfg l = some (n, ctx)) (hel : n.label.isElement = true)
    (hop : getOperation n.label = .op o)
    (hne : nearestOp (defopCast noneCast defop) (ctx.map Rose.Frame.label) ≠ some o) :
    OpAt edit o (chainIds (Rose.chain n ctx)) := by
  have hkept : ∃ n' ctx', Rose.focus? edit l = some (n', ctx') ∧ n'.label = n.label := by
    rcases compact_focus h hf with ⟨n', ctx', hf', -, hpath⟩ | ⟨-, hsame⟩
    · refine ⟨n', ctx', hf', ?_⟩
      rw [Rose.path, Rose.path, compactLabels] at hpath
      rw [(List.cons_eq_cons.mp hpath).1]
      simp only [compactLabel, hop, if_neg hne]
    · exact ⟨n, ctx, hsame, rfl⟩
  obtain ⟨n', ctx', hf', hlab⟩ := hkept
  rw [← chainIds_congr (compact_chain h hf hf')]
  refine opAt_of_focus (compact_sent hcfg h).1 hf' (by rwa [hlab]) ?_
  rw [hlab]
  exact getOperation_eq_op.mp hop

/-- A path with an operation is, after the compaction, at a path with the
operation or below one. -/
theorem exists_opAt_compact (hcfg : Sent cfg)
    (h : compactEditOperations noneCast defop cfg = some edit)
    (hcast : defopCast noneCast defop ≠ some o) {q : List Ident} (hq : OpAt cfg o q) :
    ∃ q', q' <+: q ∧ OpAt edit o q' := by
  obtain ⟨l, n, ctx, hf, ⟨m, hget, hel, hop⟩, rfl⟩ := exists_focus_of_opAt hcfg hq
  obtain rfl : m = n := Option.some.inj (hget.symm.trans (Rose.get?_of_focus? hf))
  -- the operation is inherited from above, or it is kept
  have step : ∀ l t ctx, Rose.focus? cfg l = some (t, ctx) →
      (nearestOp (defopCast noneCast defop) (ctx.map Rose.Frame.label) = some o →
        ∃ q', q' <+: chainIds (Rose.ancestors t ctx) ∧ OpAt edit o q') →
      nearestOp (defopCast noneCast defop) (Rose.path t ctx) = some o →
      ∃ q', q' <+: chainIds (Rose.chain t ctx) ∧ OpAt edit o q' := by
    intro l t ctx hf habove hnear
    by_cases hin : nearestOp (defopCast noneCast defop) (ctx.map Rose.Frame.label) = some o
    · obtain ⟨q', hq', hop'⟩ := habove hin
      exact ⟨q', hq'.trans (List.prefix_append _ _), hop'⟩
    · have hown : getOperation t.label = .op o := by
        by_contra hne
        cases hg : getOperation t.label with
        | op o' =>
          rw [Rose.path, nearestOp_op hg] at hnear
          exact hne (by rw [hg, Option.some.inj hnear])
        | unset => exact hin (by rwa [Rose.path, nearestOp_no_op (by simp [hg])] at hnear)
        | bad => exact hin (by rwa [Rose.path, nearestOp_no_op (by simp [hg])] at hnear)
      have htel : t.label.isElement = true := by
        by_contra hnot
        simp [getOperation_of_not_element (by simpa using hnot)] at hown
      exact ⟨_, List.prefix_refl _, opAt_of_kept hcfg h hf htel hown hin⟩
  refine Rose.focus_induct_loc (P := fun l t ctx =>
    nearestOp (defopCast noneCast defop) (Rose.path t ctx) = some o →
    ∃ q', q' <+: chainIds (Rose.chain t ctx) ∧ OpAt edit o q') ?_ ?_ hf ?_
  · intro i t hi
    have hfoc : Rose.focus? cfg [i] = some (t, []) := by simp [Rose.focus?, hi, Rose.focusIn]
    exact step [i] t [] hfoc fun hnil => absurd hnil hcast
  · intro l t ctx j c hfoc hc ih
    refine step _ c _ (Rose.focus?_append hfoc hc) ?_
    rw [Rose.ancestors_cons, Rose.Frame.plug_of_getElem? hc]
    exact ih
  · rw [Rose.path, nearestOp_op (getOperation_eq_op.mpr hop)]

variable {σ : Type} {env : Setup} {B : Backend σ} {t : Datastore} {config : String}
  {srv : Server σ}

/-- A request without a default operation that only deletes cuts off the paths
with an operation, and nothing else. -/
theorem delete_request_paths (ht : t.isLocal = true) (hread : env.read config = some cfg)
    (hcfg : Sent cfg) (hkeys : ∀ o q, OpAt cfg o q → (o = .delete ∨ o = .remove) ∧ ¬ KeyPath q)
    (hcast : env.noneCast ≠ some .delete ∧ env.noneCast ≠ some .remove)
    (hD : Stored (docOf srv t))
    (hsucc : (ofcdsEditconfig env B t config .none srv).1 = .success) :
    HasPaths (docOf (ofcdsEditconfig env B t config .none srv).2 t)
      (fun p x => Shows (docOf srv t) p x ∧ ∀ o q, OpAt cfg o q → ¬ q <+: p) := by
  have horder : Orderly (viewOf (docOf srv t) cfg) := by
    refine ⟨fun o q hq => (hkeys o q hq).2, ?_, fun q r hq => ?_⟩
    · rintro q (hq | hq | hq) <;> simpa using (hkeys _ q hq).1
    · simpa using (hkeys _ q hq).1
  obtain ⟨hout, hdoc, -⟩ := editconfig_local B .none srv ht hread hcfg
  rw [hout] at hsucc
  obtain ⟨edit, W, hcompact, ⟨V₁, V₂, V₃, V₄, hph₁, hph₂, hph₃, hph₄, hph₅⟩, hpaths⟩ :=
    editLocal_phases hD hcfg horder (by simp [effectiveDefop]) hsucc
  rw [← hdoc] at hpaths
  obtain ⟨-, -, hops⟩ := compact_sent hcfg hcompact
  -- the phases after the first two have nothing to do
  have hother : ∀ o, o ≠ .delete → o ≠ .remove → ∀ q, ¬ V₂.op o q := by
    intro o hdel hrem q hq
    have hedit : OpAt edit o q := hph₁.op_subset (hph₂.op_subset hq)
    exact (hkeys o q (hops o q hedit)).1.elim hdel hrem
  obtain rfl := hph₃.eq_of_none (hother .replace (by simp) (by simp))
  obtain rfl := hph₄.eq_of_none (hother .create (by simp) (by simp))
  obtain rfl := hph₅.eq_of_none (hother .merge (by simp) (by simp))
  refine ⟨hpaths.stored, hpaths.paths.trans (View.ext fun p x => ?_)⟩
  refine (hph₂.cut (.inr rfl)).trans ((and_congr_left fun _ => hph₁.cut (.inl rfl)).trans ?_)
  constructor
  · rintro ⟨⟨hx, hdel⟩, hrem⟩
    refine ⟨hx, fun o q hq hqp => ?_⟩
    rcases (hkeys o q hq).1 with rfl | rfl
    · obtain ⟨q', hq', hedit⟩ := exists_opAt_compact hcfg hcompact hcast.1 hq
      exact hdel q' hedit (hq'.trans hqp)
    · obtain ⟨q', hq', hedit⟩ := exists_opAt_compact hcfg hcompact hcast.2 hq
      refine hrem q' (hph₁.op_iff.mpr ⟨hedit, fun r hr hrq => ?_⟩) (hq'.trans hqp)
      exact hdel r hr ((hrq.trans hq').trans hqp)
  · rintro ⟨hx, hall⟩
    exact ⟨⟨hx, fun q hq => hall _ q (hops _ q hq)⟩,
      fun q hq => hall _ q (hops _ q (hph₁.op_subset hq))⟩

/-- The port is deleted. -/
theorem delete_request_paths_port :
    let cfg := ofcSwitch [ofcPort "eth0" "1" (some .delete)]
    let r := ofcdsEditconfig (.ofDocs [cfg]) idleBackend .startup (xmlText cfg) .none portServer
    HasPaths (docOf r.2 .startup) (fun p x =>
      Shows (docOf portServer .startup) p x ∧ ∀ o q, OpAt cfg o q → ¬ q <+: p) := by
  intro cfg r
  have hsent : Sent cfg := sent_of_check 6 (by decide)
  have hread : (Setup.ofDocs [cfg]).read (xmlText cfg) = some cfg := Setup.read_ofDocs cfg []
  have hsucc : (ofcdsEditconfig (.ofDocs [cfg]) idleBackend .startup (xmlText cfg) .none
      portServer).1 = .success := by
    rw [ofcdsEditconfig_startup (filter_read_ofDocs cfg [] (by decide))]
    decide +kernel
  refine delete_request_paths rfl hread hsent ?_ ⟨by decide, by decide⟩ stored_portServer hsucc
  intro o q hq
  have hmem := mem_opPaths hsent hq
  have hall : ∀ o ∈ [EditOp.delete, .remove, .replace, .create, .merge], ∀ q ∈ opPaths cfg o,
      (o = .delete ∨ o = .remove) ∧ ¬ KeyPath q := by decide
  exact hall o (by cases o <;> simp) q hmem

end

end OfConfig.Proofs
