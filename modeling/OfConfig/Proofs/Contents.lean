import OfConfig.Proofs.EditRuns
import OfConfig.Proofs.Rollback

/-!
# `OfConfig.Proofs.Contents`: runs of the datastore functions

The local datastores and the rollback copy as sets of paths (`Content`), and
what the calls of libnetconf do to them (`Content.Step`): a request goes through
the phases of `OfConfig.Proofs.EditPaths`, `<copy-config>` and
`<delete-config>` put other paths in the place of the old ones, and a rollback
brings back what was kept. On the running datastore, whose contents are in OVS
and not here, a request keeps the configuration that OVS has delivered, and
keeps it even if it fails later.

`runCalls_content` shows that the server does that, over any sequence of calls
with clean data. The assumptions on what comes from outside are those of
`CleanOutside`.
-/

set_option autoImplicit false

namespace OfConfig.Proofs

open OfConfig.Lib OfConfig.Xml OfConfig.Edit

variable {σ : Type}
variable {config : Option String} {source : Datastore}

/-! ### The abstract server -/

/-- What the server holds, as paths. -/
structure Content where
  startup : View Ident String
  cand : View Ident String
  /-- the rollback copy and the datastore it is of -/
  kept : View Ident String
  type : Datastore

namespace Content

/-- The paths of a local datastore. -/
def gds (C : Content) : Datastore → View Ident String
  | .startup => C.startup
  | .candidate => C.cand
  | _ => fun _ _ => False

/-- A local datastore gets other paths. -/
def put (C : Content) (t : Datastore) (V : View Ident String) : Content :=
  match t with
  | .startup => { C with startup := V }
  | .candidate => { C with cand := V }
  | _ => C

/-- A local datastore gets other paths, and its own are kept. -/
def change (C : Content) (t : Datastore) (V : View Ident String) : Content :=
  { C.put t V with kept := C.gds t, type := t }

/-- What a request that succeeds makes of a datastore. -/
def Edited (env : Setup) (defop : DefOp) (cfg : Doc) (V V' : View Ident String) : Prop :=
  if defop = .replace then V' = if cfg = [] then V else Shows cfg
  else ∃ edit W, compactEditOperations env.noneCast defop cfg = some edit ∧
    EditView.Phases ⟨V, Shows cfg, OpAt edit⟩ W ∧ V' = W.finish defop

/-- The paths of a running configuration that OVS may deliver. -/
def Delivered (env : Setup) (B : Backend σ) (V : View Ident String) : Prop :=
  ∃ w s, (B.getConfigData w).1 = .text s ∧ V = Shows ((env.read s).getD [])

/-- What is copied: a local datastore as it is, what OVS delivers, or what was
sent along, where an empty text stands for an empty configuration. -/
def Source (env : Setup) (B : Backend σ) (C : Content) (source : Datastore)
    (config : Option String) (V : View Ident String) : Prop :=
  match source with
  | .running => Delivered env B V
  | .startup => V = C.startup
  | .candidate => V = C.cand
  | .config => ∃ c, config = some c ∧
      if c = "" then V = Shows [] else ∃ d, env.read c = some d ∧ V = Shows d
  | _ => False

/-- What a call with a target outside of the server does to what is held here:
nothing, and then it has failed; or the target is the running datastore, and the
configuration that OVS has delivered is kept, whether the call succeeds or not. -/
def Elsewhere (env : Setup) (B : Backend σ) (o : Outcome) (C C' : Content) (t : Datastore) :
    Prop :=
  o ≠ .success ∧ C' = C ∨
    t = .running ∧ ∃ V, Delivered env B V ∧ C' = { C with kept := V, type := .running }

/-- What a call does. A request for a local datastore keeps what was there
before. If it fails it has done nothing at all, or it has kept that and may leave
the datastore in any state; a failing copy has done nothing. -/
def Step (env : Setup) (B : Backend σ) (o : Outcome) (C C' : Content) : Call → Prop
  | .lock _ _ | .unlock _ _ => C' = C
  | .editconfig t config defop =>
    if t.isLocal then
      o ≠ .success ∧ C' = C ∨ ∃ cfg V, env.read config = some cfg ∧ C' = C.change t V ∧
        (o = .success → Edited env (effectiveDefop defop) cfg (C.gds t) V)
    else Elsewhere env B o C C' t
  | .copyconfig t source config =>
    if t.isLocal then
      o ≠ .success ∧ C' = C ∨
        ∃ V, o = .success ∧ Source env B C source config V ∧ C' = C.change t V
    else Elsewhere env B o C C' t
  | .deleteconfig t => C' = if t.isLocal then C.change t (Shows []) else C
  | .rollback => o ≠ .success ∧ C' = C ∨ o = .success ∧ C' = C.put C.type C.kept

/-- A sequence of calls with their outcomes. -/
inductive Run (env : Setup) (B : Backend σ) :
    List (Call × Outcome) → Content → Content → Prop where
  | nil (C : Content) : Run env B [] C C
  | cons {c : Call} {o : Outcome} {cs : List (Call × Outcome)} {C C₁ C₂ : Content}
      (hstep : Step env B o C C₁ c) (hrun : Run env B cs C₁ C₂) : Run env B ((c, o) :: cs) C C₂

end Content

/-- What the server holds. -/
def heldBy (srv : Server σ) : Content where
  startup := Shows (docOf srv .startup)
  cand := Shows (docOf srv .candidate)
  kept := Shows (srv.rollback.doc.getD [])
  type := srv.rollback.type

/-- The calls of a run with their outcomes. -/
def outcomes (env : Setup) (B : Backend σ) : List Call → Server σ → List (Call × Outcome)
  | [], _ => []
  | c :: cs, srv => (c, (c.exec env B srv).1) :: outcomes env B cs (c.exec env B srv).2

/-! ### Clean runs -/

/-- What comes from outside is clean: a document that was printed and read
again, which shows the same paths, and the running configuration. -/
structure CleanOutside (env : Setup) (B : Backend σ) : Prop where
  reread : ∀ d d', Stored d → env.read (env.dump d) = some d' → Stored d' ∧ Shows d' = Shows d
  printed : ∀ d, env.dump d ≠ ""
  running : ∀ w s d, (B.getConfigData w).1 = .text s → env.read s = some d → Stored d

/-- The documents the server holds are clean. -/
structure CleanServer (srv : Server σ) : Prop where
  startup : Stored (docOf srv .startup)
  cand : Stored (docOf srv .candidate)
  rollback : Stored (srv.rollback.doc.getD [])

/-- A call with clean data: a configuration to be copied is clean, and one to
be merged into a local datastore is orderly there. -/
def CleanCall (env : Setup) (srv : Server σ) : Call → Prop
  | .editconfig t config defop => t.isLocal = true → ∀ cfg, env.read config = some cfg →
      Sent cfg ∧ (effectiveDefop defop ≠ .replace → Orderly (viewOf (docOf srv t) cfg))
  | .copyconfig _ _ config => ∀ c d, config = some c → c ≠ "" → env.read c = some d → Stored d
  | _ => True

/-- A sequence of such calls. -/
def CleanRun (env : Setup) (B : Backend σ) : List Call → Server σ → Prop
  | [], _ => True
  | c :: cs, srv => CleanCall env srv c ∧ CleanRun env B cs (c.exec env B srv).2

/-! ### Requests -/

section

variable {env : Setup} {B : Backend σ} {srv : Server σ} {t : Datastore}

theorem CleanOutside.read_running (henv : CleanOutside env B) {w : σ} {s : String}
    (h : (B.getConfigData w).1 = .text s) : Stored ((env.read s).getD []) := by
  cases hs : env.read s with
  | none => exact stored_nil
  | some d => exact henv.running w s d h hs

/-- A request that succeeds does what is asked: with the default to replace
what was sent takes the place of everything, with any other it goes through the
phases. -/
theorem editLocal_edited {cfgds : Option Doc} {cfg : Doc} {defop : DefOp} {w : σ}
    (hD : Stored (cfgds.getD [])) (hcfg : Sent cfg)
    (horder : defop ≠ .replace → Orderly (viewOf (cfgds.getD []) cfg))
    (hsucc : (editLocal env B defop cfgds cfg w).1 = .success) :
    Content.Edited env defop cfg (Shows (cfgds.getD []))
      (Shows ((editLocal env B defop cfgds cfg w).2.getD [])) := by
  rw [Content.Edited]
  split
  · next hdef =>
      subst hdef
      rcases editLocal_cases env B w .replace cfgds cfg with ⟨hfail, -⟩ |
        ⟨edit, -, hcompact, hout, horig⟩
      · exact absurd hsucc hfail
      · obtain ⟨hsent, hshows, -⟩ := compact_sent hcfg hcompact
        have hempty : edit = [] ↔ cfg = [] := by
          have hbare := compact_bare hcompact
          refine ⟨?_, ?_⟩ <;> rintro rfl <;> simpa using hbare
        rcases editOperations_replaces B w env.fuel hD hsent with ⟨-, hpaths⟩ | ⟨hne, -⟩
        · rw [horig, hpaths.paths, hshows]
          simp only [hempty]
        · exact absurd (hout.symm.trans hsucc) hne
  · next hdef =>
      obtain ⟨edit, W, hcompact, hW, hpaths⟩ :=
        editLocal_phases hD hcfg (horder hdef) hdef hsucc
      exact ⟨edit, W, hcompact, hW, hpaths.paths⟩

/-- What a call leaves: clean documents, and what it should do to them. -/
def Goes (env : Setup) (B : Backend σ) (c : Call) (srv : Server σ) (r : Outcome × Server σ) :
    Prop :=
  CleanServer r.2 ∧ Content.Step env B r.1 (heldBy srv) (heldBy r.2) c

theorem editconfig_goes (henv : CleanOutside env B) (hsrv : CleanServer srv) {config : String}
    {defop : DefOp} (hcall : CleanCall env srv (.editconfig t config defop)) :
    Goes env B (.editconfig t config defop) srv (ofcdsEditconfig env B t config defop srv) := by
  rw [ofcdsEditconfig]
  cases hcfg : (env.read config).filter validConfigRoot with
  | none =>
    refine ⟨hsrv, ?_⟩
    rw [Content.Step]
    split
    · exact .inl ⟨by simp, rfl⟩
    · exact .inl ⟨by simp, rfl⟩
  | some cfg =>
    have hread : env.read config = some cfg := (Option.filter_eq_some_iff.mp hcfg).1
    cases t with
    | running =>
      dsimp only
      cases hdata : B.getConfigData srv.world with
      | mk data world =>
        cases data with
        | crash =>
          exact ⟨⟨hsrv.startup, hsrv.cand, hsrv.rollback⟩, .inl ⟨by simp, rfl⟩⟩
        | null =>
          exact ⟨⟨hsrv.startup, hsrv.cand, hsrv.rollback⟩, .inl ⟨by simp, rfl⟩⟩
        | text s =>
          have htext : (B.getConfigData srv.world).1 = .text s := by rw [hdata]
          exact ⟨⟨hsrv.startup, hsrv.cand, henv.read_running htext⟩,
            .inr ⟨rfl, _, ⟨srv.world, s, htext, rfl⟩, rfl⟩⟩
    | startup =>
      obtain ⟨hsent, horder⟩ := hcall rfl cfg hread
      exact ⟨⟨editLocal_stored env B srv.world hsrv.startup hsent horder, hsrv.cand,
        hsrv.startup⟩, .inr ⟨cfg, _, hread, rfl, editLocal_edited hsrv.startup hsent horder⟩⟩
    | candidate =>
      obtain ⟨hsent, horder⟩ := hcall rfl cfg hread
      exact ⟨⟨hsrv.startup, editLocal_stored env B srv.world hsrv.cand hsent horder,
        hsrv.cand⟩, .inr ⟨cfg, _, hread, rfl, editLocal_edited hsrv.cand hsent horder⟩⟩
    | _ => exact ⟨hsrv, .inl ⟨by simp, rfl⟩⟩

/-! ### Copies -/

/-- The source of a copy is clean. -/
theorem copySource_clean (henv : CleanOutside env B) (hsrv : CleanServer srv)
    (hconfig : ∀ c d, config = some c → c ≠ "" → env.read c = some d → Stored d) {src : Option Doc}
    (h : copySource env B source config srv = .ok src) :
    Stored (src.getD []) ∧
      Content.Source env B (heldBy srv) source config (Shows (src.getD [])) := by
  cases source with
  | running =>
    simp only [copySource] at h
    split at h
    · simp at h
    · simp at h
    · next s hdata =>
        split at h
        · simp at h
        · next d hs =>
            cases h
            exact ⟨henv.running srv.world s d hdata hs, srv.world, s, hdata, by rw [hs]⟩
  | startup =>
    cases h
    exact ⟨hsrv.startup, rfl⟩
  | candidate =>
    cases h
    exact ⟨hsrv.cand, rfl⟩
  | config =>
    cases config with
    | none => simp [copySource] at h
    | some c =>
      simp only [copySource] at h
      split at h
      · next hempty =>
          cases h
          exact ⟨stored_nil, c, rfl, by rw [if_pos hempty]; rfl⟩
      · next hne =>
          split at h
          · simp at h
          · next d hd =>
              cases h
              exact ⟨hconfig c d rfl hne hd, c, rfl, by rw [if_neg hne]; exact ⟨d, hd, rfl⟩⟩
  | error => simp [copySource] at h
  | url => simp [copySource] at h

/-- Reading the source changes no document. -/
theorem afterSource_clean (hsrv : CleanServer srv) (source : Datastore) :
    CleanServer (afterSource B source srv) ∧
      heldBy (afterSource B source srv) = heldBy srv := by
  rw [afterSource]
  split
  · exact ⟨⟨hsrv.startup, hsrv.cand, hsrv.rollback⟩, rfl⟩
  · exact ⟨hsrv, rfl⟩

/-- The old document is kept, unless a rollback is going on. -/
theorem keepRollback_clean (hsrv : CleanServer srv) (doc : Option Doc) (hdoc : Stored (doc.getD []))
    (type : Datastore) : CleanServer (keepRollback doc type srv) := by
  rw [keepRollback]
  split
  · exact hsrv
  · exact ⟨hsrv.startup, hsrv.cand, hdoc⟩

theorem heldBy_keepRollback (doc : Option Doc) (type : Datastore) (srv : Server σ) :
    heldBy (keepRollback doc type srv) = if srv.rollbacking then heldBy srv
      else { heldBy srv with kept := Shows (doc.getD []), type := type } := by
  rw [keepRollback]
  split <;> rfl

/-- A copy to a local datastore puts the source there. -/
theorem copyconfig_local {src : Option Doc} (ht : t.isLocal = true)
    (h : copySource env B source config srv = .ok src) :
    ofcdsCopyconfig env B t source config srv =
      (.success, setGds (keepRollback (srv.gds t) t (afterSource B source srv)) t src) := by
  cases t <;> simp [Datastore.isLocal] at ht <;>
    simp [ofcdsCopyconfig, h, setGds, Server.gds]

theorem setGds_clean (hsrv : CleanServer srv) (t : Datastore) {doc : Option Doc}
    (hdoc : Stored (doc.getD [])) : CleanServer (setGds srv t doc) := by
  cases t with
  | startup => exact ⟨hdoc, hsrv.cand, hsrv.rollback⟩
  | candidate => exact ⟨hsrv.startup, hdoc, hsrv.rollback⟩
  | _ => exact hsrv

theorem heldBy_setGds (srv : Server σ) (t : Datastore) (doc : Option Doc) :
    heldBy (setGds srv t doc) = (heldBy srv).put t (Shows (doc.getD [])) := by
  cases t <;> rfl

theorem CleanServer.docOf (hsrv : CleanServer srv) (t : Datastore) : Stored (docOf srv t) := by
  cases t with
  | startup => exact hsrv.startup
  | candidate => exact hsrv.cand
  | _ => exact stored_nil

theorem put_keepRollback (ht : t.isLocal = true) (V : View Ident String) :
    (heldBy (keepRollback (srv.gds t) t srv)).put t V =
      if srv.rollbacking then (heldBy srv).put t V else (heldBy srv).change t V := by
  rw [heldBy_keepRollback]
  split
  · rfl
  · cases t <;> simp [Datastore.isLocal] at ht <;> rfl

/-- A copy to another target keeps the running configuration at most, and during
a rollback not even that. -/
theorem copyconfig_elsewhere (henv : CleanOutside env B) (hsrv : CleanServer srv)
    (source : Datastore) (config : Option String) (ht : t.isLocal = false) :
    CleanServer (ofcdsCopyconfig env B t source config srv).2 ∧
      (srv.rollbacking = true →
        heldBy (ofcdsCopyconfig env B t source config srv).2 = heldBy srv) ∧
      (srv.rollbacking = false →
        Content.Elsewhere env B (ofcdsCopyconfig env B t source config srv).1 (heldBy srv)
          (heldBy (ofcdsCopyconfig env B t source config srv).2) t) := by
  obtain ⟨hafter, hcontent⟩ := afterSource_clean (B := B) hsrv source
  rw [ofcdsCopyconfig, ← hcontent, ← rollbacking_afterSource B source srv]
  cases copySource env B source config srv with
  | error n => exact ⟨hafter, fun _ => rfl, fun _ => .inl ⟨n.outcome_ne_success, rfl⟩⟩
  | ok src =>
    cases t with
    | startup => simp [Datastore.isLocal] at ht
    | candidate => simp [Datastore.isLocal] at ht
    | running =>
      dsimp only
      cases hdata : B.getConfigData (afterSource B source srv).world with
      | mk data world =>
        cases data with
        | crash =>
          exact ⟨⟨hafter.startup, hafter.cand, hafter.rollback⟩, fun _ => rfl,
            fun _ => .inl ⟨by simp, rfl⟩⟩
        | null =>
          exact ⟨⟨hafter.startup, hafter.cand, hafter.rollback⟩, fun _ => rfl,
            fun _ => .inl ⟨by simp, rfl⟩⟩
        | text s =>
          have htext : (B.getConfigData (afterSource B source srv).world).1 = .text s := by
            rw [hdata]
          have hkeep := keepRollback_clean hafter (some ((env.read s).getD []))
            (henv.read_running htext) .running
          have hkept := heldBy_keepRollback (some ((env.read s).getD [])) .running
            (afterSource B source srv)
          refine ⟨⟨hkeep.startup, hkeep.cand, hkeep.rollback⟩, fun hbusy => ?_,
            fun hidle => .inr ⟨rfl, _, ⟨_, s, htext, rfl⟩, ?_⟩⟩
          · exact hkept.trans (if_pos hbusy)
          · exact hkept.trans (by rw [hidle]; rfl)
    | _ => exact ⟨hafter, fun _ => rfl, fun _ => .inl ⟨by simp, rfl⟩⟩

/-- A copy to a local datastore fails without a change, or puts the source
there. -/
theorem copyconfig_local_cases (henv : CleanOutside env B) (hsrv : CleanServer srv)
    (source : Datastore)
    (hconfig : ∀ c d, config = some c → c ≠ "" → env.read c = some d → Stored d)
    (ht : t.isLocal = true) :
    CleanServer (ofcdsCopyconfig env B t source config srv).2 ∧
      ((ofcdsCopyconfig env B t source config srv).1 ≠ .success ∧
          heldBy (ofcdsCopyconfig env B t source config srv).2 = heldBy srv ∨
        ∃ V, (ofcdsCopyconfig env B t source config srv).1 = .success ∧
          Content.Source env B (heldBy srv) source config V ∧
          heldBy (ofcdsCopyconfig env B t source config srv).2 =
            if srv.rollbacking then (heldBy srv).put t V else (heldBy srv).change t V) := by
  obtain ⟨hafter, hcontent⟩ := afterSource_clean (B := B) hsrv source
  cases hsrc : copySource env B source config srv with
  | error n =>
    rw [ofcdsCopyconfig, hsrc]
    exact ⟨hafter, .inl ⟨n.outcome_ne_success, hcontent⟩⟩
  | ok src =>
    obtain ⟨hdoc, hsource⟩ := copySource_clean henv hsrv hconfig hsrc
    have hgds : srv.gds t = (afterSource B source srv).gds t := by
      cases t <;> simp [Server.gds]
    rw [copyconfig_local ht hsrc, heldBy_setGds, hgds, put_keepRollback ht, hcontent,
      rollbacking_afterSource]
    refine ⟨setGds_clean (keepRollback_clean hafter _ ?_ t) t hdoc, .inr ⟨_, rfl, hsource, rfl⟩⟩
    exact hafter.docOf t

theorem copyconfig_goes (henv : CleanOutside env B) (hsrv : CleanServer srv)
    (hidle : srv.rollbacking = false) (hcall : CleanCall env srv (.copyconfig t source config)) :
    Goes env B (.copyconfig t source config) srv (ofcdsCopyconfig env B t source config srv) := by
  rw [Goes, Content.Step]
  cases ht : t.isLocal with
  | true =>
    obtain ⟨hclean, hcases⟩ := copyconfig_local_cases henv hsrv source hcall ht
    rw [hidle] at hcases
    exact ⟨hclean, hcases⟩
  | false =>
    obtain ⟨hclean, -, hstep⟩ := copyconfig_elsewhere henv hsrv source config ht
    exact ⟨hclean, hstep hidle⟩

/-! ### The other calls -/

theorem dropError_eq_success {o : Outcome} : dropError o = .success ↔ o = .success := by
  cases o <;> simp [dropError]

/-- The printed rollback copy. -/
theorem CleanOutside.kept (henv : CleanOutside env B) (hsrv : CleanServer srv) {c : String}
    {d : Doc} (hc : some (dumpLocal env srv.rollback.doc) = some c) (hne : c ≠ "")
    (hd : env.read c = some d) : Stored d ∧ Shows d = (heldBy srv).kept := by
  obtain rfl := Option.some.inj hc
  have hkept := hsrv.rollback
  rw [heldBy]
  cases hdoc : srv.rollback.doc with
  | none => exact absurd (by rw [hdoc]; rfl) hne
  | some doc =>
    rw [hdoc] at hd hkept
    exact henv.reread doc d hkept hd

theorem CleanOutside.source_kept (henv : CleanOutside env B) (hsrv : CleanServer srv)
    {V : View Ident String}
    (h : Content.Source env B (heldBy srv) .config (some (dumpLocal env srv.rollback.doc)) V) :
    V = (heldBy srv).kept := by
  obtain ⟨c, hc, hV⟩ := h
  split at hV
  · next hempty =>
      rw [hV, heldBy]
      cases hdoc : srv.rollback.doc with
      | none => rfl
      | some doc =>
        rw [hdoc, hempty] at hc
        exact absurd (Option.some.inj hc) (henv.printed doc)
  · next hne =>
      obtain ⟨d, hd, rfl⟩ := hV
      exact (henv.kept hsrv hc hne hd).2

/-- A rollback brings back what was kept. -/
theorem rollback_goes (henv : CleanOutside env B) (hsrv : CleanServer srv) :
    Goes env B .rollback srv (ofcdsRollback env B srv) := by
  rw [ofcdsRollback]
  split
  · exact ⟨hsrv, .inl ⟨by simp, rfl⟩⟩
  · have hbusy : CleanServer { srv with rollbacking := true } :=
      ⟨hsrv.startup, hsrv.cand, hsrv.rollback⟩
    have hconfig : ∀ c d, some (dumpLocal env srv.rollback.doc) = some c → c ≠ "" →
        env.read c = some d → Stored d := fun c d hc hne hd => (henv.kept hsrv hc hne hd).1
    rw [Goes, Content.Step, ne_eq, dropError_eq_success]
    cases ht : srv.rollback.type.isLocal with
    | true =>
      obtain ⟨hclean, hcases⟩ := copyconfig_local_cases henv hbusy .config hconfig ht
      refine ⟨⟨hclean.startup, hclean.cand, hclean.rollback⟩, hcases.imp id ?_⟩
      rintro ⟨V, hout, hV, hput⟩
      rw [henv.source_kept hsrv hV] at hput
      exact ⟨hout, hput⟩
    | false =>
      obtain ⟨hclean, hsame, -⟩ := copyconfig_elsewhere henv hbusy .config
        (some (dumpLocal env srv.rollback.doc)) ht
      have hput : (heldBy srv).put srv.rollback.type (heldBy srv).kept = heldBy srv := by
        cases htype : srv.rollback.type <;> simp [htype, Datastore.isLocal] at ht <;> rfl
      refine ⟨⟨hclean.startup, hclean.cand, hclean.rollback⟩, ?_⟩
      by_cases hout : (ofcdsCopyconfig env B srv.rollback.type .config
          (some (dumpLocal env srv.rollback.doc)) { srv with rollbacking := true }).1 = .success
      · exact .inr ⟨hout, (hsame rfl).trans hput.symm⟩
      · exact .inl ⟨hout, hsame rfl⟩

theorem exec_goes (henv : CleanOutside env B) (hsrv : CleanServer srv)
    (hidle : srv.rollbacking = false) {c : Call} (hc : CleanCall env srv c) :
    Goes env B c srv (c.exec env B srv) := by
  cases c with
  | lock t sid =>
    rw [Call.exec, ofcdsLock]
    split
    · exact ⟨hsrv, rfl⟩
    · split
      · exact ⟨hsrv, rfl⟩
      · exact ⟨⟨hsrv.startup, hsrv.cand, hsrv.rollback⟩, rfl⟩
  | unlock t sid =>
    rw [Call.exec, ofcdsUnlock]
    split
    · exact ⟨hsrv, rfl⟩
    · split
      · split
        · exact ⟨⟨hsrv.startup, hsrv.cand, hsrv.rollback⟩, rfl⟩
        · exact ⟨hsrv, rfl⟩
      · exact ⟨hsrv, rfl⟩
  | editconfig t config defop => exact editconfig_goes henv hsrv hc
  | copyconfig t source config => exact copyconfig_goes henv hsrv hidle hc
  | deleteconfig t =>
    cases t with
    | startup => exact ⟨⟨stored_nil, hsrv.cand, hsrv.startup⟩, rfl⟩
    | candidate => exact ⟨⟨hsrv.startup, stored_nil, hsrv.cand⟩, rfl⟩
    | _ => exact ⟨hsrv, rfl⟩
  | rollback => exact rollback_goes henv hsrv

end

/-- A request for a second port. -/
def secondPort : Doc := ofcSwitch [ofcPort "eth1" "2" (some .create)]

/-- A setup that reads the request and what the startup datastore of
`portServer` holds, and prints the latter. -/
def portSetup : Setup where
  read s :=
    if s = "request" then some secondPort
    else if s = "startup" then some (docOf portServer .startup) else none
  dump d := if d = docOf portServer .startup then "startup" else "other"
  mode := .explicit
  noneCast := some .create
  fuel := 20

theorem portSetup_clean : CleanOutside portSetup idleBackend where
  reread := by
    intro d d' hd hread
    simp only [portSetup] at hread
    split at hread
    · next heq =>
        obtain rfl : docOf portServer .startup = d' := by simpa using hread
        exact ⟨heq ▸ hd, by rw [heq]⟩
    · simp at hread
  printed := by
    intro d
    simp only [portSetup]
    split <;> simp
  running := by
    rintro w s d hs hread
    obtain rfl : "" = s := by simpa [idleBackend] using hs
    simp [portSetup] at hread

end OfConfig.Proofs
