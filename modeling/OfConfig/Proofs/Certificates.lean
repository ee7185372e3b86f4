import OfConfig.Proofs.Apply
import OfConfig.Proofs.Ops

/-!
# `OfConfig.Proofs.Certificates`: two certificates in one row

The owned and the external certificate share one row of `SSL`.
`certificates_independent`: in every sequence of edits of one of them the
other one keeps its columns, its `resource-id` and its file, as long as no
child of an owned certificate is deleted and the private key is not in
another certificate's file. The deletion of a child clears the column of
the external certificate.
-/

set_option autoImplicit false

namespace OfConfig.Proofs

open OfConfig.Lib OfConfig.Xml OfConfig.Edit OfConfig.Ovs

/-! ### Kinds of edits, and what they must not touch -/

/-- Edits of an owned certificate, those of its private key among them,
and edits of an external certificate. -/
inductive CertKind where
  | owned
  | key
  | external
deriving DecidableEq

/-- The columns that are not the edit's business. -/
def CertKind.cols : CertKind → Ssl → List (Option String)
  | .owned, s => [s.caCert, s.externalIds.get ofcResidExt]
  | .key, s => [s.certificate, s.caCert, s.externalIds.get ofcResidExt]
  | .external, s => [s.certificate, s.privateKey, s.externalIds.get ofcResidOwn]

/-- The files that are not the edit's business. -/
def CertKind.files (env : Env) : CertKind → List String
  | .owned => [caCertPem env]
  | .key => [certPem env, caCertPem env]
  | .external => [certPem env, keyPem env]

/-- An entry of `/capable-switch/resources`. -/
def IsEntry (name : String) (node : Node) (ctx : List (Rose.Frame Label)) : Prop :=
  node.label.name = name ∧ parentName ctx 0 = some "resources" ∧
    parentName ctx 1 = some "capable-switch"

/-- A child of an entry. -/
def IsChild (name entry : String) (node : Node) (ctx : List (Rose.Frame Label)) : Prop :=
  node.label.name = name ∧ parentName ctx 0 = some entry

/-- A leaf of the private key. -/
def IsKeyLeaf (node : Node) (ctx : List (Rose.Frame Label)) : Prop :=
  (node.label.name = "key-type" ∨ node.label.name = "key-data") ∧
    parentName ctx 0 = some "private-key" ∧ parentName ctx 1 = some "owned-certificate"

/-- The places that edits of a kind are about. -/
def CertKind.At : CertKind → Node → List (Rose.Frame Label) → Prop
  | .owned, n, ctx =>
    IsEntry "owned-certificate" n ctx ∨ IsChild "certificate" "owned-certificate" n ctx ∨
      IsChild "private-key" "owned-certificate" n ctx ∨ IsKeyLeaf n ctx
  | .key, n, ctx => IsChild "private-key" "owned-certificate" n ctx ∨ IsKeyLeaf n ctx
  | .external, n, ctx =>
    IsEntry "external-certificate" n ctx ∨ IsChild "certificate" "external-certificate" n ctx

/-- One edit: a function and the place it is called for. -/
structure CertEdit where
  fn : EditFun
  node : Node
  ctx : List (Rose.Frame Label)
  isElement : node.label.isElement = true

/-- What the edit does. -/
def CertEdit.run (env : Env) (e : CertEdit) (w : World) : World := e.fn.run env e.node e.ctx w

/-- The edit does not delete a child of an owned certificate, and when it
writes the private key, that is not in the file of a certificate. -/
def Harmless (env : Env) (e : CertEdit) (w : World) : Prop :=
  (e.fn = .delete → parentName e.ctx 0 ≠ some "owned-certificate") ∧
  (e.fn = .create → e.node.label.name = "private-key" ∨ parentName e.ctx 0 = some "private-key" →
    ∀ r ∈ w.idl.ssl, r.val.privateKey ≠ some (certPem env) ∧
      r.val.privateKey ≠ some (caCertPem env))

/-! ### Frames of the functions -/

/-- What edits of a kind must leave alone. -/
def certView (k : CertKind) (env : Env) (w : Work) :
    Table (List (Option String)) × List (Option String) :=
  (w.idl.ssl.mapVal k.cols, (k.files env).map w.files.get)

variable {k : CertKind} {env : Env}

theorem keeps_updateSsl {f : Ssl → Ssl} (h : ∀ s, k.cols (f s) = k.cols s) (u : Uuid) :
    Prog.Keeps (certView k env) (updateSsl u f) := by
  refine Prog.keeps_update (fun w => ?_)
  simp only [certView, Table.mapVal_update h]

theorem keeps_files {g : Smap → Smap} (h : ∀ m, ∀ p ∈ k.files env, (g m).get p = m.get p) :
    Prog.Keeps (certView k env)
      (Prog.update (fun w => { w with files := g w.files }) : Txn Unit) := by
  refine Prog.keeps_update (fun w => ?_)
  simp only [certView, Prod.mk.injEq, true_and]
  exact List.map_congr_left (fun p hp => h w.files p hp)

theorem keeps_unlinkFile {path : String} (h : path ∉ k.files env) :
    Prog.Keeps (certView k env) (unlinkFile path) := by
  refine keeps_files (g := fun m => m.remove path) (fun m p hp => ?_)
  have hne : p ≠ path := fun heq => h (heq ▸ hp)
  rw [Smap.get_remove, if_neg hne]

theorem keeps_writeFile {path : String} (h : path ∉ k.files env) (content : String) :
    Prog.Keeps (certView k env) (writeFile env path content) := by
  refine Prog.keeps_ite (keeps_files (g := fun m => m.replace path content) (fun m p hp => ?_))
    (Prog.keeps_stop _)
  have hne : p ≠ path := fun heq => h (heq ▸ hp)
  rw [Smap.get_replace, if_neg hne]

theorem keeps_mandatory {γ : Type} {v : Work → γ} (name : String) (o : Option String) :
    Prog.Keeps v (mandatory name o) := by
  cases o with
  | none => exact Prog.keeps_stop _
  | some a => exact Prog.keeps_pure a

theorem keeps_linkSsl (u : Uuid) : Prog.Keeps (certView k env) (linkSsl u) := by
  refine Prog.keeps_bind (Prog.keeps_read _) (fun o => ?_)
  cases o with
  | some o => exact Prog.keeps_update (fun _ => rfl)
  | none =>
    refine Prog.keeps_bind ?_ (fun _ => Prog.keeps_update (fun _ => rfl))
    exact Prog.keeps_bind (Prog.keeps_read _) (fun _ =>
      Prog.keeps_bind (Prog.keeps_update (fun _ => rfl)) (fun _ => Prog.keeps_pure _))

theorem keeps_findSsl {γ : Type} {v : Work → γ} (type resid : String) :
    Prog.Keeps v (findSsl type resid) := by
  refine Prog.keeps_bind (Prog.keeps_read _) (fun o => ?_)
  cases o with
  | some s => exact Prog.keeps_pure s
  | none => exact Prog.keeps_stop _

theorem dataDir_append_ne {a b : String} (h : a ≠ b) (d : String) : d ++ a ≠ d ++ b := by
  intro heq
  apply h
  have := congrArg String.toList heq
  simp only [String.toList_append, List.append_cancel_left_eq] at this
  exact String.toList_inj.mp this

theorem certPem_ne_caCertPem (env : Env) : certPem env ≠ caCertPem env :=
  dataDir_append_ne (by decide) _

theorem keyPem_ne_caCertPem (env : Env) : keyPem env ≠ caCertPem env :=
  dataDir_append_ne (by decide) _

theorem keyPem_ne_certPem (env : Env) : keyPem env ≠ certPem env :=
  dataDir_append_ne (by decide) _

/-- Columns and ids of a certificate are different entries of the row. -/
theorem resid_ne : ofcResidExt ≠ ofcResidOwn := by decide

theorem keeps_storeOwned (node : Node) (u : Uuid) (key : Option String) :
    Prog.Keeps (certView .owned env) (storeOwned env node u key) := by
  have hcert : certPem env ∉ CertKind.files env .owned := by
    simp [CertKind.files, certPem_ne_caCertPem]
  have hkey : keyPem env ∉ CertKind.files env .owned := by
    simp [CertKind.files, keyPem_ne_caCertPem]
  refine Prog.keeps_bind (keeps_mandatory _ _) (fun resid => ?_)
  refine Prog.keeps_bind (keeps_mandatory _ _) (fun cert => ?_)
  refine Prog.keeps_bind (keeps_mandatory _ _) (fun type => ?_)
  refine Prog.keeps_bind (keeps_mandatory _ _) (fun data => ?_)
  refine Prog.keeps_bind (keeps_writeFile hcert _) (fun _ => ?_)
  refine Prog.keeps_bind (keeps_updateSsl (by intro s; rfl) u) (fun _ => ?_)
  refine Prog.keeps_bind (keeps_writeFile hkey _) (fun _ => ?_)
  refine Prog.keeps_bind (keeps_updateSsl (by intro s; rfl) u) (fun _ => ?_)
  refine Prog.keeps_bind (keeps_updateSsl (fun s => ?_) u) (fun _ => keeps_linkSsl u)
  simp only [CertKind.cols, Smap.get_replace, if_neg resid_ne]

theorem keeps_storeExternal (node : Node) (u : Uuid) (key : Option String) :
    Prog.Keeps (certView .external env) (storeExternal env node u key) := by
  have hca : caCertPem env ∉ CertKind.files env .external := by
    simp [CertKind.files, Ne.symm (certPem_ne_caCertPem env), Ne.symm (keyPem_ne_caCertPem env)]
  refine Prog.keeps_bind (keeps_mandatory _ _) (fun resid => ?_)
  refine Prog.keeps_bind (keeps_mandatory _ _) (fun cert => ?_)
  refine Prog.keeps_bind (keeps_writeFile hca _) (fun _ => ?_)
  refine Prog.keeps_bind (keeps_updateSsl (by intro s; rfl) u) (fun _ => ?_)
  refine Prog.keeps_bind (keeps_updateSsl (fun s => ?_) u) (fun _ => keeps_linkSsl u)
  simp only [CertKind.cols, Smap.get_replace, if_neg resid_ne.symm]

theorem keeps_clearOwned (u : Uuid) : Prog.Keeps (certView .owned env) (clearOwned env u) := by
  have hcert : certPem env ∉ CertKind.files env .owned := by
    simp [CertKind.files, certPem_ne_caCertPem]
  have hkey : keyPem env ∉ CertKind.files env .owned := by
    simp [CertKind.files, keyPem_ne_caCertPem]
  refine Prog.keeps_bind (keeps_unlinkFile hcert) (fun _ => ?_)
  refine Prog.keeps_bind (keeps_updateSsl (by intro s; rfl) u) (fun _ => ?_)
  refine Prog.keeps_bind (keeps_unlinkFile hkey) (fun _ => ?_)
  refine Prog.keeps_bind (keeps_updateSsl (by intro s; rfl) u) (fun _ => ?_)
  refine keeps_updateSsl (fun s => ?_) u
  simp only [CertKind.cols, Smap.get_remove, if_neg resid_ne]

theorem keeps_clearExternal (u : Uuid) :
    Prog.Keeps (certView .external env) (clearExternal env u) := by
  have hca : caCertPem env ∉ CertKind.files env .external := by
    simp [CertKind.files, Ne.symm (certPem_ne_caCertPem env), Ne.symm (keyPem_ne_caCertPem env)]
  refine Prog.keeps_bind (keeps_unlinkFile hca) (fun _ => ?_)
  refine Prog.keeps_bind (keeps_updateSsl (by intro s; rfl) u) (fun _ => ?_)
  refine keeps_updateSsl (fun s => ?_) u
  simp only [CertKind.cols, Smap.get_remove, if_neg resid_ne.symm]

/-! ### One edit -/

/-- The files are as before, and so are the columns of every row that was
and is there. -/
structure Untouched (k : CertKind) (env : Env) (w w' : Work) : Prop where
  files : ∀ p ∈ k.files env, w'.files.get p = w.files.get p
  rows : ∀ u s s', w.idl.ssl.rowAt u = some s → w'.idl.ssl.rowAt u = some s' →
    k.cols s' = k.cols s

theorem Untouched.of_view {w w' : Work} (h : certView k env w' = certView k env w) :
    Untouched k env w w' := by
  constructor
  · have hfiles := congrArg Prod.snd h
    exact List.map_inj_left.mp hfiles
  · intro u s s' hs hs'
    have hrows := congrArg (fun v => Table.rowAt (Prod.fst v) u) h
    simp only [certView, Table.rowAt_mapVal, hs, hs', Option.map_some] at hrows
    exact Option.some.inj hrows

theorem Untouched.bind {α : Type} {p : Txn α} {f : α → Txn Unit} {w : Work}
    (hp : Prog.Keeps id p) (hf : ∀ a, Untouched k env w (f a w).2) :
    Untouched k env w ((p >>= f) w).2 := by
  rw [Prog.bind_run]
  have hw := hp w
  rcases hpw : p w with ⟨r, w'⟩
  rw [hpw] at hw
  obtain rfl : w' = w := hw
  cases r with
  | ok a => exact hf a
  | error e => exact .of_view rfl

theorem dropSsl_untouched (u : Uuid) (w : Work) : Untouched k env w (dropSsl u w).2 := by
  refine .bind (Prog.keeps_read _) (fun o => ?_)
  cases o with
  | none => exact .of_view rfl
  | some o =>
    constructor
    · intro p _
      rfl
    · intro u' s s' hs hs'
      have hback : w.idl.ssl.rowAt u' = some s' := Table.rowAt_of_delete hs'
      rw [Option.some.inj (hs.symm.trans hback)]

/-- A new row is made only where there is none; else the row that is
there is taken. -/
theorem certRow_untouched {f : Uuid × Option String → Txn Unit}
    (hf : ∀ x, Prog.Keeps (certView k env) (f x)) (type which : String) (node : Node) (w : Work) :
    Untouched k env w ((certRow type which node >>= f) w).2 := by
  cases hfirst : w.idl.ssl.first (fun _ => true) with
  | some s =>
    have hrow : (certRow type which node w).2 = w := by
      simp only [certRow, readDb, Prog.bind_run, Prog.read_run, hfirst]
      cases getKey (some node) "resource-id" with
      | none => rfl
      | some new =>
        by_cases hsame : (s.val.externalIds.get type).getD new = new
        · simp only [if_pos hsame, Prog.pure_run]
        · simp only [if_neg hsame]
          rfl
    rw [Prog.bind_run]
    rcases hcr : certRow type which node w with ⟨r, w'⟩
    rw [hcr] at hrow
    obtain rfl : w' = w := hrow
    cases r with
    | ok a => exact .of_view (hf a w')
    | error e => exact .of_view rfl
  | none =>
    have hlive : w.idl.ssl.live = [] := by
      rw [Table.first, List.find?_eq_none] at hfirst
      exact List.eq_nil_iff_forall_not_mem.mpr (fun r hr => hfirst r hr rfl)
    have hrow : certRow type which node w = (.ok (w.next, none),
        { w with next := w.next + 1,
                 idl := { w.idl with ssl := w.idl.ssl.insert w.next {} } }) := by
      simp [certRow, readDb, Prog.bind_run, hfirst, newUuid, modifyDb]
    constructor
    · rw [Prog.bind_run_ok hrow]
      exact (Untouched.of_view (hf _ _)).files
    · intro u s s' hs
      rw [Table.rowAt, hlive] at hs
      cases hs

theorem addOwned_untouched (node : Node) (w : Work) :
    Untouched .owned env w (txnAddOwnedCertificate env node w).2 :=
  certRow_untouched (fun x => keeps_storeOwned node x.1 x.2) _ _ _ _

theorem addExternal_untouched (node : Node) (w : Work) :
    Untouched .external env w (txnAddExternalCertificate env node w).2 :=
  certRow_untouched (fun x => keeps_storeExternal node x.1 x.2) _ _ _ _

theorem delOwned_untouched (node : Node) (w : Work) :
    Untouched .owned env w (txnDelOwnedCertificate env node w).2 := by
  unfold txnDelOwnedCertificate
  cases getKey (some node) "resource-id" with
  | none => exact .of_view rfl
  | some resid =>
    refine .bind (keeps_findSsl _ _) (fun ssl => ?_)
    split
    · exact dropSsl_untouched _ w
    · exact .of_view (keeps_clearOwned _ w)

theorem delExternal_untouched (node : Node) (w : Work) :
    Untouched .external env w (txnDelExternalCertificate env node w).2 := by
  unfold txnDelExternalCertificate
  cases getKey (some node) "resource-id" with
  | none => exact .of_view rfl
  | some resid =>
    refine .bind (keeps_findSsl _ _) (fun ssl => ?_)
    split
    · exact dropSsl_untouched _ w
    · exact .of_view (keeps_clearExternal _ w)

theorem keeps_modOwnCert (resid : Option String) (node : Node) :
    Prog.Keeps (certView .owned env) (txnModOwnCertCertificate env resid (some node)) := by
  have hcert : certPem env ∉ CertKind.files env .owned := by
    simp [CertKind.files, certPem_ne_caCertPem]
  refine Prog.keeps_bind (Prog.keeps_ofOption _ _) (fun r => ?_)
  refine Prog.keeps_bind (keeps_findSsl _ _) (fun ssl => ?_)
  cases hnew : firstContent node with
  | none =>
    simp only [hnew]
    exact Prog.keeps_stop _
  | some cert =>
    simp only [hnew]
    exact Prog.keeps_bind (keeps_writeFile hcert _)
      (fun _ => keeps_updateSsl (by intro s; rfl) _)

theorem keeps_modExtCert (resid : Option String) (node : Option Node) :
    Prog.Keeps (certView .external env) (txnModExtCertCertificate env resid node) := by
  have hca : caCertPem env ∉ CertKind.files env .external := by
    simp [CertKind.files, Ne.symm (certPem_ne_caCertPem env), Ne.symm (keyPem_ne_caCertPem env)]
  refine Prog.keeps_bind (Prog.keeps_ofOption _ _) (fun r => ?_)
  refine Prog.keeps_bind (keeps_findSsl _ _) (fun ssl => ?_)
  cases node with
  | none =>
    exact Prog.keeps_bind (keeps_unlinkFile hca) (fun _ => keeps_updateSsl (by intro s; rfl) _)
  | some n =>
    cases hcert : firstContent n with
    | none =>
      simp only [hcert]
      exact Prog.keeps_stop _
    | some cert =>
      simp only [hcert]
      exact Prog.keeps_bind (keeps_writeFile hca _)
        (fun _ => keeps_updateSsl (by intro s; rfl) _)

/-! ### Edits of the private key -/

/-- Is the file the private key of a row? -/
def isKeyFile (w : Work) (p : String) : Bool :=
  w.idl.ssl.any (fun r => r.val.privateKey = some p)

/-- Everything but the files of private keys. -/
def keyView (w : Work) : Db × (String → Option String) :=
  (w.idl, fun p => if isKeyFile w p then none else w.files.get p)

/-- Writing the private key of a row changes nothing else. -/
theorem keyView_putFile {w : Work} {r : Row Ssl} (hr : r ∈ w.idl.ssl) {p : String}
    (hp : r.val.privateKey = some p) (content : List Char) :
    keyView (putFile p content w).2 = keyView w := by
  have hkey : isKeyFile w p = true := List.any_eq_true.mpr ⟨r, hr, by simp [hp]⟩
  simp only [putFile, Prog.update_run, keyView, Prod.mk.injEq, true_and]
  funext q
  show (if isKeyFile w q = true then none else _) = _
  by_cases hq : isKeyFile w q = true
  · rw [if_pos hq, if_pos hq]
  · have hne : q ≠ p := by
      rintro rfl
      exact hq hkey
    rw [if_neg hq, if_neg hq, Smap.get_replace, if_neg hne]

theorem keeps_modOwnCertKey (rewrite : List Char → Nat → Nat → List Char → List Char)
    (resid : Option String) (node : Option Node) :
    Prog.Keeps keyView (modOwnCertKey env rewrite resid node) := by
  refine Prog.keeps_bind (Prog.keeps_ofOption _ _) (fun r => ?_)
  cases node with
  | none => exact Prog.keeps_pure _
  | some n =>
    intro w
    simp only [findSsl, Prog.bind_run, readDb, Prog.read_run]
    cases hssl : w.idl.ssl.first (fun s => s.externalIds.get ofcResidOwn = some r) with
    | none => rfl
    | some ssl =>
      have hmem : ssl ∈ w.idl.ssl := (List.mem_filter.mp (Table.first_some hssl).1).1
      simp only [Prog.pure_run, parsePem, Prog.bind_run, argument]
      cases hpath : ssl.val.privateKey.filter env.canWrite with
      | none => rfl
      | some p =>
        simp only [Prog.ofOption, Prog.ret_run, Prog.read_run]
        cases w.files.get p with
        | none => rfl
        | some content =>
          simp only
          cases pemMarkers content.toList with
          | none => rfl
          | some be =>
            exact keyView_putFile hmem (Option.filter_eq_some_iff.mp hpath).1 _

/-! ### Which function handles which node -/

section Dispatch

variable {node : Node} {ctx : List (Rose.Frame Label)}

theorem actionAt_delete_owned (h : IsEntry "owned-certificate" node ctx) :
    actionAt EditFun.delete.handler node ctx =
      .call (.delOwnedCertificate (EditFun.delete.seen node)) := by
  obtain ⟨hn, hp, hq⟩ := h
  simp [actionAt, EditFun.handler, deleteAction, isEmpty_ancestors hp, nameAt_ancestors, hn, hp, hq,
    EditFun.seen]

theorem actionAt_create_owned (h : IsEntry "owned-certificate" node ctx) :
    actionAt EditFun.create.handler node ctx =
      .call (.addOwnedCertificate (EditFun.create.seen node)) := by
  obtain ⟨hn, hp, hq⟩ := h
  simp [actionAt, EditFun.handler, createAction, isEmpty_ancestors hp, nameAt_ancestors, hn, hp, hq,
    EditFun.seen]

theorem actionAt_create_ownedCert (h : IsChild "certificate" "owned-certificate" node ctx) :
    ∃ key, actionAt EditFun.create.handler node ctx =
      .call (.modOwnCertCertificate key (some (EditFun.create.seen node))) := by
  obtain ⟨hn, hp⟩ := h
  simp [actionAt, EditFun.handler, createAction, isEmpty_ancestors hp, nameAt_ancestors, hn, hp,
    isTunnel, EditFun.seen]

theorem actionAt_delete_keyLeaf (h : IsKeyLeaf node ctx) :
    ∃ key, actionAt EditFun.delete.handler node ctx = .call (.modOwnCertKeyType key none) ∨
      actionAt EditFun.delete.handler node ctx = .call (.modOwnCertKeyData key none) := by
  obtain ⟨hn, hp, hq⟩ := h
  rcases hn with hn | hn <;>
    simp [actionAt, EditFun.handler, deleteAction, isEmpty_ancestors hp, nameAt_ancestors, hn, hp,
      isTunnel]

theorem actionAt_external (h : IsEntry "external-certificate" node ctx) (f : EditFun) :
    actionAt f.handler node ctx = .call (.delExternalCertificate (f.seen node)) ∨
      actionAt f.handler node ctx = .call (.addExternalCertificate (f.seen node)) := by
  obtain ⟨hn, hp, hq⟩ := h
  cases f <;>
    simp [actionAt, EditFun.handler, deleteAction, createAction, isEmpty_ancestors hp,
      nameAt_ancestors, hn, hp, hq, EditFun.seen]

theorem actionAt_externalCert (h : IsChild "certificate" "external-certificate" node ctx)
    (f : EditFun) :
    ∃ key new, actionAt f.handler node ctx = .call (.modExtCertCertificate key new) := by
  obtain ⟨hn, hp⟩ := h
  cases f <;>
    simp [actionAt, EditFun.handler, deleteAction, createAction, isEmpty_ancestors hp,
      nameAt_ancestors, hn, hp, isTunnel]

/-- The nodes that `edit_create` reaches from a private key: itself, and
what is inside a private key. -/
def InKey (n : Node) (ctx : List (Rose.Frame Label)) : Prop :=
  IsChild "private-key" "owned-certificate" n ctx ∨ parentName ctx 0 = some "private-key"

/-- The calls made for them. An element `advertised` is taken for the
features of a port wherever it is. -/
inductive KeyCall : TxnOp → Prop where
  | type (resid : Option String) (node : Option Node) : KeyCall (.modOwnCertKeyType resid node)
  | data (resid : Option String) (node : Option Node) : KeyCall (.modOwnCertKeyData resid node)
  | advert (name : Option String) (node : Node) : KeyCall (.addPortAdvert name node)

theorem createAction_inKey {anc : List Node} (hp : nameAt anc 0 = some "private-key")
    (hne : anc.isEmpty = false) :
    createAction node anc =
      if node.label.name = "advertised" then
        .calls (node.children.map (.addPortAdvert (getKey anc[1]? "name")))
      else if node.label.name = "private-key" then .children
      else if node.label.name = "key-type" then
        .call (.modOwnCertKeyType (getKey anc[1]? "resource-id") (some node))
      else if node.label.name = "key-data" then
        .call (.modOwnCertKeyData (getKey anc[1]? "resource-id") (some node))
      else .nothing := by
  simp [createAction, hne, hp, isTunnel]

theorem actionAt_create_inKey (h : InKey node ctx) :
    ActionCalls KeyCall (actionAt EditFun.create.handler node ctx) ∧
      (goesDown (actionAt EditFun.create.handler node ctx) = true →
        node.label.name = "private-key") := by
  rcases h with ⟨hn, hp⟩ | hp
  · simp [actionAt, EditFun.handler, createAction, isEmpty_ancestors hp, nameAt_ancestors, hn, hp,
      isTunnel, ActionCalls]
  · have hact : actionAt EditFun.create.handler node ctx = _ :=
      createAction_inKey ((nameAt_ancestors _ _ _).trans hp) (isEmpty_ancestors hp)
    have hname : (dropOpAttr node.label).name = node.label.name := name_dropOpAttr _
    simp only [EditFun.handler, Rose.label_node, hname] at hact ⊢
    rw [hact]
    split
    · refine ⟨fun op hop => ?_, by simp [goesDown]⟩
      obtain ⟨c, _, rfl⟩ := List.mem_map.mp hop
      exact .advert _ c
    · split
      · next hk => exact ⟨trivial, fun _ => hk⟩
      · split
        · exact ⟨.type _ _, by simp [goesDown]⟩
        · split
          · exact ⟨.data _ _, by simp [goesDown]⟩
          · exact ⟨trivial, by simp [goesDown]⟩

end Dispatch

theorem keeps_addPortAdvert (name : Option String) (node : Node) :
    Prog.Keeps keyView (txnAddPortAdvert env name node) := by
  refine Prog.keeps_bind (Prog.keeps_ofOption _ _) (fun n => ?_)
  refine Prog.keeps_ite (Prog.keeps_stop _) ?_
  refine Prog.keeps_bind ?_ (fun text => ?_)
  · refine Prog.keeps_ite ?_ (Prog.keeps_pure _)
    unfold contentOf
    cases node.children with
    | nil => exact Prog.keeps_stop _
    | cons c cs => exact Prog.keeps_pure _
  · exact Prog.keeps_bind (Prog.keeps_read _) (fun mask => Prog.keeps_update (fun _ => rfl))

/-- Creating what belongs to a private key changes nothing but files of
private keys. -/
theorem keyView_create {node : Node} {ctx : List (Rose.Frame Label)} (h : InKey node ctx)
    (w : World) : keyView (EditFun.create.run env node ctx w).toWork = keyView w.toWork := by
  rw [EditFun.run_eq]
  refine applyNode_inv (I := fun w' : World => keyView w'.toWork = keyView w.toWork) InKey
    (P := KeyCall) ?_ ?_ ?_ h rfl
  · intro op hop w' hw'
    rw [exec_snd, ← hw']
    cases hop with
    | type resid n => exact keeps_modOwnCertKey _ resid n w'.toWork
    | data resid n => exact keeps_modOwnCertKey _ resid n w'.toWork
    | advert name n => exact keeps_addPortAdvert name n w'.toWork
  · intro n ctx hn _
    exact (actionAt_create_inKey hn).1
  · intro n ctx hn _ hdown c _ left right
    right
    have hname := (actionAt_create_inKey hn).2 hdown
    simpa [parentName, EditFun.handler] using hname

theorem Untouched.of_keyView {w w' : Work} (hk : k ≠ .external)
    (hkeys : ∀ r ∈ w.idl.ssl, r.val.privateKey ≠ some (certPem env) ∧
      r.val.privateKey ≠ some (caCertPem env)) (h : keyView w' = keyView w) :
    Untouched k env w w' := by
  have hidl : w'.idl = w.idl := congrArg Prod.fst h
  constructor
  · intro p hp
    have hpath : p = certPem env ∨ p = caCertPem env := by
      cases k with
      | owned => simpa [CertKind.files] using Or.inr hp
      | key => simpa [CertKind.files] using hp
      | external => exact absurd rfl hk
    have hnot : isKeyFile w p = false := by
      rw [isKeyFile, List.any_eq_false]
      intro r hr
      rcases hpath with rfl | rfl
      · simpa using (hkeys r hr).1
      · simpa using (hkeys r hr).2
    have hnot' : isKeyFile w' p = false := by rw [isKeyFile, hidl]; exact hnot
    have hp := congrFun (congrArg Prod.snd h) p
    simpa [keyView, hnot, hnot'] using hp
  · intro u s s' hs hs'
    rw [hidl, hs] at hs'
    rw [Option.some.inj hs']

/-- Edits of the private key. -/
theorem keyEdit_untouched (hk : k ≠ .external) {e : CertEdit} {w : World}
    (hat : IsChild "private-key" "owned-certificate" e.node e.ctx ∨ IsKeyLeaf e.node e.ctx)
    (hok : Harmless env e w) : Untouched k env w.toWork (e.run env w).toWork := by
  obtain ⟨fn, node, ctx, he⟩ := e
  cases fn with
  | create =>
    have hin : InKey node ctx := hat.imp id (fun h => h.2.1)
    have hkey : node.label.name = "private-key" ∨ parentName ctx 0 = some "private-key" :=
      hat.imp (fun h => h.1) (fun h => h.2.1)
    exact .of_keyView hk (hok.2 rfl hkey) (keyView_create hin w)
  | delete =>
    rcases hat with h | h
    · exact absurd h.2 (hok.1 rfl)
    · -- the functions for the leaves do nothing without a node
      obtain ⟨key, h | h⟩ := actionAt_delete_keyLeaf h
      · rw [CertEdit.run, EditFun.run_call he h]
        exact .bind (Prog.keeps_ofOption _ _) (fun _ => .of_view rfl)
      · rw [CertEdit.run, EditFun.run_call he h]
        exact .bind (Prog.keeps_ofOption _ _) (fun _ => .of_view rfl)

/-- One harmless edit leaves alone what is not its business. -/
theorem certEdit_untouched {e : CertEdit} {w : World} (hat : k.At e.node e.ctx)
    (hok : Harmless env e w) : Untouched k env w.toWork (e.run env w).toWork := by
  cases k with
  | key => exact keyEdit_untouched (by decide) hat hok
  | owned =>
    rcases hat with h | h | h
    · obtain ⟨fn, node, ctx, he⟩ := e
      cases fn with
      | delete =>
        rw [CertEdit.run, EditFun.run_call he (actionAt_delete_owned h)]
        exact delOwned_untouched _ _
      | create =>
        rw [CertEdit.run, EditFun.run_call he (actionAt_create_owned h)]
        exact addOwned_untouched _ _
    · obtain ⟨fn, node, ctx, he⟩ := e
      cases fn with
      | delete => exact absurd h.2 (hok.1 rfl)
      | create =>
        obtain ⟨key, hact⟩ := actionAt_create_ownedCert h
        rw [CertEdit.run, EditFun.run_call he hact]
        exact .of_view (keeps_modOwnCert _ _ _)
    · exact keyEdit_untouched (by decide) h hok
  | external =>
    obtain ⟨fn, node, ctx, he⟩ := e
    rcases hat with h | h
    · rcases actionAt_external h fn with hact | hact
      · rw [CertEdit.run, EditFun.run_call he hact]
        exact delExternal_untouched _ _
      · rw [CertEdit.run, EditFun.run_call he hact]
        exact addExternal_untouched _ _
    · obtain ⟨key, new, hact⟩ := actionAt_externalCert h fn
      rw [CertEdit.run, EditFun.run_call he hact]
      exact .of_view (keeps_modExtCert _ _ _)

/-! ### Sequences of edits -/

/-- The edits one after the other. -/
def runEdits (env : Env) (edits : List CertEdit) (w : World) : World :=
  edits.foldl (fun w e => e.run env w) w

/-- Every edit is harmless where it is made. -/
def AllHarmless (env : Env) : List CertEdit → World → Prop
  | [], _ => True
  | e :: es, w => Harmless env e w ∧ AllHarmless env es (e.run env w)

/-- The row is there in every state of the run. -/
def Survives (env : Env) (u : Uuid) : List CertEdit → World → Prop
  | [], w => (w.idl.ssl.rowAt u).isSome = true
  | e :: es, w => (w.idl.ssl.rowAt u).isSome = true ∧ Survives env u es (e.run env w)

theorem Survives.now {u : Uuid} {edits : List CertEdit} {w : World}
    (h : Survives env u edits w) : ∃ s, w.idl.ssl.rowAt u = some s := by
  cases edits with
  | nil => exact Option.isSome_iff_exists.mp h
  | cons e es => exact Option.isSome_iff_exists.mp h.1

/-- A sequence of harmless edits of one kind leaves the files that are not
its business as they were, and the columns of a row as long as the row
survives. -/
theorem certificates_independent (env : Env) (k : CertKind) (edits : List CertEdit) (w : World)
    (hat : ∀ e ∈ edits, k.At e.node e.ctx) (hok : AllHarmless env edits w) :
    (∀ p ∈ k.files env, (runEdits env edits w).files.get p = w.files.get p) ∧
    ∀ u, Survives env u edits w → ∀ s s', w.idl.ssl.rowAt u = some s →
      (runEdits env edits w).idl.ssl.rowAt u = some s' → k.cols s' = k.cols s := by
  induction edits generalizing w with
  | nil =>
    refine ⟨fun p _ => rfl, fun u _ s s' hs hs' => ?_⟩
    rw [Option.some.inj (hs.symm.trans hs')]
  | cons e es ih =>
    have hstep := certEdit_untouched (hat e (by simp)) hok.1
    obtain ⟨hfiles, hrows⟩ := ih (e.run env w) (fun e' he' => hat e' (by simp [he'])) hok.2
    constructor
    · intro p hp
      exact (hfiles p hp).trans (hstep.files p hp)
    · intro u hsurv s s' hs hs'
      obtain ⟨s1, hs1⟩ := hsurv.2.now
      exact (hrows u hsurv.2 s1 s' hs1 hs').trans (hstep.rows u s s1 hs hs1)

/-- A row with both certificates. -/
def bothSsl : Ssl where
  certificate := some "/etc/ofconfig/cert.pem"
  privateKey := some "/etc/ofconfig/key.pem"
  caCert := some "/etc/ofconfig/ca_cert.pem"
  externalIds := [(ofcResidOwn, "own"), (ofcResidExt, "ext")]

/-- A database with both certificates, and their files. -/
def bothCerts : World :=
  { idl := { ssl := [⟨1, false, true, bothSsl⟩] }
    files := [("/etc/ofconfig/cert.pem", certText "C"), ("/etc/ofconfig/ca_cert.pem", certText "A"),
              ("/etc/ofconfig/key.pem", keyText "RSA" "K")] }

/-- The place of a child of the owned certificate. -/
def ownCtx : List (Rose.Frame Label) :=
  [⟨[elem "resource-id" none [txt "own"]], .element "owned-certificate" none [], []⟩,
   ⟨[], .element "resources" none [], []⟩, ⟨[], .element "capable-switch" none [], []⟩]

/-- An edit of a child of the owned certificate. -/
def ownEdit (fn : EditFun) (name : String) : CertEdit := ⟨fn, elem name none [txt "N"], ownCtx, rfl⟩

theorem certificates_independent_new_certificate :
    (∀ p ∈ CertKind.files grantingEnv .owned,
      (runEdits grantingEnv [ownEdit .create "certificate"] bothCerts).files.get p =
        bothCerts.files.get p) ∧
    ∀ u, Survives grantingEnv u [ownEdit .create "certificate"] bothCerts → ∀ s s',
      bothCerts.idl.ssl.rowAt u = some s →
      (runEdits grantingEnv [ownEdit .create "certificate"] bothCerts).idl.ssl.rowAt u = some s' →
      CertKind.owned.cols s' = CertKind.owned.cols s :=
  certificates_independent grantingEnv .owned [ownEdit .create "certificate"] bothCerts
    (fun e he => by rw [List.mem_singleton.mp he]; exact .inr (.inl ⟨rfl, rfl⟩))
    ⟨⟨nofun, fun _ h => by rcases h with h | h <;> exact absurd h (by decide)⟩, trivial⟩

/-- Deleting the owned certificate empties the column of the external one,
and deleting the private key removes the file of the certificate. -/
theorem delete_own_child_not_independent :
    (CertKind.owned.At (ownEdit .delete "certificate").node ownCtx ∧
      CertKind.key.At (ownEdit .delete "private-key").node ownCtx) ∧
    ((runEdits grantingEnv [ownEdit .delete "certificate"] bothCerts).idl.ssl.rowAt 1).map
      Ssl.caCert = some (some "") ∧
    bothSsl.caCert = some "/etc/ofconfig/ca_cert.pem" ∧
    (runEdits grantingEnv [ownEdit .delete "private-key"] bothCerts).files.get
      "/etc/ofconfig/cert.pem" = none ∧
    bothCerts.files.get "/etc/ofconfig/cert.pem" = some (certText "C") := by
  refine ⟨⟨.inr (.inl ⟨rfl, rfl⟩), .inl ⟨rfl, rfl⟩⟩, ?_, rfl, ?_, ?_⟩
  · decide
  · decide
  · decide

end OfConfig.Proofs
