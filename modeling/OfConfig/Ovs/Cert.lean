import OfConfig.Ovs.Queue

/-!
# `OfConfig.Ovs.Cert`: certificates

The functions of `ovs-data.c` for `owned-certificate` and
`external-certificate`. Both live in one row of `SSL`: its columns name
the files, its `external_ids` hold the two `resource-id`s.
-/

set_option autoImplicit false

namespace OfConfig.Ovs

open OfConfig.Lib OfConfig.Xml OfConfig.Edit

/-- `OFC_RESID_OWN` -/
def ofcResidOwn : String := "ofc_resource_id_own"

/-- `OFC_RESID_EXT` -/
def ofcResidExt : String := "ofc_resource_id_ext"

/-- The file of the owned certificate. -/
def certPem (env : Env) : String := env.dataDir ++ "/cert.pem"

/-- The file of the private key. -/
def keyPem (env : Env) : String := env.dataDir ++ "/key.pem"

/-- The file of the external certificate. -/
def caCertPem (env : Env) : String := env.dataDir ++ "/ca_cert.pem"

/-- Change an `SSL` row. -/
def updateSsl (u : Uuid) (f : Ssl → Ssl) : Txn Unit :=
  modifyDb (fun db => { db with ssl := db.ssl.update u f })

/-- `unlink` -/
def unlinkFile (path : String) : Txn Unit :=
  Prog.update (fun w => { w with files := w.files.remove path })

/-- `find_ssl`. The two messages are the wrong way round. -/
def findSsl (type : String) (resourceId : String) : Txn (Row Ssl) := do
  match ← readDb (fun db => db.ssl.first (fun s => s.externalIds.get type = some resourceId)) with
  | some s => pure s
  | none =>
    fail (badElem "resource_id"
      (if type = ofcResidOwn then
        "Could not find external-certificate with the specified resource-id"
      else "Could not find owned-certificate with the specified resource-id"))

/-- Create a file with a content. -/
def writeFile (env : Env) (path content : String) : Txn Unit :=
  if env.canWrite path then
    Prog.update (fun w => { w with files := w.files.replace path content })
  else fail invalidInput

/-- The content of a certificate file. -/
def certText (cert : String) : String :=
  "-----BEGIN CERTIFICATE-----\n" ++ cert ++ "\n-----END CERTIFICATE-----"

/-- `write_cert` -/
def writeCert (env : Env) (cert path : String) : Txn Unit := writeFile env path (certText cert)

/-- The content of the key file. -/
def keyText (type data : String) : String :=
  "-----BEGIN " ++ type ++ " PRIVATE KEY-----\n" ++ data ++ "\n-----END " ++ type ++
    " PRIVATE KEY-----"

/-- The row of the certificates: the first one, after a check of its
`resource-id`, or a new one. The key of the entry is read only when there
is a row. -/
def certRow (type which : String) (node : Node) : Txn (Uuid × Option String) := do
  match ← readDb (fun db => db.ssl.first (fun _ => true)) with
  | some s =>
    match getKey (some node) "resource-id" with
    | none => fail { tag := .missingElem, badElem := some "resource-id" }
    | some new =>
      if (s.val.externalIds.get type).getD new = new then pure (s.uuid, some new)
      else fail (opFailed ("OVS allows to use only a single " ++ which ++ " certificate"))
  | none => do
      let u ← newUuid
      modifyDb (fun db => { db with ssl := db.ssl.insert u {} })
      return (u, none)

/-- The `resource-id` of the entry: the key read before, or the first
content of a child of that name that is not null. -/
def newResid (key : Option String) (node : Node) : Option String :=
  key.or ((node.children.filter (fun c =>
    c.label.isElement && c.label.name = "resource-id")).findSome? firstContent)

/-- Make the `Open_vSwitch` row refer to the certificates. -/
def linkSsl (u : Uuid) : Txn Unit := do
  match ← readDb (fun db => db.openVswitch.first (fun _ => true)) with
  | some o => modifyDb (fun db =>
    { db with openVswitch := db.openVswitch.update o.uuid (fun r => { r with ssl := some u }) })
  | none => do
      let o ← newUuid
      modifyDb (fun db => { db with openVswitch := db.openVswitch.insert o ⟨[], some u⟩ })

/-- A mandatory leaf. -/
def mandatory (name : String) (o : Option String) : Txn String :=
  match o with
  | some v => pure v
  | none => fail { tag := .missingElem, badElem := some name }

/-- The last leaf of a name inside the private keys of the entry. -/
def keyLeaf (node : Node) (name : String) : Option String :=
  let leaves := (node.children.filter (fun c =>
    c.label.isElement && c.label.name = "private-key")).flatMap Rose.children
  (leaves.reverse.find? (fun c => c.label.name = name)).bind firstContent

/-- The end of `txn_add_owned_certificate`: check and store the data. -/
def storeOwned (env : Env) (node : Node) (u : Uuid) (key : Option String) : Txn Unit := do
  let resid ← mandatory "resource-id" (newResid key node)
  let cert ← mandatory "certificate" (lastContent node "certificate")
  let type ← mandatory "key-type" (keyLeaf node "key-type")
  let data ← mandatory "key-data" (keyLeaf node "key-data")
  writeCert env cert (certPem env)
  updateSsl u (fun s => { s with certificate := some (certPem env) })
  writeFile env (keyPem env) (keyText type data)
  updateSsl u (fun s => { s with privateKey := some (keyPem env) })
  updateSsl u (fun s => { s with externalIds := s.externalIds.replace ofcResidOwn resid })
  linkSsl u

/-- `txn_add_owned_certificate` -/
def txnAddOwnedCertificate (env : Env) (node : Node) : Txn Unit := do
  let (u, key) ← certRow ofcResidOwn "owned" node
  storeOwned env node u key

/-- The end of `txn_add_external_certificate`. -/
def storeExternal (env : Env) (node : Node) (u : Uuid) (key : Option String) : Txn Unit := do
  let resid ← mandatory "resource-id" (newResid key node)
  let cert ← mandatory "certificate" (lastContent node "certificate")
  writeCert env cert (caCertPem env)
  updateSsl u (fun s => { s with caCert := some (caCertPem env) })
  updateSsl u (fun s => { s with externalIds := s.externalIds.replace ofcResidExt resid })
  linkSsl u

/-- `txn_add_external_certificate` -/
def txnAddExternalCertificate (env : Env) (node : Node) : Txn Unit := do
  let (u, key) ← certRow ofcResidExt "external" node
  storeExternal env node u key

/-- `txn_mod_own_cert_certificate`. Removing the certificate empties the
column `ca_cert`. -/
def txnModOwnCertCertificate (env : Env) (resid : Option String) (node : Option Node) :
    Txn Unit := do
  let r ← argument resid
  let ssl ← findSsl ofcResidOwn r
  match node with
  | none => do
      unlinkFile (certPem env)
      updateSsl ssl.uuid (fun s => { s with caCert := some "" })
  | some n =>
    match firstContent n with
    | none => fail (badElem "certificate" "No data in owned-certificate")
    | some cert => do
        writeCert env cert (certPem env)
        updateSsl ssl.uuid (fun s => { s with certificate := some (certPem env) })

/-- `txn_mod_ext_cert_certificate` -/
def txnModExtCertCertificate (env : Env) (resid : Option String) (node : Option Node) :
    Txn Unit := do
  let r ← argument resid
  let ssl ← findSsl ofcResidExt r
  match node with
  | none => do
      unlinkFile (caCertPem env)
      updateSsl ssl.uuid (fun s => { s with caCert := some "" })
  | some n =>
    match firstContent n with
    | none => fail (badElem "certificate" "No data in external-certificate")
    | some cert => do
        writeCert env cert (caCertPem env)
        updateSsl ssl.uuid (fun s => { s with caCert := some (caCertPem env) })

/-! ### The private key -/

/-- `strstr`: where the text first occurs. -/
def strstr (pat : List Char) : List Char → Option Nat
  | [] => if pat = [] then some 0 else none
  | c :: cs => if pat.isPrefixOf (c :: cs) then some 0 else (strstr pat cs).map (· + 1)

/-- Where the begin and end markers of a private key are. -/
def pemMarkers (cs : List Char) : Option (Nat × Nat) :=
  let start (type : String) := strstr ("-----BEGIN " ++ type ++ " PRIVATE KEY-----\n").toList cs
  let stop (type : String) := strstr ("\n-----END " ++ type ++ " PRIVATE KEY-----").toList cs
  match start "RSA" with
  | some b => (stop "RSA").map (b, ·)
  | none =>
    match start "DSA" with
    | some b => (stop "DSA").map (b, ·)
    | none => none

/-- `parse_pem`: the content of the key file, and where its begin and end
markers are. A null or empty path cannot be opened. -/
def parsePem (env : Env) (path : Option String) : Txn (String × List Char × Nat × Nat) := do
  let p ← argument (path.filter env.canWrite)
  match ← Prog.read (fun w => w.files.get p) with
  | none => fail invalidInput
  | some content =>
    let (b, e) ← argument (pemMarkers content.toList)
    return (p, content.toList, b, e)

/-- `lseek` and `write`: overwrite characters from a position on. -/
def overwrite (cs : List Char) (i : Nat) (data : List Char) : List Char :=
  cs.take i ++ data ++ cs.drop (i + data.length)

/-- Write a file that is already open. -/
def putFile (path : String) (content : List Char) : Txn Unit :=
  Prog.update (fun w => { w with files := w.files.replace path (String.ofList content) })

/-- The common part of the functions for the private key: they differ in
how the content of the file is rewritten with the new data. An empty
element sets an error and goes on with a null pointer, whose length is
zero. -/
def modOwnCertKey (env : Env) (rewrite : List Char → Nat → Nat → List Char → List Char)
    (resid : Option String) (node : Option Node) : Txn Unit := do
  let r ← argument resid
  match node with
  | none => pure ()
  | some n => do
      let data := ((firstContent n).getD "").toList
      let ssl ← findSsl ofcResidOwn r
      let (path, cs, b, e) ← parsePem env ssl.val.privateKey
      putFile path (rewrite cs b e data)

/-- `txn_mod_own_cert_key_type`: both markers are overwritten in place. -/
def txnModOwnCertKeyType (env : Env) (resid : Option String) (node : Option Node) : Txn Unit :=
  modOwnCertKey env (fun cs b e type => overwrite (overwrite cs (b + 11) type) (e + 10) type)
    resid node

/-- `txn_mod_own_cert_key_data`: the markers are kept. -/
def txnModOwnCertKeyData (env : Env) (resid : Option String) (node : Option Node) : Txn Unit :=
  modOwnCertKey env (fun cs b e data => (cs.drop b).take 32 ++ data ++ (cs.drop e).take 30)
    resid node

/-! ### Deleting an entry -/

/-- The error of a deletion without a key. -/
def noResid (which : String) : NcErr :=
  { tag := .missingElem, badElem := some "resource_id"
    msg := some (which ++ " has no resource-id specified") }

/-- Delete the row of the certificates. -/
def dropSsl (u : Uuid) : Txn Unit := do
  match ← readDb (fun db => db.openVswitch.first (fun _ => true)) with
  | none => fail (opFailed "OVSDB content is corrupted")
  | some o =>
    modifyDb (fun db =>
      { db with openVswitch := db.openVswitch.update o.uuid (fun r => { r with ssl := none })
                ssl := db.ssl.delete u })

/-- Remove the owned certificate from a row that has an external one. -/
def clearOwned (env : Env) (u : Uuid) : Txn Unit := do
  unlinkFile (certPem env)
  updateSsl u (fun s => { s with certificate := some "" })
  unlinkFile (keyPem env)
  updateSsl u (fun s => { s with privateKey := some "" })
  updateSsl u (fun s => { s with externalIds := s.externalIds.remove ofcResidOwn })

/-- Remove the external certificate from a row that has an owned one. -/
def clearExternal (env : Env) (u : Uuid) : Txn Unit := do
  unlinkFile (caCertPem env)
  updateSsl u (fun s => { s with caCert := some "" })
  updateSsl u (fun s => { s with externalIds := s.externalIds.remove ofcResidExt })

/-- `txn_del_owned_certificate` -/
def txnDelOwnedCertificate (env : Env) (node : Node) : Txn Unit :=
  match getKey (some node) "resource-id" with
  | none => fail (noResid "owned-certificate")
  | some resid => do
      let ssl ← findSsl ofcResidOwn resid
      if (ssl.val.externalIds.get ofcResidExt).isNone then dropSsl ssl.uuid
      else clearOwned env ssl.uuid

/-- `txn_del_external_certificate` -/
def txnDelExternalCertificate (env : Env) (node : Node) : Txn Unit :=
  match getKey (some node) "resource-id" with
  | none => fail (noResid "external-certificate")
  | some resid => do
      let ssl ← findSsl ofcResidExt resid
      if (ssl.val.externalIds.get ofcResidOwn).isNone then dropSsl ssl.uuid
      else clearExternal env ssl.uuid

end OfConfig.Ovs
