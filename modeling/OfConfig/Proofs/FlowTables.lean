import OfConfig.Ovs.Backend

/-!
# `OfConfig.Proofs.FlowTables`: the id a flow table is shown with

A flow table keeps the text of its `table-id`; a bridge refers to the table
under the number that `sscanf` reads from that text. The configuration
shows the number, and an edit is looked up by its text.

`TableLinks` holds when the references of the bridges were made by
`txn_add_bridge_flowtable` and `txn_add_bridge` (`TableLinks.link`). Then
`flowtable_addressed_iff` says when the text that is shown selects the
table: if and only if the number is printed as the text it was read from.
-/

set_option autoImplicit false

namespace OfConfig.Proofs

open OfConfig.Lib OfConfig.Xml OfConfig.Edit OfConfig.Ovs

/-- The key under which a bridge refers to a table with the id. -/
def tableKey (tableId : String) : Int := (scanI64 tableId).getD 0

/-- The reference of a bridge to the table that is found under an id. -/
structure RefersTo (db : Db) (t : Int × Uuid) (tableId : String) (ft : Row FlowTable) : Prop where
  first : findFlowtable (some tableId) db = some ft
  key : t.1 = tableKey tableId
  uuid : t.2 = ft.uuid

/-- The references of the bridges as the code makes them. -/
structure TableLinks (db : Db) : Prop where
  bridges : db.bridge.Distinct
  tables : db.flowTable.Distinct
  refers : ∀ b ∈ db.bridge.live, ∀ t ∈ b.val.flowTables, ∃ tableId ft, RefersTo db t tableId ft
  keys : ∀ b ∈ db.bridge.live, (b.val.flowTables.map Prod.fst).Nodup

/-- The references that are set for a bridge with one more table. -/
def moreRefs (br : Row Bridge) (tableId : String) (ft : Row FlowTable) : List (Int × Uuid) :=
  br.val.flowTables ++ [(tableKey tableId, ft.uuid)]

/-- The references of a bridge after one more was set. -/
def addRef (db : Db) (br : Row Bridge) (tableId : String) (ft : Row FlowTable) :
    List (Int × Uuid) :=
  db.flowTable.keyedRefs (moreRefs br tableId ft)

/-- The database after the references `passed` were set for a bridge, which is
then shown with the references `ts`. -/
def withRefs (db : Db) (u : Uuid) (ts passed : List (Int × Uuid)) : Db :=
  { db with
      bridge := db.bridge.update u (fun b => { b with flowTables := ts })
      written := db.written ++ [.flowTables u passed] }

variable {db : Db} {br : Row Bridge} {ft : Row FlowTable} {tableId brName : String}

theorem findFlowtable_some (h : findFlowtable (some tableId) db = some ft) :
    ft ∈ db.flowTable.live ∧ ft.val.id = some tableId := by
  have hfirst : db.flowTable.first (fun t => t.id = some tableId) = some ft := h
  obtain ⟨hmem, hid⟩ := Table.first_some hfirst
  exact ⟨hmem, of_decide_eq_true hid⟩

theorem isLive_of_mem {u : Uuid} (h : ft ∈ db.flowTable.live) (hu : u = ft.uuid) :
    db.flowTable.isLive u = true :=
  List.any_eq_true.mpr ⟨ft, (List.mem_filter.mp h).1, by simp [hu, (List.mem_filter.mp h).2]⟩

/-- The table of a reference is there. -/
theorem RefersTo.isLive {t : Int × Uuid} (h : RefersTo db t tableId ft) :
    db.flowTable.isLive t.2 = true := isLive_of_mem (findFlowtable_some h.first).1 h.uuid

theorem RefersTo.deref (hd : db.flowTable.Distinct) {t : Int × Uuid}
    (h : RefersTo db t tableId ft) : db.flowTable.deref t.2 = some ft.val := by
  rw [h.uuid]
  exact hd.deref (hd.rowAt (findFlowtable_some h.first).1)

namespace TableLinks

variable (h : TableLinks db)

include h

/-- A reference of a bridge whose table has an id is the one under the key of
that id. -/
theorem eq_of_id {b : Row Bridge} (hb : b ∈ db.bridge.live) {t t' : Int × Uuid}
    (ht : t ∈ b.val.flowTables) (ht' : t' ∈ b.val.flowTables) (hr : RefersTo db t tableId ft)
    (hid : (db.flowTable.deref t'.2).bind FlowTable.id = some tableId) : t' = t := by
  obtain ⟨tableId', ft', hr'⟩ := h.refers b hb t' ht'
  rw [hr'.deref h.tables, Option.bind_some, (findFlowtable_some hr'.first).2] at hid
  obtain rfl := Option.some.inj hid
  exact List.inj_on_of_nodup_map (h.keys b hb) ht' ht (hr'.key.trans hr.key.symm)

/-- A new reference replaces the one under the same key. -/
theorem addRef_eq (hbr : br ∈ db.bridge.live) (hft : findFlowtable (some tableId) db = some ft) :
    addRef db br tableId ft = br.val.flowTables.filter (fun t => t.1 ≠ tableKey tableId) ++
      [(tableKey tableId, ft.uuid)] := by
  refine Table.keyedRefs_snoc _ (fun t ht => ?_) (isLive_of_mem (findFlowtable_some hft).1 rfl)
    (h.keys br hbr)
  obtain ⟨tableId', ft', hr⟩ := h.refers br hbr t ht
  exact hr.isLive

/-- Setting references that are as they should be. -/
theorem setRefs (u : Uuid) {ts passed : List (Int × Uuid)}
    (hrefs : ∀ t ∈ ts, ∃ tableId ft, RefersTo db t tableId ft) (hkeys : (ts.map Prod.fst).Nodup) :
    TableLinks (withRefs db u ts passed) := by
  have hrow : ∀ b ∈ (withRefs db u ts passed).bridge.live,
      b.val.flowTables = ts ∨ b ∈ db.bridge.live := by
    intro b hb
    have hb' : b ∈ (db.bridge.update u (fun b => { b with flowTables := ts })).live := hb
    obtain ⟨b₀, hb₀, rfl⟩ := Table.mem_live_update.mp hb'
    by_cases hu : b₀.uuid = u
    · exact .inl (by rw [if_pos hu])
    · exact .inr (by rwa [if_neg hu])
  have hdistinct : (db.bridge.update u (fun b => { b with flowTables := ts })).Distinct :=
    h.bridges.update _ _
  refine ⟨hdistinct, h.tables, fun b hb t ht => ?_, fun b hb => ?_⟩
  · rcases hrow b hb with heq | hold
    · obtain ⟨i, f, hr⟩ := hrefs t (heq ▸ ht)
      exact ⟨i, f, hr.first, hr.key, hr.uuid⟩
    · obtain ⟨i, f, hr⟩ := h.refers b hold t ht
      exact ⟨i, f, hr.first, hr.key, hr.uuid⟩
  · rcases hrow b hb with heq | hold
    · rw [heq]
      exact hkeys
    · exact h.keys b hold

/-- A link to the table that is found keeps the references as they should
be. -/
theorem link (hbr : br ∈ db.bridge.live) (hft : findFlowtable (some tableId) db = some ft) :
    TableLinks (withRefs db br.uuid (addRef db br tableId ft) (moreRefs br tableId ft)) := by
  have heq := h.addRef_eq hbr hft
  refine h.setRefs _ (fun t ht => ?_) ?_
  · rw [heq] at ht
    rcases List.mem_append.mp ht with hold | hnew
    · exact h.refers br hbr t (List.mem_filter.mp hold).1
    · obtain rfl := List.mem_singleton.mp hnew
      exact ⟨tableId, ft, hft, rfl, rfl⟩
  · rw [heq, List.map_append, List.map_singleton]
    refine List.Nodup.append ((h.keys br hbr).sublist (List.filter_sublist.map _)) (by simp) ?_
    rw [List.disjoint_singleton]
    intro hmem
    obtain ⟨t, ht, hk⟩ := List.mem_map.mp hmem
    simpa [hk] using (List.mem_filter.mp ht).2

end TableLinks

/-! ### Links that the code makes -/

/-- A successful call that links a table to a bridge: `txn_add_bridge_flowtable`,
or `txn_add_bridge` at a `flow-table` leaf of the new bridge. -/
inductive LinksTable (brName tableId : String) (w w' : Work) : Prop
  | add (hrun : txnAddBridgeFlowtable (some brName) tableId w = (.ok (), w'))
  | create {br : Row Bridge} {leaf : Node} (hbr : findBridge (some brName) w.idl = some br)
      (hleaf : leaf.label.name = "flow-table") (hid : firstContent leaf = some tableId)
      (hrun : addBridgeResource br.uuid leaf w = (.ok (), w'))

variable {w w' : Work}

theorem findBridge_some (h : findBridge (some brName) db = some br) :
    br ∈ db.bridge.live ∧ br.val.name = some brName := by
  obtain ⟨hmem, hname⟩ := Table.first_some (show db.bridge.first _ = some br from h)
  exact ⟨hmem, (of_decide_eq_true hname).symm⟩

theorem setFlowTables_ok {u : Uuid} {ts : List (Int × Uuid)}
    (h : setFlowTables u ts w = (.ok (), w')) :
    w' = { w with idl := withRefs w.idl u (w.idl.flowTable.keyedRefs ts) ts } := by
  cases h
  rfl

theorem txnAddBridgeFlowtable_ok
    (h : txnAddBridgeFlowtable (some brName) tableId w = (.ok (), w')) :
    ∃ ft br, findFlowtable (some tableId) w.idl = some ft ∧
      findBridge (some brName) w.idl = some br ∧
      w' = { w with idl := (withRefs w.idl br.uuid (addRef w.idl br tableId ft)
        (moreRefs br tableId ft)) } := by
  obtain ⟨_, w₁, h₁, h₂⟩ := Prog.bind_ok.mp h
  obtain ⟨-, rfl⟩ := Prog.ofOption_ok.mp h₁
  obtain ⟨oft, w₂, h₃, h₄⟩ := Prog.bind_ok.mp h₂
  obtain ⟨rfl, rfl⟩ := Prog.read_ok.mp h₃
  obtain ⟨obr, w₃, h₅, h₆⟩ := Prog.bind_ok.mp h₄
  obtain ⟨rfl, rfl⟩ := Prog.read_ok.mp h₅
  cases hft : findFlowtable (some tableId) w.idl with
  | none =>
    rw [hft] at h₆
    cases h₆
  | some ft =>
    rw [hft] at h₆
    cases hbr : findBridge (some brName) w.idl with
    | none =>
      rw [hbr] at h₆
      cases h₆
    | some br =>
      rw [hbr] at h₆
      exact ⟨ft, br, rfl, rfl, setFlowTables_ok h₆⟩

theorem txnBridgeInsertFlowtable_ok {u : Uuid} {b : Bridge} (hid : ft.val.id = some tableId)
    (h : txnBridgeInsertFlowtable u b ft w = (.ok (), w')) :
    w' = { w with idl := (withRefs w.idl u
      (w.idl.flowTable.keyedRefs (b.flowTables ++ [(tableKey tableId, ft.uuid)]))
      (b.flowTables ++ [(tableKey tableId, ft.uuid)])) } := by
  unfold txnBridgeInsertFlowtable at h
  rw [hid] at h
  exact setFlowTables_ok h

theorem addBridgeResource_ok (hd : w.idl.bridge.Distinct) {leaf : Node}
    (hbr : findBridge (some brName) w.idl = some br) (hleaf : leaf.label.name = "flow-table")
    (hid : firstContent leaf = some tableId)
    (h : addBridgeResource br.uuid leaf w = (.ok (), w')) :
    ∃ ft, findFlowtable (some tableId) w.idl = some ft ∧
      w' = { w with idl := (withRefs w.idl br.uuid (addRef w.idl br tableId ft)
        (moreRefs br tableId ft)) } := by
  obtain ⟨ob, w₁, h₁, h₂⟩ := Prog.bind_ok.mp h
  obtain ⟨rfl, rfl⟩ := Prog.read_ok.mp h₁
  obtain ⟨b, w₂, h₃, h₄⟩ := Prog.bind_ok.mp h₂
  obtain ⟨hb, rfl⟩ := Prog.ofOption_ok.mp h₃
  obtain rfl : br.val = b :=
    Option.some.inj ((hd.deref (hd.rowAt (findBridge_some hbr).1)).symm.trans hb)
  rw [if_neg (by rw [hleaf]; decide), if_pos hleaf, hid] at h₄
  obtain ⟨oft, w₃, h₅, h₆⟩ := Prog.bind_ok.mp h₄
  obtain ⟨rfl, rfl⟩ := Prog.read_ok.mp h₅
  cases hft : findFlowtable (some tableId) w.idl with
  | none =>
    rw [hft] at h₆
    cases h₆
  | some ft =>
    rw [hft] at h₆
    exact ⟨ft, rfl, txnBridgeInsertFlowtable_ok (findFlowtable_some hft).2 h₆⟩

/-- Both calls link the table that is found under the id. -/
theorem LinksTable.run (hd : w.idl.bridge.Distinct) (h : LinksTable brName tableId w w') :
    ∃ ft br, findFlowtable (some tableId) w.idl = some ft ∧
      findBridge (some brName) w.idl = some br ∧
      w' = { w with idl := (withRefs w.idl br.uuid (addRef w.idl br tableId ft)
        (moreRefs br tableId ft)) } := by
  cases h with
  | add hrun => exact txnAddBridgeFlowtable_ok hrun
  | create hbr hleaf hid hrun =>
    obtain ⟨ft, hft, hw⟩ := addBridgeResource_ok hd hbr hleaf hid hrun
    exact ⟨ft, _, hft, hbr, hw⟩

/-! ### Calls with the id that is shown -/

/-- A text selects the table: `find_flowtable` and `txn_del_flow_table` take
it, and `txn_del_bridge_flowtable` takes its reference off the bridge. -/
structure Selects (w : Work) (brName : String) (br : Row Bridge) (t : Int × Uuid)
    (ft : Row FlowTable) (text : String) : Prop where
  find : findFlowtable (some text) w.idl = some ft
  delete : txnDelFlowTable (some text) w =
    (.ok (), { w with idl := { w.idl with flowTable := w.idl.flowTable.delete ft.uuid } })
  unlink : txnDelBridgeFlowtable (some brName) text w =
    (.ok (), { w with idl := (withRefs w.idl br.uuid (br.val.flowTables.filter (· ≠ t))
      (br.val.flowTables.filter (· ≠ t))) })

theorem txnDelFlowTable_run (h : findFlowtable (some tableId) w.idl = some ft) :
    txnDelFlowTable (some tableId) w =
      (.ok (), { w with idl := { w.idl with flowTable := w.idl.flowTable.delete ft.uuid } }) := by
  have hread : readDb (findFlowtable (some tableId)) w = (.ok (some ft), w) :=
    Prog.read_ok.mpr ⟨h, rfl⟩
  have hargument : argument (some tableId) w = (.ok tableId, w) := rfl
  unfold txnDelFlowTable
  rw [Prog.bind_run_ok hargument, Prog.bind_run_ok hread]
  rfl

/-- All references of a bridge have a table with an id. -/
theorem TableLinks.flowTableIds (h : TableLinks w.idl) {ts : List (Int × Uuid)}
    (hts : ∀ t ∈ ts, ∃ tableId ft, RefersTo w.idl t tableId ft) :
    Prog.forEach ts (fun t => do let _ ← flowTableId w.idl t.2) w = (.ok (), w) := by
  induction ts with
  | nil => rfl
  | cons t ts ih =>
    obtain ⟨tableId, ft, hr⟩ := hts t (by simp)
    have hone : flowTableId w.idl t.2 w = (.ok tableId, w) := by
      have hderef : deref (w.idl.flowTable.deref t.2) w = (.ok ft.val, w) :=
        Prog.ofOption_ok.mpr ⟨hr.deref h.tables, rfl⟩
      unfold flowTableId
      rw [Prog.bind_run_ok hderef, (findFlowtable_some hr.first).2]
      rfl
    have hround : (do let _ ← flowTableId w.idl t.2 : Txn Unit) w = (.ok (), w) :=
      Prog.bind_run_ok hone
    rw [Prog.forEach, ← Prog.bind_def, Prog.bind_run_ok hround]
    exact ih fun t ht => hts t (by simp [ht])

/-- One reference is taken off. -/
theorem keepOthers_eq_rest {α : Type} [DecidableEq α] {p : α → Bool} {l : List α} {a : α}
    (hn : l.Nodup) (ha : a ∈ l) (hp : ∀ b ∈ l, p b = decide (b = a)) :
    keepOthers p l = .rest (l.filter (· ≠ a)) := by
  have hfilter : l.filter (fun x => !p x) = l.filter (· ≠ a) :=
    List.filter_congr fun b hb => by simp [hp b hb]
  have herase : l.filter (· ≠ a) = l.erase a := by
    rw [hn.erase_eq_filter]
    exact List.filter_congr fun b _ => by simp [bne, beq_eq_decide]
  have hlen : (l.filter (· ≠ a)).length + 1 = l.length := by
    have hpos := List.length_pos_of_mem ha
    rw [herase, List.length_erase_of_mem ha]
    omega
  unfold keepOthers
  simp only [hfilter]
  rw [if_neg (by omega), if_pos hlen]

variable {t : Int × Uuid}

theorem TableLinks.nodup (h : TableLinks db) (hbr : br ∈ db.bridge.live) :
    br.val.flowTables.Nodup := (h.keys br hbr).of_map

/-- References that are left are read as they were written. -/
theorem TableLinks.keyedRefs_filter (h : TableLinks db) (hbr : br ∈ db.bridge.live)
    (p : Int × Uuid → Bool) :
    db.flowTable.keyedRefs (br.val.flowTables.filter p) = br.val.flowTables.filter p := by
  refine Table.keyedRefs_of_live _ (fun t ht => ?_)
    ((h.keys br hbr).sublist (List.filter_sublist.map _))
  obtain ⟨tableId, ft, hr⟩ := h.refers br hbr t (List.mem_filter.mp ht).1
  exact hr.isLive

/-- The id of a table takes its reference off the bridge. -/
theorem txnDelBridgeFlowtable_run (h : TableLinks w.idl)
    (hbr : findBridge (some brName) w.idl = some br) (ht : t ∈ br.val.flowTables)
    (hr : RefersTo w.idl t tableId ft) :
    txnDelBridgeFlowtable (some brName) tableId w =
      (.ok (), { w with idl := (withRefs w.idl br.uuid (br.val.flowTables.filter (· ≠ t))
        (br.val.flowTables.filter (· ≠ t))) }) := by
  have hmem := (findBridge_some hbr).1
  have hargument : argument (some brName) w = (.ok brName, w) := rfl
  have hread : readDb (findBridge (some brName)) w = (.ok (some br), w) :=
    Prog.read_ok.mpr ⟨hbr, rfl⟩
  have hdb : readDb id w = (.ok w.idl, w) := rfl
  have hsame : ∀ t' ∈ br.val.flowTables,
      decide ((w.idl.flowTable.deref t'.2).bind FlowTable.id = some tableId) = decide (t' = t) := by
    intro t' ht'
    by_cases heq : t' = t
    · rw [heq, hr.deref h.tables]
      simpa using (findFlowtable_some hr.first).2
    · rw [decide_eq_false heq]
      exact decide_eq_false fun hid => heq (h.eq_of_id hmem ht ht' hr hid)
  unfold txnDelBridgeFlowtable
  rw [Prog.bind_run_ok hargument, Prog.bind_run_ok hread]
  dsimp only
  rw [Prog.bind_run_ok hdb, Prog.bind_run_ok (h.flowTableIds (h.refers br hmem)),
    keepOthers_eq_rest (h.nodup hmem) ht hsame]
  show setFlowTables br.uuid _ w = _
  have hset : setFlowTables br.uuid (br.val.flowTables.filter (· ≠ t)) w =
      (.ok (), { w with idl := (withRefs w.idl br.uuid
        (w.idl.flowTable.keyedRefs (br.val.flowTables.filter (· ≠ t)))
        (br.val.flowTables.filter (· ≠ t))) }) := rfl
  rw [hset, h.keyedRefs_filter hmem]

/-- A text selects the table of a reference if and only if it is the id of
the table. -/
theorem selects_iff (h : TableLinks w.idl) (hbr : findBridge (some brName) w.idl = some br)
    (ht : t ∈ br.val.flowTables) (hr : RefersTo w.idl t tableId ft) (text : String) :
    Selects w brName br t ft text ↔ text = tableId := by
  constructor
  · intro hs
    have hid := (findFlowtable_some hs.find).2
    rw [(findFlowtable_some hr.first).2] at hid
    exact (Option.some.inj hid).symm
  · rintro rfl
    exact ⟨hr.first, txnDelFlowTable_run hr.first, txnDelBridgeFlowtable_run h hbr ht hr⟩

/-- All references to a table are under the key of its id. -/
theorem TableLinks.refersTo (h : TableLinks db) (hbr : br ∈ db.bridge.live)
    (ht : t ∈ br.val.flowTables) (hft : findFlowtable (some tableId) db = some ft)
    (hu : t.2 = ft.uuid) : RefersTo db t tableId ft := by
  obtain ⟨tableId', ft', hr⟩ := h.refers br hbr t ht
  obtain ⟨hmem, hid⟩ := findFlowtable_some hft
  obtain ⟨hmem', hid'⟩ := findFlowtable_some hr.first
  obtain rfl : ft' = ft :=
    h.tables.eq (List.mem_filter.mp hmem').1 (List.mem_filter.mp hmem).1 (hr.uuid.symm.trans hu)
  obtain rfl : tableId' = tableId := Option.some.inj (hid'.symm.trans hid)
  exact hr

/-- `find_flowtable_id` gives the key of a reference to the table. -/
theorem TableLinks.findFlowtableId_eq (h : TableLinks db) (hbr : br ∈ db.bridge.live)
    (ht : t ∈ br.val.flowTables) (hr : RefersTo db t tableId ft) :
    findFlowtableId db ft.uuid = some (tableKey tableId) := by
  rw [findFlowtableId]
  cases hf : (db.bridge.live.flatMap (fun b => b.val.flowTables)).find?
      (fun t => t.2 = ft.uuid) with
  | none =>
    exact absurd (by simpa using hr.uuid)
      (List.find?_eq_none.mp hf t (List.mem_flatMap.mpr ⟨br, hbr, ht⟩))
  | some t' =>
    obtain ⟨b, hb, ht'⟩ := List.mem_flatMap.mp (List.mem_of_find?_eq_some hf)
    have hu : t'.2 = ft.uuid := by simpa using List.find?_some hf
    exact congrArg some (h.refersTo hb ht' hr.first hu).key

/-- A linked table is shown, by `get_flow_tables_config` and in every bridge
that refers to it, with the number read from its id; that text selects the
table if and only if it is the id. -/
theorem flowtable_addressed_iff (h : TableLinks w.idl) (hlink : LinksTable brName tableId w w') :
    ∃ ft, findFlowtable (some tableId) w'.idl = some ft ∧
      findFlowtableId w'.idl ft.uuid = some (tableKey tableId) ∧
      (∃ br, findBridge (some brName) w'.idl = some br ∧
        (tableKey tableId, ft.uuid) ∈ br.val.flowTables) ∧
      ((∀ name br t, findBridge (some name) w'.idl = some br → t ∈ br.val.flowTables →
          t.2 = ft.uuid → Selects w' name br t ft (toString t.1)) ↔
        toString (tableKey tableId) = tableId) := by
  obtain ⟨ft, br, hft, hbr, rfl⟩ := hlink.run h.bridges
  obtain ⟨hmem, hname⟩ := findBridge_some hbr
  have hlinks := h.link hmem hft
  have heq := h.addRef_eq hmem hft
  generalize addRef w.idl br tableId ft = ts at hlinks heq ⊢
  generalize moreRefs br tableId ft = passed at hlinks ⊢
  -- the bridge is found again, with the new reference
  have hbr' : findBridge (some brName) (withRefs w.idl br.uuid ts passed) =
      some { br with val := { br.val with flowTables := ts } } :=
    h.bridges.first_update (f := fun b => { b with flowTables := ts }) hbr
      (decide_eq_true hname.symm)
  have ht : (tableKey tableId, ft.uuid) ∈ ts := by simp [heq]
  have hr : RefersTo (withRefs w.idl br.uuid ts passed) (tableKey tableId, ft.uuid) tableId ft :=
    ⟨hft, rfl, rfl⟩
  refine ⟨ft, hft, hlinks.findFlowtableId_eq (findBridge_some hbr').1 ht hr, ⟨_, hbr', ht⟩, ?_⟩
  constructor
  · intro hall
    exact (selects_iff hlinks hbr' ht hr _).mp (hall _ _ _ hbr' ht rfl)
  · intro hcanon name b t hb htb hu
    have hrt := hlinks.refersTo (findBridge_some hb).1 htb hft hu
    exact (selects_iff hlinks hb htb hrt _).mpr (hrt.key ▸ hcanon)

/-! ### Other calls that keep the links -/

theorem keeps_checkTableId (n : Node) : Prog.Keeps id (checkTableId n) := by
  refine Prog.keeps_bind (Prog.keeps_ofOption _ _) fun text => ?_
  cases scanI64 text with
  | none => exact Prog.keeps_stop _
  | some key => exact Prog.keeps_pure ()

/-- `txn_add_flow_table` adds a row with the id, at the end of the table. -/
theorem txnAddFlowTable_ok {node : Node} (h : txnAddFlowTable node w = (.ok (), w')) :
    ∃ tableId ft, lastContent node "table-id" = some tableId ∧ FlowTable.id ft = some tableId ∧
      w'.idl = { w.idl with flowTable := w.idl.flowTable.insert w.next ft } := by
  obtain ⟨_, w₁, h₁, h₂⟩ := Prog.bind_ok.mp h
  obtain rfl : w₁ = w := by
    exact (congrArg Prod.snd h₁).symm.trans
      (Prog.keeps_forEach (fun n _ => keeps_checkTableId n) w)
  cases hid : lastContent node "table-id" with
  | none =>
    rw [hid] at h₂
    cases h₂
  | some tableId =>
    rw [hid] at h₂
    obtain ⟨u, w₂, h₃, h₄⟩ := Prog.bind_ok.mp h₂
    cases h₃
    cases h₄
    refine ⟨tableId, _, rfl, ?_, rfl⟩
    cases lastContent node "resource-id" with
    | none => simp [FlowTable.id, Smap.get_replace]
    | some rid => simp [FlowTable.id, Smap.get_replace, ofcResourceId]

/-- A new row is found after the others. -/
theorem findFlowtable_insert (h : findFlowtable (some tableId) db = some ft) (u : Uuid)
    (new : FlowTable) : findFlowtable (some tableId)
      { db with flowTable := db.flowTable.insert u new } = some ft := by
  have hfirst : db.flowTable.first (fun t => t.id = some tableId) = some ft := h
  show (db.flowTable.insert u new).first (fun t => t.id = some tableId) = some ft
  rw [Table.first] at hfirst ⊢
  rw [Table.live, Table.insert, List.filter_append, List.find?_append]
  rw [Table.live] at hfirst
  rw [hfirst]
  rfl

/-- `txn_add_flow_table` keeps the links. -/
theorem TableLinks.add (h : TableLinks w.idl) (hnext : ∀ r ∈ w.idl.flowTable, r.uuid ≠ w.next)
    {node : Node} (hrun : txnAddFlowTable node w = (.ok (), w')) : TableLinks w'.idl := by
  obtain ⟨tableId, ft, -, -, hw⟩ := txnAddFlowTable_ok hrun
  rw [hw]
  refine ⟨h.bridges, h.tables.insert hnext ft, fun b hb t ht => ?_, h.keys⟩
  obtain ⟨tableId', ft', hr⟩ := h.refers b hb t ht
  exact ⟨tableId', ft', findFlowtable_insert hr.first _ _, hr.key, hr.uuid⟩

/-- `txn_del_bridge_flowtable` keeps the links. -/
theorem TableLinks.unlink (h : TableLinks w.idl) (hbr : findBridge (some brName) w.idl = some br)
    (ht : t ∈ br.val.flowTables) (hr : RefersTo w.idl t tableId ft)
    (hrun : txnDelBridgeFlowtable (some brName) tableId w = (.ok (), w')) :
    TableLinks w'.idl := by
  obtain ⟨hmem, -⟩ := findBridge_some hbr
  rw [txnDelBridgeFlowtable_run h hbr ht hr] at hrun
  cases hrun
  exact h.setRefs _ (fun t' ht' => h.refers br hmem t' (List.mem_filter.mp ht').1)
    ((h.keys br hmem).sublist (List.filter_sublist.map _))

/-! ### A canonical id and another one -/

/-- A flow table to add. -/
def flowTableNode (tableId : String) : Node :=
  elem "flow-table" none [elem "table-id" none [txt tableId]]

/-- A database with one bridge. -/
def bareBridge : Work :=
  { idl := { bridge := [⟨0, false, true, { name := some "br0" }⟩] }, next := 1 }

theorem tableLinks_bareBridge : TableLinks bareBridge.idl := by
  have hrow : ∀ b ∈ bareBridge.idl.bridge.live, b.val.flowTables = [] := by decide
  refine ⟨by simp [Table.Distinct, bareBridge], by simp [Table.Distinct, bareBridge],
    fun b hb t ht => ?_, fun b hb => ?_⟩
  · rw [hrow b hb] at ht
    cases ht
  · rw [hrow b hb]
    exact List.nodup_nil

/-- The database after a flow table was added. -/
def oneTable (tableId : String) : Work := (txnAddFlowTable (flowTableNode tableId) bareBridge).2

/-- A number without leading zeros. -/
theorem flowtable_addressed_one :
    (txnAddFlowTable (flowTableNode "1") bareBridge).1 = .ok () ∧
    ∃ ft w', txnAddBridgeFlowtable (some "br0") "1" (oneTable "1") = (.ok (), w') ∧
      findFlowtable (some "1") w'.idl = some ft ∧
      findFlowtableId w'.idl ft.uuid = some 1 ∧
      ∀ name br t, findBridge (some name) w'.idl = some br → t ∈ br.val.flowTables →
        t.2 = ft.uuid → Selects w' name br t ft (toString t.1) := by
  have hok : (txnAddFlowTable (flowTableNode "1") bareBridge).1 = .ok () := by decide
  have hadd : txnAddFlowTable (flowTableNode "1") bareBridge = (.ok (), oneTable "1") :=
    Prod.ext hok rfl
  have hlinks : TableLinks (oneTable "1").idl :=
    tableLinks_bareBridge.add (by decide) hadd
  have hrun : txnAddBridgeFlowtable (some "br0") "1" (oneTable "1") =
      (.ok (), (txnAddBridgeFlowtable (some "br0") "1" (oneTable "1")).2) :=
    Prod.ext (by decide) rfl
  have hkey : tableKey "1" = 1 := by decide
  obtain ⟨ft, hft, hshown, -, hiff⟩ := flowtable_addressed_iff hlinks (.add hrun)
  exact ⟨hok, ft, _, hrun, hft, hkey ▸ hshown, hiff.mpr (by decide)⟩

/-- The table `010` is shown as table 8, and 8 is no table. -/
theorem octal_id_not_addressed :
    (txnAddFlowTable (flowTableNode "010") bareBridge).1 = .ok () ∧
    (txnAddBridgeFlowtable (some "br0") "010" (oneTable "010")).1 = .ok () ∧
    findFlowtableId (txnAddBridgeFlowtable (some "br0") "010" (oneTable "010")).2.idl 1 = some 8 ∧
    findFlowtable (some (toString (8 : Int)))
      (txnAddBridgeFlowtable (some "br0") "010" (oneTable "010")).2.idl = none ∧
    (txnDelFlowTable (some (toString (8 : Int)))
      (txnAddBridgeFlowtable (some "br0") "010" (oneTable "010")).2).1 =
        .error (.err (Ovs.badElem "table_id" "Flow-table does not exist in OVSDB")) ∧
    (txnDelBridgeFlowtable (some "br0") (toString (8 : Int))
      (txnAddBridgeFlowtable (some "br0") "010" (oneTable "010")).2).2.idl.bridge.map
        (fun b => b.val.flowTables) = [[(8, 1)]] := by
  refine ⟨by decide, by decide, by decide, by decide,
    by decide, by decide⟩

end OfConfig.Proofs
