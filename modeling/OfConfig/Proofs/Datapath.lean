import OfConfig.Ovs.Render

/-!
# `OfConfig.Proofs.Datapath`: datapath ids

`txn_mod_bridge_datapath` takes the colons out of a value of 23 bytes,
`get_bridges_config` puts colons into the 16 bytes that are stored. The
only check is the one of the length.

* `datapathLoop_eq`: the first loop copies the bytes that are no colons,
  then the terminating zero, and then it reads what follows.
* `insertColons_eq`: the second loop writes pairs of bytes.
* `datapath_round_trip_iff`: a value comes back if and only if its colons
  stand after every second byte (`Paired`), and no other condition keeps the
  first loop inside its strings.
-/

set_option autoImplicit false

namespace OfConfig.Proofs

open OfConfig.Lib OfConfig.Xml OfConfig.Edit OfConfig.Ovs

/-- The bytes that are no colons. -/
def digitsOf (value : List UInt8) : List UInt8 := value.filter (· ≠ colonByte)

/-- Pairs of other bytes, with colons between them. -/
def Paired : List UInt8 → Prop
  | [a, b] => a ≠ colonByte ∧ b ≠ colonByte
  | a :: b :: c :: rest => a ≠ colonByte ∧ b ≠ colonByte ∧ c = colonByte ∧ Paired rest
  | _ => False

/-- Pairs of bytes with colons between them, from the bytes. -/
def pairUp : List UInt8 → List UInt8
  | a :: b :: c :: rest => a :: b :: colonByte :: pairUp (c :: rest)
  | rest => rest

/-! ### The loop that takes the colons out -/

theorem drop_skipColons (value : List UInt8) (j : Nat) :
    value.drop (skipColons value j) = (value.drop j).dropWhile (· = colonByte) := by
  rw [skipColons, ← List.drop_drop]
  generalize value.drop j = rest
  have hdrop : (rest.takeWhile (· = colonByte) ++ rest.dropWhile (· = colonByte)).drop
      (rest.takeWhile (· = colonByte)).length = rest.dropWhile (· = colonByte) := List.drop_left
  rwa [List.takeWhile_append_dropWhile] at hdrop

theorem skipColons_le (value : List UInt8) {j : Nat} (h : j ≤ value.length) :
    skipColons value j ≤ value.length := by
  have hle := (List.takeWhile_prefix (p := (· = colonByte)) (l := value.drop j)).length_le
  rw [List.length_drop] at hle
  rw [skipColons]
  omega

theorem digitsOf_dropWhile (l : List UInt8) :
    digitsOf (l.dropWhile (· = colonByte)) = digitsOf l := by
  induction l with
  | nil => rfl
  | cons b l ih =>
    by_cases hb : b = colonByte
    · rw [List.dropWhile_cons_of_pos (by simpa using hb), ih]
      simp [digitsOf, hb]
    · rw [List.dropWhile_cons_of_neg (by simpa using hb)]

/-- Beyond the end no round succeeds. -/
theorem datapathLoop_beyond (value : List UInt8) (n : Nat) :
    datapathLoop value n (value.length + 1) = if n = 0 then some [] else none := by
  cases n with
  | zero => rfl
  | succ n =>
    have hskip : skipColons value (value.length + 1) = value.length + 1 := by
      simp [skipColons, List.drop_eq_nil_of_le (Nat.le_succ value.length)]
    rw [datapathLoop, hskip, byteAt_of_gt (Nat.lt_succ_self _)]
    rfl

/-- The rounds copy the digits, then the terminating zero; one more reads
beyond it. -/
theorem datapathLoop_eq (value : List UInt8) (n : Nat) {j : Nat} (hj : j ≤ value.length) :
    datapathLoop value n j =
      if n ≤ (digitsOf (value.drop j)).length + 1 then
        some ((digitsOf (value.drop j) ++ [0]).take n)
      else none := by
  induction n generalizing j with
  | zero => simp [datapathLoop]
  | succ n ih =>
    have hle := skipColons_le value hj
    have hdrop := drop_skipColons value j
    rw [datapathLoop, ← digitsOf_dropWhile (value.drop j), ← hdrop]
    generalize skipColons value j = k at hle hdrop ⊢
    cases hrest : value.drop k with
    | nil =>
      -- only colons were left: the round copies the terminating zero
      obtain rfl : k = value.length := by
        have := List.drop_eq_nil_iff.mp hrest
        omega
      rw [byteAt_length]
      simp only [Option.bind_eq_bind, Option.bind_some, datapathLoop_beyond, digitsOf]
      cases n <;> simp
    | cons c rest =>
      have hlt : k < value.length := by
        by_contra hge
        rw [List.drop_eq_nil_of_le (by omega)] at hrest
        cases hrest
      have hget : value[k]? = some c := by
        rw [← List.head?_drop, hrest]
        rfl
      have hnext : value.drop (k + 1) = rest := by
        rw [← List.tail_drop, hrest]
        rfl
      have hc : c ≠ colonByte := by
        rw [hrest] at hdrop
        have := List.head?_dropWhile_not (· = colonByte) (value.drop j)
        rw [← hdrop] at this
        simpa using this
      have hdigits : digitsOf (c :: rest) = c :: digitsOf rest := by simp [digitsOf, hc]
      rw [byteAt_of_lt hlt, hget, hdigits]
      simp only [Option.bind_eq_bind, Option.bind_some, ih (Nat.succ_le_of_lt hlt), hnext]
      by_cases hn : n ≤ (digitsOf rest).length + 1
      · simp [hn]
      · simp [hn]

/-- The buffer ends up with a string inside the value if and only if there
are sixteen digits. -/
theorem datapathDigits_eq {value : List UInt8} (h0 : 0 ∉ value) :
    datapathDigits value =
      if (digitsOf value).length = 16 then some (digitsOf value) else none := by
  have hz : 0 ∉ digitsOf value := fun hmem => h0 (List.mem_filter.mp hmem).1
  rw [datapathDigits, datapathLoop_eq value 17 (Nat.zero_le _), List.drop_zero]
  by_cases h16 : (digitsOf value).length = 16
  · rw [if_pos (by omega), if_pos h16, List.take_of_length_le (by simp [h16])]
    exact cString_snoc hz
  · rw [if_neg h16]
    by_cases hle : 17 ≤ (digitsOf value).length + 1
    · -- seventeen digits fill the buffer
      rw [if_pos hle, List.take_append_of_le_length (by omega)]
      have hno : 0 ∉ (digitsOf value).take 17 := fun hmem => hz (List.mem_of_mem_take hmem)
      simp [cString, hno]
    · rw [if_neg hle]
      rfl

/-! ### The loop that puts colons in -/

/-- Two bytes and the rest, from a position on. -/
theorem drop_two {id : List UInt8} {i : Nat} (h : i + 1 < id.length) :
    ∃ a b, byteAt id i = some a ∧ byteAt id (i + 1) = some b ∧
      id.drop i = a :: b :: id.drop (i + 2) := by
  refine ⟨id[i], id[i + 1], ?_, ?_, ?_⟩
  · rw [byteAt_of_lt (by omega), List.getElem?_eq_getElem]
  · rw [byteAt_of_lt h, List.getElem?_eq_getElem]
  · rw [List.drop_eq_getElem_cons (by omega), List.drop_eq_getElem_cons h]

/-- The rounds for `k + 1` pairs of bytes. -/
theorem colonLoop_eq (id : List UInt8) (k : Nat) {i j : Nat} (hj : j % 3 = 1)
    (hi : i + (2 * k + 2) ≤ id.length) :
    colonLoop id (3 * k + 2) i j = some (pairUp ((id.drop i).take (2 * k + 2))) := by
  induction k generalizing i j with
  | zero =>
    obtain ⟨a, b, ha, hb, hdrop⟩ := drop_two (show i + 1 < id.length by omega)
    have h1 : ¬ j % 3 = 0 := by omega
    have h2 : ¬ (j + 1) % 3 = 0 := by omega
    simp [colonLoop, h1, h2, ha, hb, hdrop, pairUp]
  | succ k ih =>
    obtain ⟨a, b, ha, hb, hdrop⟩ := drop_two (show i + 1 < id.length by omega)
    have h1 : ¬ j % 3 = 0 := by omega
    have h2 : ¬ (j + 1) % 3 = 0 := by omega
    have h3 : (j + 2) % 3 = 0 := by omega
    have hrest := ih (show (j + 3) % 3 = 1 by omega) (show i + 2 + (2 * k + 2) ≤ id.length by omega)
    obtain ⟨c, d, -, -, hdrop'⟩ := drop_two (show i + 2 + 1 < id.length by omega)
    have hrounds : 3 * (k + 1) + 2 = 3 * k + 2 + 1 + 1 + 1 := by omega
    have htake : (id.drop i).take (2 * (k + 1) + 2) =
        a :: b :: (id.drop (i + 2)).take (2 * k + 2) := by
      rw [hdrop, show 2 * (k + 1) + 2 = (2 * k + 2) + 1 + 1 by omega]
      rfl
    rw [hrounds, colonLoop, if_neg h1, ha, colonLoop, if_neg h2, hb, colonLoop, if_pos h3, hrest,
      htake, hdrop']
    rfl

theorem mem_pairUp {b : UInt8} {ds : List UInt8} (h : b ∈ pairUp ds) : b = colonByte ∨ b ∈ ds := by
  induction ds using pairUp.induct with
  | case1 x y z rest ih =>
    simp only [pairUp, List.mem_cons] at h ih ⊢
    grind
  | case2 ds hds => exact .inr (by rwa [pairUp] at h; exact hds)

/-- Sixteen bytes are written in pairs. -/
theorem insertColons_eq {id : List UInt8} (hlen : id.length = 16) (h0 : 0 ∉ id) :
    insertColons id = some (pairUp id) := by
  have hloop : colonLoop id 23 0 1 = some (pairUp id) := by
    have h := colonLoop_eq id 7 (i := 0) (j := 1) (by omega) (by omega)
    rwa [List.drop_zero, List.take_of_length_le (by omega)] at h
  rw [insertColons, hloop, Option.bind_some]
  refine cString_snoc fun hmem => ?_
  rcases mem_pairUp hmem with h | h
  · exact absurd h (by decide)
  · exact h0 h

/-! ### Values in pairs -/

theorem Paired.digits {value : List UInt8} (h : Paired value) :
    pairUp (digitsOf value) = value ∧ 3 * (digitsOf value).length = 2 * (value.length + 1) := by
  induction value using Paired.induct with
  | case1 a b => simp [digitsOf, h.1, h.2, pairUp]
  | case2 a b c rest ih =>
    obtain ⟨ha, hb, rfl, hrest⟩ := h
    obtain ⟨hpair, hlen⟩ := ih hrest
    have hdigits : digitsOf (a :: b :: colonByte :: rest) = a :: b :: digitsOf rest := by
      simp [digitsOf, ha, hb]
    rw [hdigits]
    cases hds : digitsOf rest with
    | nil => simp [hds] at hlen
    | cons d ds =>
      rw [pairUp, ← hds, hpair]
      refine ⟨rfl, ?_⟩
      simp only [List.length_cons]
      omega
  | case3 l h1 h2 => exact absurd h (by simp_all [Paired])

theorem paired_pairUp {ds : List UInt8} (hno : colonByte ∉ ds) (heven : ds.length % 2 = 0)
    (hne : ds ≠ []) : Paired (pairUp ds) := by
  induction ds using pairUp.induct with
  | case1 a b c rest ih =>
    simp only [List.mem_cons, not_or] at hno
    have hrest : Paired (pairUp (c :: rest)) := by
      refine ih (by simpa using hno.2.2) ?_ (by simp)
      simp only [List.length_cons] at heven ⊢
      omega
    rw [pairUp]
    cases hp : pairUp (c :: rest) with
    | nil => simp [hp, Paired] at hrest
    | cons d ds =>
      rw [hp] at hrest
      exact ⟨fun h => hno.1 h.symm, fun h => hno.2.1 h.symm, rfl, hrest⟩
  | case2 ds hds =>
    match ds, hds with
    | [], _ => exact absurd rfl hne
    | [a], _ => simp at heven
    | [a, b], _ =>
      simp only [List.mem_cons, List.not_mem_nil, or_false, not_or] at hno
      exact ⟨fun h => hno.1 h.symm, fun h => hno.2 h.symm⟩
    | a :: b :: c :: rest, hds => exact absurd rfl (hds a b c rest)

/-- Sixteen digits are written as the value they come from if and only if
that is in pairs. -/
theorem pairUp_digitsOf_iff {value : List UInt8} (hlen : value.length = 23) :
    (digitsOf value).length = 16 ∧ pairUp (digitsOf value) = value ↔ Paired value := by
  constructor
  · rintro ⟨h16, hpair⟩
    rw [← hpair]
    refine paired_pairUp (by simp [digitsOf]) (by omega) ?_
    intro hnil
    simp [hnil] at h16
  · intro h
    obtain ⟨hpair, hdigits⟩ := h.digits
    exact ⟨by omega, hpair⟩

/-! ### `txn_mod_bridge_datapath` -/

/-- The bridge that a name finds has the datapath id in its other
configuration. -/
def HasDatapath (brName : String) (dp : List UInt8) (w : Work) : Prop :=
  ∃ br, findBridge (some brName) w.idl = some br ∧
    br.val.otherConfig.get "datapath-id" = some (textOf dp)

/-- A value of 23 bytes that passes the loop is stored. -/
theorem txnModBridgeDatapath_run {brName v : String} {w : Work} {br : Row Bridge}
    (hdist : w.idl.bridge.Distinct) (hbr : findBridge (some brName) w.idl = some br)
    (hlen : xmlStrlen v = 23) {dp : List UInt8} (hdp : datapathDigits (bytesOf v) = some dp) :
    ∃ w', txnModBridgeDatapath (some brName) (some v) w = (.ok (), w') ∧
      HasDatapath brName dp w' := by
  have hname : some brName = br.val.name := of_decide_eq_true (Table.first_some hbr).2
  let store (b : Bridge) : Bridge :=
    { b with otherConfig := b.otherConfig.replace "datapath-id" (textOf dp) }
  have hfind : (w.idl.bridge.update br.uuid store).first (fun b => some brName = b.name) =
      some { br with val := store br.val } := hdist.first_update hbr (decide_eq_true hname)
  refine ⟨{ w with idl := { w.idl with bridge := w.idl.bridge.update br.uuid store } }, ?_, ?_⟩
  · simp only [txnModBridgeDatapath, argument, Prog.ofOption, Prog.bind_run, Prog.ret_run, readDb,
      Prog.read_run, hbr, hlen, ne_eq, not_true_eq_false, if_false, deref, hdp, updateBridge,
      modifyDb, Prog.update_run, store]
  · refine ⟨_, hfind, ?_⟩
    simp only [store]
    rw [Smap.get_replace, if_pos rfl]

/-- A value of the right length is stored as sixteen bytes, without a read or
a string beyond its end, and comes back as it was, if and only if it is made
of pairs with colons between them. -/
theorem datapath_round_trip_iff {brName v : String} {w : Work} {br : Row Bridge}
    (hdist : w.idl.bridge.Distinct) (hbr : findBridge (some brName) w.idl = some br)
    (h0 : 0 ∉ bytesOf v) (hlen : xmlStrlen v = 23) :
    (∃ w' dp, txnModBridgeDatapath (some brName) (some v) w = (.ok (), w') ∧
      datapathDigits (bytesOf v) = some dp ∧ HasDatapath brName dp w' ∧ dp.length = 16 ∧
      insertColons dp = some (bytesOf v)) ↔ Paired (bytesOf v) := by
  rw [← pairUp_digitsOf_iff hlen]
  have hz : 0 ∉ digitsOf (bytesOf v) := fun hmem => h0 (List.mem_filter.mp hmem).1
  have hdigits := datapathDigits_eq h0
  constructor
  · rintro ⟨w', dp, -, hdp, -, h16, hback⟩
    rw [hdigits] at hdp
    split at hdp
    · obtain rfl := Option.some.inj hdp
      rw [insertColons_eq h16 hz] at hback
      exact ⟨h16, Option.some.inj hback⟩
    · cases hdp
  · rintro ⟨h16, hpair⟩
    rw [if_pos h16] at hdigits
    obtain ⟨w', hrun, hstored⟩ := txnModBridgeDatapath_run hdist hbr hlen hdigits
    exact ⟨w', _, hrun, hdigits, hstored, h16, by rw [insertColons_eq h16 hz, hpair]⟩

/-- A database with one bridge. -/
def bridgeDb : Db := { bridge := [⟨0, false, true, { name := some "br0" }⟩] }

/-- A datapath id of the data model. -/
theorem datapath_round_trip_pairs :
    ∃ w' dp, txnModBridgeDatapath (some "br0") (some "00:00:12:34:56:78:9a:bc")
        { idl := bridgeDb } =
        (.ok (), w') ∧
      datapathDigits (bytesOf "00:00:12:34:56:78:9a:bc") = some dp ∧ HasDatapath "br0" dp w' ∧
      dp.length = 16 ∧ insertColons dp = some (bytesOf "00:00:12:34:56:78:9a:bc") := by
  have hdist : bridgeDb.bridge.Distinct := by simp [Table.Distinct, bridgeDb]
  have hbr : findBridge (some "br0") bridgeDb =
      some ⟨0, false, true, { name := some "br0" }⟩ := by decide
  refine (datapath_round_trip_iff hdist hbr (by decide) (by decide)).mpr ?_
  have hbytes : bytesOf "00:00:12:34:56:78:9a:bc" = [48, 48, 58, 48, 48, 58, 49, 50, 58, 51, 52, 58,
      53, 54, 58, 55, 56, 58, 57, 97, 58, 98, 99] := by decide
  rw [hbytes]
  simp [Paired, colonByte]

/-- With single digits between the colons the loop reads beyond the value;
with the colons at the end another value comes back; and without colons the
buffer has no terminating zero. -/
theorem datapath_not_in_pairs :
    xmlStrlen "0:0:0:0:0:0:0:0:0:0:0:0" = 23 ∧
    datapathLoop (bytesOf "0:0:0:0:0:0:0:0:0:0:0:0") 17 0 = none ∧
    xmlStrlen "0000000000000000:::::::" = 23 ∧
    (datapathDigits (bytesOf "0000000000000000:::::::")).bind insertColons =
      some (bytesOf "00:00:00:00:00:00:00:00") ∧
    xmlStrlen "00000000000000000000000" = 23 ∧
    (datapathLoop (bytesOf "00000000000000000000000") 17 0).bind cString = none := by
  decide

end OfConfig.Proofs
