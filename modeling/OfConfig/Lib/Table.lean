import Mathlib.Data.List.Dedup

/-!
# `OfConfig.Lib.Table`: a database table as a client library shows it

The client holds a copy of a table and works on it inside a transaction.
Rows are known by an identifier. An iteration over the table visits the
rows that are there; a row that was deleted in the transaction is not
visited any more, but a pointer to it that was taken before can still be
followed, unless the row was created in the same transaction.

String maps, the other container of such a database, are at the end.
-/

set_option autoImplicit false

namespace OfConfig.Lib

/-- A row of a table. -/
structure Row (α : Type) where
  uuid : Nat
  /-- inserted by the open transaction -/
  fresh : Bool
  /-- not deleted by the open transaction -/
  alive : Bool
  val : α
deriving DecidableEq, Repr

/-- The rows of a table, in the order an iteration visits them. -/
abbrev Table (α : Type) := List (Row α)

namespace Table

variable {α : Type}

/-- The rows an iteration visits. -/
def live (t : Table α) : List (Row α) := t.filter Row.alive

/-- A search over the table that stops at the first hit. -/
def first (t : Table α) (p : α → Bool) : Option (Row α) := t.live.find? (fun r => p r.val)

/-- Follow a pointer. -/
def deref (t : Table α) (u : Nat) : Option α := (t.find? (fun r => r.uuid = u)).map Row.val

/-- Is the row there, and not deleted? -/
def isLive (t : Table α) (u : Nat) : Bool := t.any (fun r => r.uuid = u && r.alive)

/-- A column with references, as it is read again after a write:
references to deleted rows are dropped, and so are repeated ones. -/
def refs (t : Table α) (us : List Nat) : List Nat := (us.filter t.isLive).dedup

/-- A column that maps keys to references, as it is read again after a
write: a key occurs once. -/
def keyedRefs {κ : Type} [DecidableEq κ] (t : Table α) (us : List (κ × Nat)) : List (κ × Nat) :=
  (us.filter (fun u => t.isLive u.2)).pwFilter (fun a b => a.1 ≠ b.1)

/-- A new row. -/
def insert (t : Table α) (u : Nat) (a : α) : Table α := t ++ [⟨u, true, true, a⟩]

/-- Change a row. -/
def update (t : Table α) (u : Nat) (f : α → α) : Table α :=
  t.map (fun r => if r.uuid = u then { r with val := f r.val } else r)

/-- Change all rows an iteration visits. -/
def updateAll (t : Table α) (f : α → α) : Table α :=
  t.map (fun r => if r.alive then { r with val := f r.val } else r)

/-- Delete a row. -/
def delete (t : Table α) (u : Nat) : Table α :=
  (t.filter (fun r => !(r.uuid = u && r.fresh))).map
    (fun r => if r.uuid = u then { r with alive := false } else r)

/-- Delete all rows an iteration visits. -/
def deleteAll (t : Table α) : Table α :=
  (t.filter (fun r => !(r.alive && r.fresh))).map (fun r => { r with alive := false })

/-- What is left when the transaction is over. -/
def settle (t : Table α) : Table α := t.live.map (fun r => { r with fresh := false })

/-- All rows but one. -/
def others (t : Table α) (u : Nat) : Table α := t.filter (fun r => r.uuid ≠ u)

theorem others_update (t : Table α) (u : Nat) (f : α → α) :
    (t.update u f).others u = t.others u := by
  induction t with
  | nil => rfl
  | cons r t ih =>
    simp only [update, others, List.map_cons] at ih ⊢
    by_cases h : r.uuid = u
    · simpa [h] using ih
    · simpa [h] using ih

theorem others_delete (t : Table α) (u : Nat) : (t.delete u).others u = t.others u := by
  induction t with
  | nil => rfl
  | cons r t ih =>
    simp only [delete, others] at ih ⊢
    by_cases h : r.uuid = u
    · by_cases hf : r.fresh = true
      · simpa [h, hf] using ih
      · simpa [h, hf] using ih
    · simpa [h] using ih

/-- Dropping a row and changing another one commute. -/
theorem others_update_comm (t : Table α) (o u : Nat) (f : α → α) :
    (t.update u f).others o = (t.others o).update u f := by
  have huuid : ∀ r : Row α, (if r.uuid = u then { r with val := f r.val } else r).uuid = r.uuid :=
    fun r => by split <;> rfl
  simp only [others, update, List.filter_map, Function.comp_def, huuid]

/-- A change that leaves the table as it was leaves the row as it was. -/
theorem eq_of_update_eq {t : Table α} {u : Nat} {f : α → α} (h : t.update u f = t) {r : Row α}
    (hr : r ∈ t) (hu : r.uuid = u) : f r.val = r.val := by
  have hmap : t.map (fun r => if r.uuid = u then { r with val := f r.val } else r) = t.map id := by
    rw [List.map_id]
    exact h
  have hrow := List.map_inj_left.mp hmap r hr
  rw [if_pos hu] at hrow
  exact congrArg Row.val hrow

/-- The value of a row that is there. -/
def rowAt (t : Table α) (u : Nat) : Option α := (t.live.find? (fun r => r.uuid = u)).map Row.val

/-- A view of every value. -/
def mapVal {β : Type} (f : α → β) (t : Table α) : Table β :=
  t.map (fun r => ⟨r.uuid, r.fresh, r.alive, f r.val⟩)

theorem rowAt_mapVal {β : Type} (f : α → β) (t : Table α) (u : Nat) :
    (t.mapVal f).rowAt u = (t.rowAt u).map f := by
  simp only [rowAt, mapVal, live, List.filter_map, List.find?_map, Option.map_map]
  rfl

theorem mapVal_update {β : Type} {f : α → β} {g : α → α} (h : ∀ a, f (g a) = f a) (t : Table α)
    (u : Nat) : (t.update u g).mapVal f = t.mapVal f := by
  simp only [mapVal, update, List.map_map]
  apply List.map_congr_left
  intro r _
  simp only [Function.comp_apply]
  split
  · rw [h]
  · rfl

theorem rowAt_others (t : Table α) {u u' : Nat} (h : u' ≠ u) :
    (t.others u).rowAt u' = t.rowAt u' := by
  simp only [rowAt, others, live, List.find?_filter]
  congr 2
  funext r
  by_cases hr : r.uuid = u'
  · simp [hr, h]
  · simp [hr]

theorem rowAt_delete_self (t : Table α) (u : Nat) : (t.delete u).rowAt u = none := by
  simp only [rowAt, Option.map_eq_none_iff, List.find?_eq_none]
  intro r hr
  obtain ⟨hmem, halive⟩ := List.mem_filter.mp hr
  obtain ⟨x, _, rfl⟩ := List.mem_map.mp hmem
  by_cases hx : x.uuid = u
  · rw [if_pos hx] at halive
    exact absurd halive nofun
  · rw [if_neg hx]
    simpa using hx

/-- A row that is there after a deletion was there before. -/
theorem rowAt_of_delete {t : Table α} {u u' : Nat} {a : α} (h : (t.delete u).rowAt u' = some a) :
    t.rowAt u' = some a := by
  by_cases hu : u' = u
  · rw [hu, rowAt_delete_self] at h
    exact absurd h nofun
  · rwa [← rowAt_others _ hu, others_delete, rowAt_others _ hu] at h

theorem rowAt_delete (t : Table α) (u u' : Nat) :
    (t.delete u).rowAt u' = if u' = u then none else t.rowAt u' := by
  by_cases hu : u' = u
  · rw [if_pos hu, hu, rowAt_delete_self]
  · rw [if_neg hu, ← rowAt_others _ hu, others_delete, rowAt_others _ hu]

theorem rowAt_cons (r : Row α) (t : Table α) (u : Nat) :
    rowAt (r :: t) u = if r.alive = true ∧ r.uuid = u then some r.val else t.rowAt u := by
  cases ha : r.alive <;> by_cases hu : r.uuid = u <;> simp [rowAt, live, ha, hu]

theorem rowAt_update (t : Table α) (u u' : Nat) (f : α → α) :
    (t.update u f).rowAt u' = if u' = u then (t.rowAt u).map f else t.rowAt u' := by
  by_cases hu : u' = u
  · subst hu
    rw [if_pos rfl]
    induction t with
    | nil => rfl
    | cons r t ih =>
      rw [update, List.map_cons, rowAt_cons, rowAt_cons]
      rw [update] at ih
      by_cases hr : r.uuid = u'
      · cases r.alive <;> simp [hr, ih]
      · simp [hr, ih]
  · rw [if_neg hu, ← rowAt_others _ hu, others_update, rowAt_others _ hu]

theorem rowAt_insert {t : Table α} {u : Nat} (hu : t.rowAt u = none) (a : α) (u' : Nat) :
    (t.insert u a).rowAt u' = if u' = u then some a else t.rowAt u' := by
  simp only [rowAt, Option.map_eq_none_iff] at hu
  simp only [rowAt, live, insert, List.filter_append, List.filter_cons, List.find?_append] at hu ⊢
  by_cases h : u' = u
  · subst h
    simp [hu]
  · simp [h, Ne.symm h]

/-- A commit leaves the rows that are there. -/
theorem rowAt_settle (t : Table α) (u : Nat) : t.settle.rowAt u = t.rowAt u := by
  have hlive : Table.live t.settle = t.settle := by
    simp only [live, settle, List.filter_eq_self, List.mem_map]
    rintro _ ⟨r, hr, rfl⟩
    exact (List.mem_filter.mp hr).2
  rw [rowAt, hlive, settle, List.find?_map, Option.map_map]
  rfl

theorem isLive_iff (t : Table α) (u : Nat) : t.isLive u = true ↔ ∃ a, t.rowAt u = some a := by
  simp only [isLive, rowAt, live, List.any_eq_true, Option.map_eq_some_iff]
  constructor
  · rintro ⟨r, hr, hp⟩
    obtain ⟨hu, ha⟩ : r.uuid = u ∧ r.alive = true := by simpa using hp
    cases hf : (t.filter Row.alive).find? (fun r => r.uuid = u) with
    | none =>
      exact absurd (by simpa using hu) (List.find?_eq_none.mp hf r (List.mem_filter.mpr ⟨hr, ha⟩))
    | some x => exact ⟨x.val, x, rfl, rfl⟩
  · rintro ⟨_, r, hf, rfl⟩
    obtain ⟨hr, ha⟩ := List.mem_filter.mp (List.mem_of_find?_eq_some hf)
    have hu := List.find?_some hf
    exact ⟨r, hr, by simpa [ha] using hu⟩

section

variable {κ : Type} [DecidableEq κ]

/-- So is a map to such rows, if no key is written twice. -/
theorem keyedRefs_of_live (t : Table α) {us : List (κ × Nat)}
    (hl : ∀ u ∈ us, t.isLive u.2 = true) (hn : (us.map Prod.fst).Nodup) : t.keyedRefs us = us := by
  rw [keyedRefs, List.filter_eq_self.mpr hl, List.pwFilter_eq_self]
  exact List.pairwise_map.mp hn

/-- A key that is written again replaces its older entry. -/
theorem keyedRefs_snoc (t : Table α) {us : List (κ × Nat)} {k : κ} {u : Nat}
    (hl : ∀ u ∈ us, t.isLive u.2 = true) (hu : t.isLive u = true)
    (hn : (us.map Prod.fst).Nodup) :
    t.keyedRefs (us ++ [(k, u)]) = us.filter (fun e => e.1 ≠ k) ++ [(k, u)] := by
  have hlive : ∀ e ∈ us ++ [(k, u)], t.isLive e.2 = true := by
    intro e he
    rcases List.mem_append.mp he with he | he
    · exact hl e he
    · rw [List.mem_singleton.mp he]
      exact hu
  rw [keyedRefs, List.filter_eq_self.mpr hlive]
  clear hlive hl
  induction us with
  | nil => rfl
  | cons e us ih =>
    obtain ⟨hnew, hrest⟩ := List.nodup_cons.mp hn
    have ih' := ih hrest
    rw [List.cons_append]
    by_cases hk : e.1 = k
    · rw [List.pwFilter_cons_of_neg, ih']
      · simp [hk]
      · rw [ih']
        intro hall
        exact hall (k, u) (by simp) hk
    · rw [List.pwFilter_cons_of_pos, ih']
      · simp [hk]
      · rw [ih']
        intro b hb
        rcases List.mem_append.mp hb with hb | hb
        · intro heq
          exact hnew (List.mem_map.mpr ⟨b, (List.mem_filter.mp hb).1, heq.symm⟩)
        · rw [List.mem_singleton.mp hb]
          exact hk

end

theorem first_cons (r : Row α) (t : Table α) (p : α → Bool) :
    Table.first (r :: t) p = if r.alive = true ∧ p r.val = true then some r else t.first p := by
  cases ha : r.alive with
  | false => simp [first, live, ha]
  | true =>
    have hlive : Table.live (r :: t) = r :: t.live := List.filter_cons_of_pos ha
    rw [first, hlive, List.find?_cons]
    cases hp : p r.val with
    | false => simp [first]
    | true => simp

theorem first_some {t : Table α} {p : α → Bool} {r : Row α} (h : t.first p = some r) :
    r ∈ t.live ∧ p r.val = true :=
  ⟨List.mem_of_find?_eq_some h, by simpa using List.find?_some h⟩

/-! ### Tables with distinct identifiers -/

/-- No two rows have the same identifier. -/
def Distinct (t : Table α) : Prop := (t.map Row.uuid).Nodup

theorem Distinct.eq {t : Table α} (h : t.Distinct) {r r' : Row α} (hr : r ∈ t) (hr' : r' ∈ t)
    (hu : r.uuid = r'.uuid) : r = r' :=
  List.inj_on_of_nodup_map h hr hr' hu

theorem Distinct.rowAt {t : Table α} (h : t.Distinct) {r : Row α} (hr : r ∈ t.live) :
    t.rowAt r.uuid = some r.val := by
  obtain ⟨hmem, halive⟩ := List.mem_filter.mp hr
  obtain ⟨a, ha⟩ := (isLive_iff t r.uuid).mp (List.any_eq_true.mpr ⟨r, hmem, by simp [halive]⟩)
  obtain ⟨x, hx, rfl⟩ := Option.map_eq_some_iff.mp ha
  have hxr : x = r := by
    refine h.eq (List.mem_filter.mp (List.mem_of_find?_eq_some hx)).1 hmem ?_
    simpa using List.find?_some hx
  rw [ha, hxr]

theorem Distinct.deref {t : Table α} (h : t.Distinct) {u : Nat} {a : α} (ha : t.rowAt u = some a) :
    t.deref u = some a := by
  obtain ⟨x, hx, rfl⟩ := Option.map_eq_some_iff.mp ha
  have hmem := (List.mem_filter.mp (List.mem_of_find?_eq_some hx)).1
  have hu : x.uuid = u := by simpa using List.find?_some hx
  rw [Table.deref]
  cases hf : t.find? (fun r => r.uuid = u) with
  | none => exact absurd (by simpa using hu) (List.find?_eq_none.mp hf x hmem)
  | some y =>
    have hy : y.uuid = u := by simpa using List.find?_some hf
    rw [h.eq (List.mem_of_find?_eq_some hf) hmem (hy.trans hu.symm)]
    rfl

theorem Distinct.first {t : Table α} (h : t.Distinct) {p : α → Bool} {r : Row α}
    (hf : t.first p = some r) : t.rowAt r.uuid = some r.val ∧ p r.val = true := by
  obtain ⟨hr, hp⟩ := first_some hf
  exact ⟨h.rowAt hr, hp⟩

/-- The rows after a change of one of them. -/
theorem mem_live_update {t : Table α} {u : Nat} {f : α → α} {r : Row α} :
    r ∈ (t.update u f).live ↔
      ∃ r₀ ∈ t.live, r = if r₀.uuid = u then { r₀ with val := f r₀.val } else r₀ := by
  simp only [live, update, List.mem_filter, List.mem_map]
  constructor
  · rintro ⟨⟨r₀, hr₀, rfl⟩, halive⟩
    refine ⟨r₀, ⟨hr₀, ?_⟩, rfl⟩
    split at halive <;> exact halive
  · rintro ⟨r₀, ⟨hr₀, halive⟩, rfl⟩
    refine ⟨⟨r₀, hr₀, rfl⟩, ?_⟩
    split <;> exact halive

/-- A search finds the row again after a change that keeps what is searched
for. -/
theorem Distinct.first_update {t : Table α} (h : t.Distinct) {p : α → Bool} {r : Row α}
    (hf : t.first p = some r) {f : α → α} (hp : p (f r.val) = true) :
    (t.update r.uuid f).first p = some { r with val := f r.val } := by
  induction t with
  | nil => cases hf
  | cons x t ih =>
    obtain ⟨hx, hn⟩ := List.nodup_cons.mp h
    rw [first_cons] at hf
    split at hf
    · next hit =>
        obtain rfl := Option.some.inj hf
        rw [update, List.map_cons, if_pos rfl, first_cons, if_pos ⟨hit.1, hp⟩]
    · next miss =>
        have hmem : r ∈ t := (List.mem_filter.mp (List.mem_of_find?_eq_some hf)).1
        have hne : x.uuid ≠ r.uuid := fun heq => hx (heq ▸ List.mem_map_of_mem hmem)
        rw [update, List.map_cons, if_neg hne, first_cons, if_neg miss]
        exact ih hn hf

/-- References to rows that are there are read as they were written. -/
theorem refs_of_live (t : Table α) {us : List Nat} (hl : ∀ u ∈ us, t.isLive u = true)
    (hn : us.Nodup) : t.refs us = us := by
  rw [refs, List.filter_eq_self.mpr hl, hn.dedup]

theorem first_ne_none {t : Table α} {p : α → Bool} {r : Row α} (hr : r ∈ t.live)
    (hp : p r.val = true) : t.first p ≠ none := by
  intro h
  exact List.find?_eq_none.mp h r hr hp

theorem first_none {t : Table α} {p : α → Bool} (h : t.first p = none) {u : Nat} {a : α}
    (ha : t.rowAt u = some a) : p a = false := by
  obtain ⟨r, hr, rfl⟩ := Option.map_eq_some_iff.mp ha
  cases hp : p r.val with
  | false => rfl
  | true => exact absurd h (first_ne_none (List.mem_of_find?_eq_some hr) hp)

theorem Distinct.insert {t : Table α} (h : t.Distinct) {u : Nat} (hu : ∀ r ∈ t, r.uuid ≠ u)
    (a : α) : (t.insert u a).Distinct := by
  simp only [Distinct, Table.insert, List.map_append, List.map_cons, List.map_nil]
  refine List.Nodup.append h (List.nodup_singleton u) ?_
  intro v hv hv'
  obtain ⟨r, hr, rfl⟩ := List.mem_map.mp hv
  exact hu r hr (List.mem_singleton.mp hv')

theorem map_uuid_update (t : Table α) (u : Nat) (f : α → α) :
    (t.update u f).map Row.uuid = t.map Row.uuid := by
  rw [update, List.map_map]
  refine List.map_congr_left (fun r _ => ?_)
  simp only [Function.comp_apply]
  split <;> rfl

theorem Distinct.update {t : Table α} (h : t.Distinct) (u : Nat) (f : α → α) :
    (t.update u f).Distinct := by
  rw [Distinct, map_uuid_update]
  exact h

theorem map_uuid_delete (t : Table α) (u : Nat) :
    ((t.delete u).map Row.uuid).Sublist (t.map Row.uuid) := by
  have hsame : (t.delete u).map Row.uuid =
      (t.filter (fun r => !(r.uuid = u && r.fresh))).map Row.uuid := by
    rw [delete, List.map_map]
    refine List.map_congr_left (fun r _ => ?_)
    simp only [Function.comp_apply]
    split <;> rfl
  rw [hsame]
  exact List.filter_sublist.map _

theorem Distinct.delete {t : Table α} (h : t.Distinct) (u : Nat) : (t.delete u).Distinct :=
  (map_uuid_delete t u).nodup h

theorem map_uuid_settle (t : Table α) : (t.settle.map Row.uuid).Sublist (t.map Row.uuid) := by
  rw [settle, List.map_map]
  exact List.filter_sublist.map _

theorem Distinct.settle {t : Table α} (h : t.Distinct) : t.settle.Distinct :=
  (map_uuid_settle t).nodup h

end Table

/-! ### Lists with one hit -/

section

variable {α : Type} {p : α → Bool}

/-- A change at the first hit, when there is one hit at most. -/
theorem modify_findIdx {l : List α} (hn : l.Nodup)
    (h : ∀ a ∈ l, ∀ b ∈ l, p a = true → p b = true → a = b) (f : α → α) :
    l.modify (l.findIdx p) f = l.map (fun a => if p a then f a else a) := by
  induction l with
  | nil => rfl
  | cons a l ih =>
    obtain ⟨ha, hn'⟩ := List.nodup_cons.mp hn
    cases hp : p a with
    | true =>
      have hrest : l.map (fun b => if p b then f b else b) = l := by
        refine (List.map_congr_left (fun b hb => ?_)).trans (List.map_id l)
        cases hb' : p b with
        | false => rfl
        | true => exact absurd (h a (by simp) b (by simp [hb]) hp hb' ▸ hb) ha
      rw [List.findIdx_cons, hp, List.map_cons, hrest, hp]
      rfl
    | false =>
      have ih' := ih hn' (fun x hx y hy => h x (by simp [hx]) y (by simp [hy]))
      rw [List.findIdx_cons, hp, List.map_cons, ← ih', hp]
      rfl

/-- A removal at the first hit, when there is one hit at most. -/
theorem eraseIdx_findIdx {l : List α} (hn : l.Nodup)
    (h : ∀ a ∈ l, ∀ b ∈ l, p a = true → p b = true → a = b) :
    l.eraseIdx (l.findIdx p) = l.filter (fun a => !p a) := by
  induction l with
  | nil => rfl
  | cons a l ih =>
    obtain ⟨ha, hn'⟩ := List.nodup_cons.mp hn
    cases hp : p a with
    | true =>
      have hrest : l.filter (fun b => !p b) = l := by
        refine List.filter_eq_self.mpr (fun b hb => ?_)
        cases hb' : p b with
        | false => rfl
        | true => exact absurd (h a (by simp) b (by simp [hb]) hp hb' ▸ hb) ha
      rw [List.findIdx_cons, hp, List.filter_cons, hp, hrest]
      rfl
    | false =>
      have ih' := ih hn' (fun x hx y hy => h x (by simp [hx]) y (by simp [hy]))
      rw [List.findIdx_cons, hp, List.filter_cons, hp, ← ih']
      rfl

end

/-! ### String maps -/

/-- A map from strings to strings. -/
abbrev Smap := List (String × String)

namespace Smap

/-- The value of a key. -/
def get (m : Smap) (key : String) : Option String :=
  (m.find? (fun p => p.1 = key)).map Prod.snd

/-- Drop a key. -/
def remove (m : Smap) (key : String) : Smap := m.filter (fun p => p.1 ≠ key)

/-- Set a key. -/
def replace (m : Smap) (key value : String) : Smap := m.remove key ++ [(key, value)]

/-- Set a key that is not there yet. -/
def addOnce (m : Smap) (key value : String) : Smap :=
  if (m.get key).isSome then m else m ++ [(key, value)]

theorem get_cons (p : String × String) (m : Smap) (key : String) :
    Smap.get (p :: m) key = if p.1 = key then some p.2 else m.get key := by
  by_cases h : p.1 = key <;> simp [get, h]

theorem get_append (m m' : Smap) (key : String) :
    Smap.get (m ++ m') key = (m.get key).or (Smap.get m' key) := by
  cases h : m.find? (fun p => p.1 = key) <;> simp [get, List.find?_append, h]

theorem get_remove (m : Smap) (key key' : String) :
    (m.remove key).get key' = if key' = key then none else m.get key' := by
  induction m with
  | nil => simp [get, remove]
  | cons p m ih =>
    by_cases hk : p.1 = key
    · have hdrop : remove (p :: m) key = remove m key := by simp [remove, hk]
      rw [hdrop, ih, get_cons]
      by_cases h : key' = key
      · simp [h]
      · rw [if_neg h, if_neg h, if_neg (fun hp => h (hp.symm.trans hk))]
    · have hkeep : remove (p :: m) key = p :: remove m key := by simp [remove, hk]
      rw [hkeep, get_cons, get_cons, ih]
      by_cases h : p.1 = key'
      · rw [if_pos h, if_pos h, if_neg (fun hk' => hk (h.trans hk'))]
      · rw [if_neg h, if_neg h]

/-- Setting a key is seen at that key only. -/
theorem get_replace (m : Smap) (key value key' : String) :
    (m.replace key value).get key' = if key' = key then some value else m.get key' := by
  rw [replace, get_append, get_remove, get_cons]
  by_cases h : key' = key
  · simp [h]
  · rw [if_neg h, if_neg h, if_neg (fun hk => h hk.symm)]
    simp [get]

/-- A key that is there keeps its value. -/
theorem get_addOnce (m : Smap) (key value key' : String) :
    (m.addOnce key value).get key' =
      if key' = key then (m.get key).or (some value) else m.get key' := by
  unfold addOnce
  cases h : m.get key with
  | none =>
    rw [Option.isSome_none, if_neg Bool.false_ne_true, get_append, get_cons]
    by_cases hk : key' = key
    · rw [if_pos hk, if_pos hk.symm, hk, h]
    · rw [if_neg hk, if_neg (fun hk' => hk hk'.symm)]
      simp [get]
  | some v =>
    rw [Option.isSome_some, if_pos rfl]
    by_cases hk : key' = key
    · rw [if_pos hk, hk, h]
      rfl
    · rw [if_neg hk]

end Smap

end OfConfig.Lib
