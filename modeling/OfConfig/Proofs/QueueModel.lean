import Mathlib.Data.List.Nodup
import Mathlib.Logic.Function.Basic

/-!
# `OfConfig.Proofs.QueueModel`: queues linked to ports

What the tables `Port`, `QoS` and `Queue` are for: a queue is linked to one
port at most, under its number. `QueueModel` holds the queues and, for each
port, its entries; `Represents` says that the entries are given links.
Every change of the links is a change of the entries of one port, and
`Represents.setEntries` says when that is right. The functions of the code
are shown to make such changes in `OfConfig.Proofs.Queues`.
-/

set_option autoImplicit false

namespace OfConfig.Proofs

variable {es : List (Int × Nat)} {k : Int} {n r : String} {p u : Nat}

/-- The queues, with resource-id and number, and the ports, with name and
entries. An entry is a number and a queue. -/
structure QueueModel where
  queue : Nat → Option (String × Int)
  port : Nat → Option (Option String × List (Int × Nat))

/-- The port each queue was linked to last, if it still is. -/
abbrev Links := String → Option String

/-- The queue has an entry at a port of the name. -/
def QueueModel.LinkedTo (M : QueueModel) (u : Nat) (name : String) : Prop :=
  ∃ p es k, M.port p = some (some name, es) ∧ (k, u) ∈ es

/-- The entries are the links. -/
structure Represents (M : QueueModel) (L : Links) : Prop where
  /-- resource-ids are distinct -/
  rid_inj : ∀ {u u' r k k'}, M.queue u = some (r, k) → M.queue u' = some (r, k') → u = u'
  /-- port names are distinct -/
  name_inj : ∀ {p p' n es es'}, M.port p = some (some n, es) → M.port p' = some (some n, es') →
    p = p'
  /-- a port with entries has a name -/
  named : ∀ {p n e es}, M.port p = some (n, es) → e ∈ es → ∃ m, n = some m
  /-- a port has a number once -/
  numbers : ∀ {p n es}, M.port p = some (n, es) → (es.map Prod.fst).Nodup
  /-- a port has a queue once -/
  queues : ∀ {p n es}, M.port p = some (n, es) → (es.map Prod.snd).Nodup
  /-- an entry's number is the queue's -/
  entry : ∀ {p n es k u}, M.port p = some (n, es) → (k, u) ∈ es → ∃ r, M.queue u = some (r, k)
  /-- a queue is at one port only -/
  once : ∀ {p p' n n' es es' k k' u}, M.port p = some (n, es) → M.port p' = some (n', es') →
    (k, u) ∈ es → (k', u) ∈ es' → p = p'
  /-- the links are those of the entries -/
  linked : ∀ {u r k n}, M.queue u = some (r, k) → (L r = some n ↔ M.LinkedTo u n)

/-- A value of a map that was changed at one place. -/
theorem update_eq_some {β : Type} {f : Nat → Option β} {a b : Nat} {x : Option β} {y : β} :
    Function.update f a x b = some y ↔ (b = a ∧ x = some y) ∨ (b ≠ a ∧ f b = some y) := by
  by_cases h : b = a
  · simp [h]
  · simp [h]

namespace Represents

variable {M : QueueModel} {L : Links}

/-- A queue without a link has no entry. -/
theorem not_mem (h : Represents M L) (hu : M.queue u = some (r, k)) (hL : L r = none)
    {n : Option String} (hp : M.port p = some (n, es)) (k' : Int) : (k', u) ∉ es := by
  intro he
  obtain ⟨m, rfl⟩ := h.named hp he
  have hm : L r = some m := (h.linked hu).mpr ⟨p, es, k', hp, he⟩
  rw [hL] at hm
  cases hm

/-- The links of resource-ids that are not in use do not matter. -/
theorem congr_links {L' : Links} (h : Represents M L)
    (hL : ∀ u r k, M.queue u = some (r, k) → L' r = L r) : Represents M L' where
  rid_inj := h.rid_inj
  name_inj := h.name_inj
  named := h.named
  numbers := h.numbers
  queues := h.queues
  entry := h.entry
  once := h.once
  linked hu := by
    rw [hL _ _ _ hu]
    exact h.linked hu

/-- A new queue. -/
theorem newQueue (h : Represents M L) (hu : M.queue u = none) (k : Int)
    (hr : ∀ u' k', M.queue u' ≠ some (r, k')) :
    Represents { M with queue := Function.update M.queue u (some (r, k)) }
      (Function.update L r none) where
  rid_inj {a b r' k₁ k₂} ha hb := by
    rcases update_eq_some.mp ha with ⟨rfl, hx⟩ | ⟨-, ha'⟩ <;>
      rcases update_eq_some.mp hb with ⟨rfl, hy⟩ | ⟨-, hb'⟩
    · rfl
    · cases hx
      exact absurd hb' (hr _ _)
    · cases hy
      exact absurd ha' (hr _ _)
    · exact h.rid_inj ha' hb'
  name_inj := h.name_inj
  named := h.named
  numbers := h.numbers
  queues := h.queues
  entry {p n es k' v} hp he := by
    obtain ⟨r', hv⟩ := h.entry hp he
    refine ⟨r', update_eq_some.mpr (.inr ⟨?_, hv⟩)⟩
    rintro rfl
    rw [hu] at hv
    cases hv
  once := h.once
  linked {v r' k' n} hv := by
    rcases update_eq_some.mp hv with ⟨rfl, hx⟩ | ⟨-, hv'⟩
    · cases hx
      rw [Function.update_self]
      refine ⟨nofun, ?_⟩
      rintro ⟨p, es, k₁, hp, he⟩
      obtain ⟨r₁, hq⟩ := h.entry hp he
      rw [hu] at hq
      cases hq
    · have hne : r' ≠ r := by
        rintro rfl
        exact hr _ _ hv'
      rw [Function.update_of_ne hne]
      exact h.linked hv'

/-- A queue that no entry refers to is removed. -/
theorem dropQueue (h : Represents M L) (hu : ∀ p n es k, M.port p = some (n, es) → (k, u) ∉ es) :
    Represents { M with queue := Function.update M.queue u none } L where
  rid_inj {a b r k k'} ha hb := by
    rcases update_eq_some.mp ha with ⟨-, hx⟩ | ⟨-, ha⟩
    · cases hx
    · rcases update_eq_some.mp hb with ⟨-, hy⟩ | ⟨-, hb⟩
      · cases hy
      · exact h.rid_inj ha hb
  name_inj := h.name_inj
  named := h.named
  numbers := h.numbers
  queues := h.queues
  entry {p n es k v} hp he := by
    obtain ⟨r, hv⟩ := h.entry hp he
    refine ⟨r, update_eq_some.mpr (.inr ⟨?_, hv⟩)⟩
    rintro rfl
    exact hu p n es k hp he
  once := h.once
  linked {v r k n} hv := by
    rcases update_eq_some.mp hv with ⟨-, hx⟩ | ⟨-, hv⟩
    · cases hx
    · exact h.linked hv

/-- A port without entries is removed. -/
theorem dropPort (h : Represents M L) {n : Option String} (hp : M.port p = some (n, [])) :
    Represents { M with port := Function.update M.port p none } L := by
  have hback : ∀ {p' x}, Function.update M.port p none p' = some x → M.port p' = some x := by
    intro p' x hx
    rcases update_eq_some.mp hx with ⟨-, hx⟩ | ⟨-, hx⟩
    · cases hx
    · exact hx
  refine ⟨h.rid_inj, fun ha hb => h.name_inj (hback ha) (hback hb), fun ha => h.named (hback ha),
    fun ha => h.numbers (hback ha), fun ha => h.queues (hback ha), fun ha => h.entry (hback ha),
    fun ha hb => h.once (hback ha) (hback hb), ?_⟩
  intro u r k m hu
  rw [h.linked hu]
  constructor
  · rintro ⟨p', es, k', hp', he⟩
    refine ⟨p', es, k', update_eq_some.mpr (.inr ⟨?_, hp'⟩), he⟩
    rintro rfl
    rw [hp] at hp'
    cases hp'
    exact absurd he List.not_mem_nil
  · rintro ⟨p', es, k', hp', he⟩
    exact ⟨p', es, k', hback hp', he⟩

/-- The entries of one port are replaced, and perhaps the numbers of
queues. The new entries have to be right, and the ones of other ports have
to stay right. -/
theorem setEntries (h : Represents M L) {es' : List (Int × Nat)} (hp : M.port p = some (some n, es))
    {queue : Nat → Option (String × Int)} {L' : Links}
    (hrid : ∀ u r k, queue u = some (r, k) → ∃ k', M.queue u = some (r, k'))
    (hnumbers : (es'.map Prod.fst).Nodup) (hqueues : (es'.map Prod.snd).Nodup)
    (hentry : ∀ k u, (k, u) ∈ es' → ∃ r, queue u = some (r, k))
    (hother : ∀ p' m es₁ k u, p' ≠ p → M.port p' = some (m, es₁) → (k, u) ∈ es₁ →
      (∃ r, queue u = some (r, k)) ∧ ∀ k', (k', u) ∉ es')
    (hlinks : ∀ u r k, queue u = some (r, k) →
      (∃ k', (k', u) ∈ es') ∧ L' r = some n ∨
      (∀ k', (k', u) ∉ es') ∧
        ((∃ k', (k', u) ∈ es) ∧ L' r = none ∨ (∀ k', (k', u) ∉ es) ∧ L' r = L r)) :
    Represents ⟨queue, Function.update M.port p (some (some n, es'))⟩ L' := by
  refine ⟨?_, ?_, ?_, ?_, ?_, ?_, ?_, ?_⟩
  · intro u u' r k k' hu hu'
    obtain ⟨k₁, h₁⟩ := hrid _ _ _ hu
    obtain ⟨k₂, h₂⟩ := hrid _ _ _ hu'
    exact h.rid_inj h₁ h₂
  · intro a b m es₁ es₂ ha hb
    rcases update_eq_some.mp ha with ⟨rfl, hx⟩ | ⟨-, ha'⟩ <;>
      rcases update_eq_some.mp hb with ⟨rfl, hy⟩ | ⟨-, hb'⟩
    · rfl
    · cases hx
      exact h.name_inj hp hb'
    · cases hy
      exact h.name_inj ha' hp
    · exact h.name_inj ha' hb'
  · intro a m e es₁ ha he
    rcases update_eq_some.mp ha with ⟨-, hx⟩ | ⟨-, ha⟩
    · cases hx
      exact ⟨n, rfl⟩
    · exact h.named ha he
  · intro a m es₁ ha
    rcases update_eq_some.mp ha with ⟨-, hx⟩ | ⟨-, ha⟩
    · cases hx
      exact hnumbers
    · exact h.numbers ha
  · intro a m es₁ ha
    rcases update_eq_some.mp ha with ⟨-, hx⟩ | ⟨-, ha⟩
    · cases hx
      exact hqueues
    · exact h.queues ha
  · intro a m es₁ k u ha he
    rcases update_eq_some.mp ha with ⟨-, hx⟩ | ⟨hne, ha⟩
    · cases hx
      exact hentry k u he
    · exact (hother a m es₁ k u hne ha he).1
  · intro a b m m' es₁ es₂ k k' u ha hb he he'
    rcases update_eq_some.mp ha with ⟨rfl, hx⟩ | ⟨hne, ha'⟩ <;>
      rcases update_eq_some.mp hb with ⟨rfl, hy⟩ | ⟨hne', hb'⟩
    · rfl
    · cases hx
      exact absurd he ((hother _ _ _ _ _ hne' hb' he').2 k)
    · cases hy
      exact absurd he' ((hother _ _ _ _ _ hne ha' he).2 k')
    · exact h.once ha' hb' he he'
  · intro u r k m hu
    obtain ⟨k₀, hu₀⟩ := hrid _ _ _ hu
    -- where the queue is linked now, by the port
    have hlinked : (QueueModel.mk queue
        (Function.update M.port p (some (some n, es')))).LinkedTo u m
        ↔ (n = m ∧ ∃ k', (k', u) ∈ es') ∨
          ∃ p' es₁ k', p' ≠ p ∧ M.port p' = some (some m, es₁) ∧ (k', u) ∈ es₁ := by
      constructor
      · rintro ⟨p', es₁, k', hp', he⟩
        rcases update_eq_some.mp hp' with ⟨-, hx⟩ | ⟨hne, hp'⟩
        · cases hx
          exact .inl ⟨rfl, k', he⟩
        · exact .inr ⟨p', es₁, k', hne, hp', he⟩
      · rintro (⟨rfl, k', he⟩ | ⟨p', es₁, k', hne, hp', he⟩)
        · exact ⟨p, es', k', update_eq_some.mpr (.inl ⟨rfl, rfl⟩), he⟩
        · exact ⟨p', es₁, k', update_eq_some.mpr (.inr ⟨hne, hp'⟩), he⟩
    rw [hlinked]
    rcases hlinks u r k hu with ⟨⟨k', he⟩, hL⟩ | ⟨hno, ⟨⟨k', he⟩, hL⟩ | ⟨hno', hL⟩⟩
    · rw [hL]
      constructor
      · intro hm
        exact .inl ⟨Option.some.inj hm, k', he⟩
      · rintro (⟨rfl, -⟩ | ⟨p', es₁, k₁, hne, hp', he'⟩)
        · rfl
        · exact absurd he ((hother _ _ _ _ _ hne hp' he').2 k')
    · rw [hL]
      refine ⟨nofun, ?_⟩
      rintro (⟨-, k₁, he'⟩ | ⟨p', es₁, k₁, hne, hp', he'⟩)
      · exact absurd he' (hno k₁)
      · exact absurd (h.once hp' hp he' he) hne
    · rw [hL, h.linked hu₀]
      constructor
      · rintro ⟨p', es₁, k₁, hp', he'⟩
        refine .inr ⟨p', es₁, k₁, ?_, hp', he'⟩
        rintro rfl
        rw [hp] at hp'
        cases hp'
        exact hno' k₁ he'
      · rintro (⟨-, k₁, he'⟩ | ⟨p', es₁, k₁, -, hp', he'⟩)
        · exact absurd he' (hno k₁)
        · exact ⟨p', es₁, k₁, hp', he'⟩

/-- A queue is linked to a port, under its number: no other queue may have
the number there, and the queue may not be at another port. -/
theorem link (h : Represents M L) (hu : M.queue u = some (r, k)) (hp : M.port p = some (some n, es))
    (hkey : ∀ e ∈ es, e.1 = k → e.2 = u)
    (hhere : ∀ p' m es₁ k', M.port p' = some (m, es₁) → (k', u) ∈ es₁ → p' = p) :
    Represents
      ⟨M.queue, Function.update M.port p (some (some n, es.filter (fun e => e.1 ≠ k) ++ [(k, u)]))⟩
      (Function.update L r (some n)) := by
  have hmem : ∀ e, e ∈ es.filter (fun e => e.1 ≠ k) ++ [(k, u)] ↔ e ∈ es ∨ e = (k, u) := by
    intro e
    simp only [List.mem_append, List.mem_filter, List.mem_singleton, decide_eq_true_eq]
    constructor
    · rintro (⟨he, -⟩ | he)
      · exact .inl he
      · exact .inr he
    · rintro (he | he)
      · by_cases hk : e.1 = k
        · exact .inr (Prod.ext hk (hkey e he hk))
        · exact .inl ⟨he, hk⟩
      · exact .inr he
  have hsub := (List.filter_sublist (p := fun e : Int × Nat => e.1 ≠ k) (l := es))
  refine h.setEntries hp (fun v r' k' hv => ⟨k', hv⟩) ?_ ?_ ?_ ?_ ?_
  · rw [List.map_append]
    refine List.Nodup.append ((hsub.map _).nodup (h.numbers hp)) (List.nodup_singleton k) ?_
    intro x hx hx'
    obtain ⟨e, he, rfl⟩ := List.mem_map.mp hx
    exact absurd (List.mem_singleton.mp hx') (by simpa using (List.mem_filter.mp he).2)
  · rw [List.map_append]
    refine List.Nodup.append ((hsub.map _).nodup (h.queues hp)) (List.nodup_singleton u) ?_
    intro x hx hx'
    obtain ⟨⟨k', v⟩, he, rfl⟩ := List.mem_map.mp hx
    obtain rfl : v = u := List.mem_singleton.mp hx'
    -- the queue's old entry has the same number, and was dropped
    obtain ⟨r', hv⟩ := h.entry hp (List.mem_filter.mp he).1
    rw [hu] at hv
    cases hv
    exact absurd (List.mem_filter.mp he).2 (by simp)
  · intro k' v he
    rcases (hmem (k', v)).mp he with he | he
    · exact h.entry hp he
    · cases he
      exact ⟨r, hu⟩
  · intro p' m es₁ k' v hne hp' he
    refine ⟨h.entry hp' he, fun k₁ he₁ => ?_⟩
    rcases (hmem (k₁, v)).mp he₁ with he₁ | he₁
    · exact hne (h.once hp' hp he he₁)
    · cases he₁
      exact hne (hhere _ _ _ _ hp' he)
  · intro v r' k' hv
    by_cases hvu : v = u
    · subst hvu
      rw [hu] at hv
      cases hv
      exact .inl ⟨⟨k, (hmem _).mpr (.inr rfl)⟩, Function.update_self _ _ _⟩
    · have hr : r' ≠ r := fun hr => hvu (h.rid_inj hv (hr ▸ hu))
      rw [Function.update_of_ne hr]
      by_cases hes : ∃ k₁, (k₁, v) ∈ es
      · obtain ⟨k₁, he⟩ := hes
        exact .inl ⟨⟨k₁, (hmem _).mpr (.inl he)⟩, (h.linked hv).mpr ⟨p, es, k₁, hp, he⟩⟩
      · refine .inr ⟨fun k₁ he => ?_, .inr ⟨fun k₁ he => hes ⟨k₁, he⟩, rfl⟩⟩
        rcases (hmem _).mp he with he | he
        · exact hes ⟨k₁, he⟩
        · cases he
          exact hvu rfl

/-- The entry of a queue is removed. -/
theorem unlink (h : Represents M L) (hu : M.queue u = some (r, k))
    (hp : M.port p = some (some n, es)) {k₀ : Int} (he₀ : (k₀, u) ∈ es) :
    Represents ⟨M.queue, Function.update M.port p (some (some n, es.filter (fun e => e.2 ≠ u)))⟩
      (Function.update L r none) := by
  have hmem : ∀ k' v, (k', v) ∈ es.filter (fun e => e.2 ≠ u) ↔ (k', v) ∈ es ∧ v ≠ u := by
    intro k' v
    simp [List.mem_filter]
  have hsub := (List.filter_sublist (p := fun e : Int × Nat => e.2 ≠ u) (l := es))
  refine h.setEntries hp (fun v r' k' hv => ⟨k', hv⟩) ((hsub.map _).nodup (h.numbers hp))
    ((hsub.map _).nodup (h.queues hp)) ?_ ?_ ?_
  · intro k' v he
    exact h.entry hp ((hmem _ _).mp he).1
  · intro p' m es₁ k' v hne hp' he
    exact ⟨h.entry hp' he, fun k₁ he₁ => hne (h.once hp' hp he ((hmem _ _).mp he₁).1)⟩
  · intro v r' k' hv
    by_cases hvu : v = u
    · subst hvu
      rw [hu] at hv
      cases hv
      refine .inr ⟨fun k₁ he => ((hmem _ _).mp he).2 rfl, .inl ⟨⟨k₀, he₀⟩, ?_⟩⟩
      exact Function.update_self _ _ _
    · have hr : r' ≠ r := fun hr => hvu (h.rid_inj hv (hr ▸ hu))
      rw [Function.update_of_ne hr]
      by_cases hes : ∃ k₁, (k₁, v) ∈ es
      · obtain ⟨k₁, he⟩ := hes
        exact .inl ⟨⟨k₁, (hmem _ _).mpr ⟨he, hvu⟩⟩, (h.linked hv).mpr ⟨p, es, k₁, hp, he⟩⟩
      · exact .inr ⟨fun k₁ he => hes ⟨k₁, ((hmem _ _).mp he).1⟩,
          .inr ⟨fun k₁ he => hes ⟨k₁, he⟩, rfl⟩⟩

/-- A queue gets another number, in its entry too: no other queue may have
the number at the port. -/
theorem renumber (h : Represents M L) (hu : M.queue u = some (r, k))
    (hp : M.port p = some (some n, es)) {k₀ : Int} (he₀ : (k₀, u) ∈ es) (k' : Int)
    (hkey : ∀ e ∈ es, e.1 = k' → e.2 = u) :
    Represents ⟨Function.update M.queue u (some (r, k')), Function.update M.port p
      (some (some n, es.map (fun e => if e.2 = u then (k', e.2) else e)))⟩ L := by
  have hmem : ∀ k₁ v, (k₁, v) ∈ es.map (fun e => if e.2 = u then (k', e.2) else e) ↔
      (v ≠ u ∧ (k₁, v) ∈ es) ∨ (v = u ∧ k₁ = k') := by
    intro k₁ v
    rw [List.mem_map]
    constructor
    · rintro ⟨e, he, heq⟩
      split at heq
      · next hv =>
          cases heq
          exact .inr ⟨hv, rfl⟩
      · next hv =>
          subst heq
          exact .inl ⟨hv, he⟩
    · rintro (⟨hv, he⟩ | ⟨rfl, rfl⟩)
      · exact ⟨(k₁, v), he, if_neg hv⟩
      · exact ⟨(k₀, v), he₀, if_pos rfl⟩
  have hnodup : es.Nodup := (h.numbers hp).of_map
  refine h.setEntries hp ?_ ?_ ?_ ?_ ?_ ?_
  · intro v r' k₁ hv
    rcases update_eq_some.mp hv with ⟨rfl, hx⟩ | ⟨-, hv'⟩
    · cases hx
      exact ⟨k, hu⟩
    · exact ⟨k₁, hv'⟩
  · rw [List.map_map]
    refine hnodup.map_on (fun a ha b hb hab => ?_)
    simp only [Function.comp_apply] at hab
    split at hab <;> split at hab
    · next hau hbu => exact List.inj_on_of_nodup_map (h.queues hp) ha hb (hau.trans hbu.symm)
    · next hbu => exact absurd (hkey b hb hab.symm) hbu
    · next hau _ => exact absurd (hkey a ha hab) hau
    · exact List.inj_on_of_nodup_map (h.numbers hp) ha hb hab
  · rw [List.map_map]
    have hsnd : es.map (Prod.snd ∘ fun e => if e.2 = u then (k', e.2) else e) =
        es.map Prod.snd := by
      refine List.map_congr_left (fun e _ => ?_)
      simp only [Function.comp_apply]
      split <;> rfl
    rw [hsnd]
    exact h.queues hp
  · intro k₁ v he
    rcases (hmem _ _).mp he with ⟨hv, he⟩ | ⟨rfl, rfl⟩
    · obtain ⟨r', hq⟩ := h.entry hp he
      exact ⟨r', update_eq_some.mpr (.inr ⟨hv, hq⟩)⟩
    · exact ⟨r, update_eq_some.mpr (.inl ⟨rfl, rfl⟩)⟩
  · intro p' m es₁ k₁ v hne hp' he
    have hvu : v ≠ u := by
      rintro rfl
      exact hne (h.once hp' hp he he₀)
    obtain ⟨r', hq⟩ := h.entry hp' he
    refine ⟨⟨r', update_eq_some.mpr (.inr ⟨hvu, hq⟩)⟩, fun k₂ he₂ => ?_⟩
    rcases (hmem _ _).mp he₂ with ⟨-, he₂⟩ | ⟨hv, -⟩
    · exact hne (h.once hp' hp he he₂)
    · exact hvu hv
  · intro v r' k₁ hv
    rcases update_eq_some.mp hv with ⟨rfl, hx⟩ | ⟨hvu, hv'⟩
    · cases hx
      exact .inl ⟨⟨k', (hmem _ _).mpr (.inr ⟨rfl, rfl⟩)⟩, (h.linked hu).mpr ⟨p, es, k₀, hp, he₀⟩⟩
    · by_cases hes : ∃ k₂, (k₂, v) ∈ es
      · obtain ⟨k₂, he⟩ := hes
        exact .inl ⟨⟨k₂, (hmem _ _).mpr (.inl ⟨hvu, he⟩)⟩,
          (h.linked hv').mpr ⟨p, es, k₂, hp, he⟩⟩
      · refine .inr ⟨fun k₂ he => ?_, .inr ⟨fun k₂ he => hes ⟨k₂, he⟩, rfl⟩⟩
        rcases (hmem _ _).mp he with ⟨-, he⟩ | ⟨hv, -⟩
        · exact hes ⟨k₂, he⟩
        · exact hvu hv

/-- A queue without an entry gets another number. -/
theorem renumber_free (h : Represents M L) (hu : M.queue u = some (r, k)) (k' : Int)
    (hfree : ∀ p n es k₁, M.port p = some (n, es) → (k₁, u) ∉ es) :
    Represents ⟨Function.update M.queue u (some (r, k')), M.port⟩ L := by
  have hback : ∀ {v r' k₁}, Function.update M.queue u (some (r, k')) v = some (r', k₁) →
      ∃ k₂, M.queue v = some (r', k₂) := by
    intro v r' k₁ hv
    rcases update_eq_some.mp hv with ⟨rfl, hx⟩ | ⟨-, hv'⟩
    · cases hx
      exact ⟨k, hu⟩
    · exact ⟨k₁, hv'⟩
  refine ⟨?_, h.name_inj, h.named, h.numbers, h.queues, ?_, h.once, ?_⟩
  · intro a b r' k₁ k₂ ha hb
    obtain ⟨_, ha'⟩ := hback ha
    obtain ⟨_, hb'⟩ := hback hb
    exact h.rid_inj ha' hb'
  · intro p n es k₁ v hp he
    obtain ⟨r', hv⟩ := h.entry hp he
    refine ⟨r', update_eq_some.mpr (.inr ⟨?_, hv⟩)⟩
    rintro rfl
    exact hfree p n es k₁ hp he
  · intro v r' k₁ n hv
    obtain ⟨_, hv'⟩ := hback hv
    exact h.linked hv'

end Represents

end OfConfig.Proofs
