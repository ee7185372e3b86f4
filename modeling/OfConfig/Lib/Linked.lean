import Mathlib.Data.List.Basic
import Mathlib.Data.List.Nodup
import Mathlib.Logic.Function.Basic

/-!
# `OfConfig.Lib.Linked`: lists in a memory

A memory gives for a pointer what is stored there. `Links` is one pointer
field of it: the pointer stored at each allocated place. `Walk` says which
places a program visits that follows the field, and `Back` that a second field
points to the place before.

The rules are about the writes that list code makes: `Walk.frame` for writes
elsewhere, `Walk.relink` for a new pointer in the last place, `Walk.remove`
for a place that is cut out, and `search_eq` for a loop over the list. A walk
that ends is the only one (`Walk.unique`) and visits no place twice
(`Walk.nodup`).
-/

set_option autoImplicit false

namespace OfConfig.Lib.Linked

/-- A pointer field: `none` where nothing is allocated, and the pointer there,
which may be null. -/
abbrev Links := Nat → Option (Option Nat)

/-- Following the field from a pointer visits the places and ends with another
pointer. -/
inductive Walk (L : Links) : Option Nat → List Nat → Option Nat → Prop where
  | nil (p : Option Nat) : Walk L p [] p
  | cons {p : Nat} {s q : Option Nat} {ps : List Nat} (h : L p = some s) (rest : Walk L s ps q) :
      Walk L (some p) (p :: ps) q

section Walks

variable {L L' : Links} {p q s : Option Nat} {ps qs : List Nat}

theorem walk_nil_iff : Walk L p [] q ↔ p = q :=
  ⟨fun h => by cases h; rfl, fun h => h ▸ .nil p⟩

theorem walk_cons_iff {a : Nat} :
    Walk L p (a :: ps) q ↔ p = some a ∧ ∃ s, L a = some s ∧ Walk L s ps q := by
  constructor
  · intro h
    cases h with
    | cons h rest => exact ⟨rfl, _, h, rest⟩
  · rintro ⟨rfl, s, h, rest⟩
    exact .cons h rest

/-- A walk is cut at any place. -/
theorem walk_append_iff : Walk L p (ps ++ qs) q ↔ ∃ s, Walk L p ps s ∧ Walk L s qs q := by
  induction ps generalizing p with
  | nil =>
    constructor
    · exact fun h => ⟨p, .nil p, h⟩
    · rintro ⟨s, h, rest⟩
      obtain rfl := walk_nil_iff.mp h
      exact rest
  | cons a ps ih =>
    rw [List.cons_append, walk_cons_iff]
    constructor
    · rintro ⟨rfl, s, h, rest⟩
      obtain ⟨s', h', rest'⟩ := ih.mp rest
      exact ⟨s', .cons h h', rest'⟩
    · rintro ⟨s, h, rest⟩
      obtain ⟨rfl, s', h', h''⟩ := walk_cons_iff.mp h
      exact ⟨rfl, s', h', ih.mpr ⟨s, h'', rest⟩⟩

/-- Every place of a walk is allocated. -/
theorem Walk.isSome (h : Walk L p ps q) : ∀ a ∈ ps, (L a).isSome = true := by
  induction h with
  | nil => simp
  | cons h _ ih =>
    intro a ha
    rcases List.mem_cons.mp ha with rfl | ha
    · rw [h]
      rfl
    · exact ih a ha

/-- A walk depends on the field in its places only. -/
theorem Walk.frame (h : Walk L p ps q) (hL : ∀ a ∈ ps, L' a = L a) : Walk L' p ps q := by
  induction h with
  | nil => exact .nil _
  | cons h _ ih =>
    exact .cons ((hL _ List.mem_cons_self).trans h)
      (ih (fun a ha => hL a (List.mem_cons_of_mem _ ha)))

/-- A walk to the end of the list starts with its first place. -/
theorem Walk.eq_head? (h : Walk L p ps none) : p = ps.head? := by
  cases h with
  | nil => rfl
  | cons => rfl

/-- A walk to the end of the list is the only one. -/
theorem Walk.unique (h : Walk L p ps none) (h' : Walk L p qs none) : ps = qs := by
  induction ps generalizing p qs with
  | nil =>
    obtain rfl := walk_nil_iff.mp h
    cases h' with
    | nil => rfl
  | cons a ps ih =>
    obtain ⟨rfl, s, ha, rest⟩ := walk_cons_iff.mp h
    cases h' with
    | cons ha' rest' =>
      obtain rfl := Option.some.inj (ha.symm.trans ha')
      rw [ih rest rest']

/-- A walk to the end of the list visits no place twice. -/
theorem Walk.nodup (h : Walk L p ps none) : ps.Nodup := by
  induction ps generalizing p with
  | nil => exact List.nodup_nil
  | cons a ps ih =>
    obtain ⟨rfl, s, ha, rest⟩ := walk_cons_iff.mp h
    refine List.nodup_cons.mpr ⟨fun hmem => ?_, ih rest⟩
    -- a second visit would be followed by the same places once more
    obtain ⟨us, vs, rfl⟩ := List.append_of_mem hmem
    obtain ⟨r, -, hback⟩ := walk_append_iff.mp rest
    obtain ⟨rfl, -⟩ := walk_cons_iff.mp hback
    have hlen := congrArg List.length (h.unique hback)
    rw [List.length_cons, List.length_append, List.length_cons] at hlen
    omega

/-- A new pointer in the last place. -/
theorem Walk.relink {a : Nat} (h : Walk L p (ps ++ [a]) q) (hL : ∀ b ∈ ps, L' b = L b)
    (ha : L' a = some s) : Walk L' p (ps ++ [a]) s := by
  obtain ⟨r, hps, hlast⟩ := walk_append_iff.mp h
  obtain ⟨rfl, -⟩ := walk_cons_iff.mp hlast
  exact walk_append_iff.mpr ⟨some a, hps.frame hL, .cons ha (.nil s)⟩

/-- A place is cut out: the pointer to it now points behind it. -/
theorem Walk.remove {a : Nat} (h : Walk L p (ps ++ a :: qs) none) (ha : L a = some s)
    (hps : ∀ b ∈ ps.dropLast, L' b = L b) (hqs : ∀ b ∈ qs, L' b = L b)
    (hlast : ∀ b, ps.getLast? = some b → L' b = some s) :
    Walk L' (if ps = [] then s else p) (ps ++ qs) none := by
  obtain ⟨r, hfront, hback⟩ := walk_append_iff.mp h
  obtain ⟨rfl, s', ha', hrest⟩ := walk_cons_iff.mp hback
  obtain rfl := Option.some.inj (ha.symm.trans ha')
  have hrest' : Walk L' s qs none := hrest.frame hqs
  cases hd : ps.getLast? with
  | none =>
    obtain rfl := List.getLast?_eq_none_iff.mp hd
    rw [if_pos rfl]
    exact hrest'
  | some b =>
    obtain ⟨ys, rfl⟩ := List.getLast?_eq_some_iff.mp hd
    rw [List.dropLast_concat] at hps
    rw [if_neg (by simp)]
    exact walk_append_iff.mpr ⟨s, hfront.relink hps (hlast b hd), hrest'⟩

end Walks

/-! ### Pointers back -/

/-- A field of the places points to the place before, and in the first place
to the given one. -/
def Back (B : Links) : Option Nat → List Nat → Prop
  | _, [] => True
  | prev, p :: ps => B p = some prev ∧ Back B (some p) ps

section Backs

variable {B B' : Links} {prev : Option Nat} {ps qs : List Nat}

theorem Back.frame (h : Back B prev ps) (hB : ∀ a ∈ ps, B' a = B a) : Back B' prev ps := by
  induction ps generalizing prev with
  | nil => trivial
  | cons a ps ih =>
    exact ⟨(hB a List.mem_cons_self).trans h.1,
      ih h.2 (fun b hb => hB b (List.mem_cons_of_mem _ hb))⟩

/-- The place that the next one points back to. -/
def lastOr (prev : Option Nat) (ps : List Nat) : Option Nat := ps.getLast?.or prev

theorem back_append_iff :
    Back B prev (ps ++ qs) ↔ Back B prev ps ∧ Back B (lastOr prev ps) qs := by
  induction ps generalizing prev with
  | nil => exact ⟨fun h => ⟨trivial, h⟩, fun h => h.2⟩
  | cons a ps ih =>
    have hlast : lastOr (some a) ps = lastOr prev (a :: ps) := by
      unfold lastOr
      cases ps with
      | nil => rfl
      | cons b ps =>
        rw [List.getLast?_cons_cons, List.getLast?_eq_some_getLast (List.cons_ne_nil b ps)]
        rfl
    rw [List.cons_append, Back, Back, ih, hlast, and_assoc]

end Backs

/-! ### Loops over a list -/

/-- A loop that follows pointers until the content of a place says stop. It
ends with the place, or with null at the end; `none` when it uses a pointer to
nothing, or does not end in the given number of rounds. -/
def search {α : Type} (mem : Nat → Option α) (next : α → Option Nat) (stop : α → Bool) :
    Nat → Option Nat → Option (Option Nat)
  | 0, _ => none
  | _ + 1, none => some none
  | n + 1, some p =>
    match mem p with
    | none => none
    | some a => if stop a then some (some p) else search mem next stop n (next a)

/-- The loop gives the first place of the list that says stop. -/
theorem search_eq {α : Type} {mem : Nat → Option α} {next : α → Option Nat} (stop : α → Bool)
    {p : Option Nat} {ps : List Nat} (h : Walk (fun p => (mem p).map next) p ps none) {fuel : Nat}
    (hfuel : ps.length < fuel) :
    search mem next stop fuel p = some (ps.find? (fun p => (mem p).any stop)) := by
  induction ps generalizing p fuel with
  | nil =>
    obtain rfl := walk_nil_iff.mp h
    obtain ⟨n, rfl⟩ := Nat.exists_eq_add_of_lt hfuel
    rfl
  | cons a ps ih =>
    obtain ⟨rfl, s, ha, rest⟩ := walk_cons_iff.mp h
    obtain ⟨c, hc, rfl⟩ := Option.map_eq_some_iff.mp ha
    obtain ⟨n, rfl⟩ : ∃ n, fuel = n + 1 := ⟨fuel - 1, by rw [List.length_cons] at hfuel; omega⟩
    rw [search, List.find?_cons, hc, Option.any_some]
    dsimp only
    cases hs : stop c with
    | true => rw [if_pos rfl]
    | false =>
      rw [if_neg Bool.false_ne_true]
      exact ih rest (Nat.lt_of_succ_lt_succ hfuel)

/-- The first place with a null pointer is the last one of the list. -/
theorem find_last {α : Type} {mem : Nat → Option α} {next : α → Option Nat} {p : Option Nat}
    {ps : List Nat} (h : Walk (fun p => (mem p).map next) p ps none) :
    ps.find? (fun p => (mem p).any (fun a => (next a).isNone)) = ps.getLast? := by
  induction ps generalizing p with
  | nil => rfl
  | cons a ps ih =>
    obtain ⟨rfl, s, ha, rest⟩ := walk_cons_iff.mp h
    obtain ⟨c, hc, rfl⟩ := Option.map_eq_some_iff.mp ha
    rw [List.find?_cons, hc, Option.any_some]
    cases ps with
    | nil =>
      rw [walk_nil_iff.mp rest]
      rfl
    | cons b ps =>
      obtain ⟨hb, -⟩ := walk_cons_iff.mp rest
      rw [List.getLast?_cons_cons, ← ih rest, hb]
      rfl

end OfConfig.Lib.Linked
