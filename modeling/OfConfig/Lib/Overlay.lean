import Mathlib.Data.List.Infix
import Mathlib.Logic.Basic

/-!
# `OfConfig.Lib.Overlay`: the paths of one tree laid over those of another

A `View` says where the paths of a tree lead to: to a node with a text or to
one without. A tree may be cut off (`without`), added (`union`) or laid over
another one (`overlay`). Then a text of the upper tree hides what is at its
path and below, and a node without a text only shows where there is no other
one. Some paths are kept (`key`): there the upper tree hides nothing.

* `overlay_union`: two trees with no path in common are laid over one after
  the other.
* `overlay_new`, `overlay_leaf`, `overlay_union_of_seen`: what is added is new,
  is a single text, or is there already.
* `overlay_idem`: a tree that is laid over again changes nothing.
-/

set_option autoImplicit false

namespace OfConfig.Lib

/-- The paths of a tree and what they lead to. -/
abbrev View (ι τ : Type) : Type := List ι → Option τ → Prop

namespace View

variable {ι τ : Type}

theorem ext {D E : View ι τ} (h : ∀ p x, D p x ↔ E p x) : D = E :=
  funext fun p => funext fun x => propext (h p x)

/-- The path leads to a node. -/
def Has (D : View ι τ) (p : List ι) : Prop := ∃ x, D p x

/-- Without the node of a path and what is below it. -/
def without (q : List ι) (D : View ι τ) : View ι τ := fun p x => D p x ∧ ¬ q <+: p

/-- Only the node of a path and what is below it. -/
def within (q : List ι) (D : View ι τ) : View ι τ := fun p x => D p x ∧ q <+: p

/-- The paths of two trees. -/
def union (D E : View ι τ) : View ι τ := fun p x => D p x ∨ E p x

/-- The single path to a node. -/
def single (q : List ι) (y : Option τ) : View ι τ := fun p x => p = q ∧ x = y

/-- The paths of a tree that hangs at the end of a path. -/
def below (q : List ι) (S : View ι τ) : View ι τ := fun p x => ∃ r, p = q ++ r ∧ S r x

/-- The nodes that are missing on the way to the end of a path, without texts. -/
def missing (q : List ι) (D : View ι τ) : View ι τ := fun p x =>
  x = none ∧ p ≠ [] ∧ p <+: q ∧ ¬ Has D p

/-- The path goes to a text of the tree or through one. -/
def Covers (key : List ι → Prop) (S : View ι τ) (p : List ι) : Prop :=
  ∃ q t, q <+: p ∧ S q (some t) ∧ ¬ key q

/-- The second tree laid over the first one. -/
def overlay (key : List ι → Prop) (D S : View ι τ) : View ι τ := fun p x =>
  S p x ∧ (¬ Has D p ∨ x.isSome = true ∧ ¬ key p) ∨ D p x ∧ ¬ Covers key S p

/-- No path of the one begins like a path of the other ends. -/
def Apart (S T : View ι τ) : Prop := ∀ p q x y, S p x → T q y → ¬ p <+: q ∧ ¬ q <+: p

variable {key : List ι → Prop} {D S T : View ι τ}

theorem covers_union {p : List ι} :
    Covers key (union S T) p ↔ Covers key S p ∨ Covers key T p := by
  constructor
  · rintro ⟨q, t, hq, hS | hT, hkey⟩
    · exact .inl ⟨q, t, hq, hS, hkey⟩
    · exact .inr ⟨q, t, hq, hT, hkey⟩
  · rintro (⟨q, t, hq, hS, hkey⟩ | ⟨q, t, hq, hT, hkey⟩)
    · exact ⟨q, t, hq, .inl hS, hkey⟩
    · exact ⟨q, t, hq, .inr hT, hkey⟩

theorem has_union {p : List ι} : Has (union S T) p ↔ Has S p ∨ Has T p := exists_or

theorem union_assoc : union (union D S) T = union D (union S T) := ext fun _ _ => or_assoc

theorem has_without {p q : List ι} (h : ¬ q <+: p) : Has (without q D) p ↔ Has D p :=
  exists_congr fun _ => and_iff_left h

theorem below_single (q r : List ι) (y : Option τ) :
    below q (single r y) = single (q ++ r) y := by
  refine ext fun p x => ⟨?_, ?_⟩
  · rintro ⟨r', rfl, rfl, rfl⟩
    exact ⟨rfl, rfl⟩
  · rintro ⟨rfl, rfl⟩
    exact ⟨r, rfl, rfl, rfl⟩

/-! ### Missing nodes -/

/-- Nothing is missing on a path that is there. -/
theorem union_missing_of_has {q : List ι} (h : ∀ p, p ≠ [] → p <+: q → Has D p) (V : View ι τ) :
    union V (missing q D) = V := by
  refine ext fun p x => or_iff_left ?_
  rintro ⟨-, hne, hp, hnot⟩
  exact hnot (h p hne hp)

/-- Only what leads to the end of the path is missing. -/
theorem not_has_missing {p q : List ι} (h : ¬ p <+: q) : ¬ Has (missing q D) p :=
  fun ⟨_, _, _, hp, _⟩ => h hp

/-- The last node of a path is made after the ones above it. -/
theorem missing_concat {q : List ι} {k : ι} (h : ¬ Has D (q ++ [k])) :
    missing (q ++ [k]) D = union (missing q D) (single (q ++ [k]) none) := by
  refine ext fun p x => ⟨?_, ?_⟩
  · rintro ⟨rfl, hne, hp, hnot⟩
    rcases List.prefix_concat_iff.mp hp with rfl | hp
    · exact .inr ⟨rfl, rfl⟩
    · exact .inl ⟨rfl, hne, hp, hnot⟩
  · rintro (⟨rfl, hne, hp, hnot⟩ | ⟨rfl, rfl⟩)
    · exact ⟨rfl, hne, hp.trans (List.prefix_append q [k]), hnot⟩
    · exact ⟨rfl, by simp, List.prefix_refl _, h⟩

/-- What is cut off below is missing above neither. -/
theorem missing_without {q r : List ι} (h : ¬ r <+: q) :
    missing q (without r D) = missing q D := by
  refine ext fun p x => ?_
  refine and_congr_right fun _ => and_congr_right fun _ => and_congr_right fun hp => ?_
  rw [has_without (fun hr => h (hr.trans hp))]

/-! ### Laying over -/

/-- Trees without a common path are laid over one after the other. -/
theorem overlay_union (h : Apart S T) :
    overlay key (overlay key D S) T = overlay key D (union S T) := by
  refine ext fun p x => ⟨?_, ?_⟩
  · rintro (⟨hT, hc⟩ | ⟨⟨hS, hc⟩ | ⟨hD, hS⟩, hT⟩)
    · refine .inl ⟨.inr hT, hc.imp_left ?_⟩
      rintro hnot ⟨y, hy⟩
      -- what the first tree hides is on no path of the second
      refine hnot ⟨y, .inr ⟨hy, ?_⟩⟩
      rintro ⟨q, t, hq, hS, -⟩
      exact (h q p (some t) x hS hT).1 hq
    · exact .inl ⟨.inl hS, hc⟩
    · exact .inr ⟨hD, fun hcov => (covers_union.mp hcov).elim hS hT⟩
  · rintro (⟨hS | hT, hc⟩ | ⟨hD, hcov⟩)
    · refine .inr ⟨.inl ⟨hS, hc⟩, ?_⟩
      rintro ⟨q, t, hq, hT, -⟩
      exact (h p q x (some t) hS hT).2 hq
    · refine .inl ⟨hT, hc.imp_left ?_⟩
      rintro hnot ⟨y, ⟨hS, -⟩ | ⟨hD, -⟩⟩
      · exact (h p p y x hS hT).1 (List.prefix_refl p)
      · exact hnot ⟨y, hD⟩
    · rw [covers_union, not_or] at hcov
      exact .inr ⟨.inr ⟨hD, hcov.1⟩, hcov.2⟩

/-- Nodes that are there already, without a text or kept, change nothing. -/
theorem overlay_union_of_seen (h : ∀ p x, S p x → Has D p ∧ (x = none ∨ key p)) :
    overlay key D (union S T) = overlay key D T := by
  have hcov : ∀ p, ¬ Covers key S p := by
    rintro p ⟨q, t, -, hS, hkey⟩
    rcases (h q (some t) hS).2 with hnone | hk
    · simp at hnone
    · exact hkey hk
  refine ext fun p x => ?_
  simp only [overlay, covers_union, hcov p, false_or]
  refine or_congr_left ⟨?_, ?_⟩
  · rintro ⟨hS | hT, hc⟩
    · obtain ⟨hD, hx⟩ := h p x hS
      rcases hc with hnot | ⟨hsome, hkey⟩
      · exact absurd hD hnot
      · rcases hx with rfl | hk
        · simp at hsome
        · exact absurd hk hkey
    · exact ⟨hT, hc⟩
  · exact fun ⟨hT, hc⟩ => ⟨.inr hT, hc⟩

/-- A tree without paths changes nothing. -/
theorem overlay_empty (h : ∀ p x, ¬ S p x) : overlay key D S = D := by
  refine ext fun p x => ⟨?_, ?_⟩
  · rintro (⟨hS, -⟩ | ⟨hD, -⟩)
    · exact absurd hS (h p x)
    · exact hD
  · exact fun hD => .inr ⟨hD, fun ⟨q, t, _, hS, _⟩ => h q (some t) hS⟩

/-- A path that leads to no node of the upper tree, nor through one, is as it was. -/
theorem has_overlay {p : List ι} (h : ∀ q x, q <+: p → ¬ S q x) :
    Has (overlay key D S) p ↔ Has D p := by
  refine exists_congr fun x => ⟨?_, ?_⟩
  · rintro (⟨hS, -⟩ | ⟨hD, -⟩)
    · exact absurd hS (h p x (List.prefix_refl p))
    · exact hD
  · exact fun hD => .inr ⟨hD, fun ⟨q, t, hq, hS, _⟩ => h q (some t) hq hS⟩

/-- A tree with nothing at its paths or below is added. -/
theorem overlay_new (h : ∀ p q x, S q x → q <+: p → ¬ Has D p) :
    overlay key D S = union D S := by
  refine ext fun p x => ⟨?_, ?_⟩
  · rintro (⟨hS, -⟩ | ⟨hD, -⟩)
    · exact .inr hS
    · exact .inl hD
  · rintro (hD | hS)
    · refine .inr ⟨hD, ?_⟩
      rintro ⟨q, t, hq, hS, -⟩
      exact h p q (some t) hS hq ⟨x, hD⟩
    · exact .inl ⟨hS, .inl (h p p x hS (List.prefix_refl p))⟩

/-- A single text takes the place of what is there. -/
theorem overlay_leaf {q : List ι} {t : τ} (hq : ¬ key q) :
    overlay key D (single q (some t)) = union (without q D) (single q (some t)) := by
  have hcov : ∀ p, Covers key (single q (some t)) p ↔ q <+: p := by
    intro p
    constructor
    · rintro ⟨q', t', hp, ⟨rfl, -⟩, -⟩
      exact hp
    · exact fun hp => ⟨q, t, hp, ⟨rfl, rfl⟩, hq⟩
  refine ext fun p x => ?_
  simp only [overlay, hcov, union, without]
  rw [or_comm]
  refine or_congr_right ⟨And.left, ?_⟩
  rintro ⟨rfl, rfl⟩
  exact ⟨⟨rfl, rfl⟩, .inr ⟨rfl, hq⟩⟩

/-- A tree whose texts are its leaves changes nothing when it is laid over once
more. -/
theorem overlay_idem (hone : ∀ p x y, S p x → S p y → x = y)
    (hleaf : ∀ p q t x, S q (some t) → q <+: p → S p x → p = q) :
    overlay key (overlay key D S) S = overlay key D S := by
  have hseen : ∀ p x, S p x → Has (overlay key D S) p := by
    intro p x hS
    by_cases hc : ¬ Has D p ∨ x.isSome = true ∧ ¬ key p
    · exact ⟨x, .inl ⟨hS, hc⟩⟩
    · rw [not_or, not_not] at hc
      obtain ⟨⟨y, hy⟩, hx⟩ := hc
      refine ⟨y, .inr ⟨hy, ?_⟩⟩
      rintro ⟨q, t, hq, hSq, hkey⟩
      obtain rfl := hleaf p q t x hSq hq hS
      exact hx ⟨by rw [hone p x (some t) hS hSq]; rfl, hkey⟩
  refine ext fun p x => ⟨?_, ?_⟩
  · rintro (⟨hS, hnot | hc⟩ | ⟨h, -⟩)
    · exact absurd (hseen p x hS) hnot
    · exact .inl ⟨hS, .inr hc⟩
    · exact h
  · intro h
    by_cases hcov : Covers key S p
    · obtain ⟨q, t, hq, hSq, hkey⟩ := hcov
      rcases h with ⟨hS, -⟩ | ⟨-, hnot⟩
      · obtain rfl := hleaf p q t x hSq hq hS
        exact .inl ⟨hS, .inr ⟨by rw [hone p x (some t) hS hSq]; rfl, hkey⟩⟩
      · exact absurd ⟨q, t, hq, hSq, hkey⟩ hnot
    · exact .inr ⟨h, hcov⟩

end View

end OfConfig.Lib
