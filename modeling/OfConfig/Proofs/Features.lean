import OfConfig.Ovs.Backend

/-!
# `OfConfig.Proofs.Features`: advertised features of a port

`txn_add_port_advert` and `txn_del_port_advert` set and clear bits of the
advertising mask of an interface, `dump_port_features` shows the mask as
elements. The first two stop at the first entry of a table with the given
text, the last one goes through all of them; a rate with several bits is
listed once for each bit that is set.

`features_as_shown_iff` says for which masks and elements an element that
is added is shown, one that is removed is not, everything else stays, and
nothing is shown twice.
-/

set_option autoImplicit false

namespace OfConfig.Proofs

open OfConfig.Lib OfConfig.Xml OfConfig.Edit OfConfig.Ovs

variable {b c mask mask' : BitVec 32}

/-! ### Bits of a mask -/

/-- The mask has one of the bits. -/
def Has (mask b : BitVec 32) : Prop := b &&& mask ≠ 0

theorem has_or (mask b c : BitVec 32) : Has (mask ||| c) b ↔ Has mask b ∨ Has c b := by
  simp only [Has, BitVec.and_or_distrib_left, ne_eq, BitVec.or_eq_zero_iff, BitVec.ofNat_eq_ofNat]
  tauto

theorem and_clear_of_disjoint (h : b &&& c = 0) (mask : BitVec 32) :
    b &&& (mask &&& ~~~c) = b &&& mask := by
  refine BitVec.eq_of_getLsbD_eq fun i hi => ?_
  have hbit : (b &&& c).getLsbD i = false := by rw [h]; simp
  simp only [BitVec.getLsbD_and, BitVec.getLsbD_not, hi, decide_true, Bool.true_and] at hbit ⊢
  revert hbit
  cases b.getLsbD i <;> cases c.getLsbD i <;> simp

theorem has_clear_of_disjoint (h : b &&& c = 0) (mask : BitVec 32) :
    Has (mask &&& ~~~c) b ↔ Has mask b := by
  rw [Has, and_clear_of_disjoint h, Has]

theorem not_has_clear (mask b : BitVec 32) : ¬ Has (mask &&& ~~~b) b := by
  rw [Has, not_not]
  refine BitVec.eq_of_getLsbD_eq fun i hi => ?_
  simp only [BitVec.getLsbD_and, BitVec.getLsbD_not, hi, decide_true, Bool.true_and]
  cases b.getLsbD i <;> simp

/-! ### Tables of features -/

/-- The entries of a table have a bit each, different from the others. -/
structure OneBitEach (table : List (BitVec 32 × String)) : Prop where
  nodup : table.Nodup
  bit : ∀ e ∈ table, e.1 ≠ 0
  disjoint : ∀ e ∈ table, ∀ e' ∈ table, e ≠ e' → e.1 &&& e'.1 = 0

theorem oneBitEach_rates : OneBitEach rates := ⟨by decide, by decide, by decide⟩

theorem oneBitEach_medium : OneBitEach medium := ⟨by decide, by decide, by decide⟩

/-- No two bits of the mask have the same text. -/
def Single (table : List (BitVec 32 × String)) (mask : BitVec 32) : Prop :=
  ∀ e ∈ table, ∀ e' ∈ table, e.2 = e'.2 → Has mask e.1 → Has mask e'.1 → e = e'

/-- Of the bits with its text the mask has at most that of the entry. -/
def OnlyFirst (table : List (BitVec 32 × String)) (first : BitVec 32 × String)
    (mask : BitVec 32) : Prop :=
  ∀ e ∈ table, e.2 = first.2 → Has mask e.1 → e = first

section

variable {table : List (BitVec 32 × String)}

theorem mem_maskTexts {text : String} :
    text ∈ maskTexts table mask ↔ ∃ e ∈ table, e.2 = text ∧ Has mask e.1 := by
  simp only [maskTexts, List.mem_map, List.mem_filter, decide_eq_true_eq, Has]
  grind

variable (h : OneBitEach table)

include h

theorem nodup_maskTexts (mask : BitVec 32) : (maskTexts table mask).Nodup ↔ Single table mask := by
  rw [maskTexts, List.nodup_map_iff_inj_on (h.nodup.filter _)]
  simp only [List.mem_filter, decide_eq_true_eq, Single, Has]
  grind

variable {first : BitVec 32 × String} (hfirst : first ∈ table)

include hfirst

/-- Adding an entry sets its bit only. -/
theorem has_add {e : BitVec 32 × String} (he : e ∈ table) (mask : BitVec 32) :
    Has (mask ||| first.1) e.1 ↔ Has mask e.1 ∨ e = first := by
  rw [has_or]
  by_cases heq : e = first
  · have hself : Has first.1 first.1 := by
      rw [Has, BitVec.and_self]
      exact h.bit first hfirst
    simp [heq, hself]
  · simp [heq, Has, h.disjoint e he first hfirst heq]

/-- Removing an entry clears its bit only. -/
theorem has_del {e : BitVec 32 × String} (he : e ∈ table) (mask : BitVec 32) :
    Has (mask &&& ~~~first.1) e.1 ↔ Has mask e.1 ∧ e ≠ first := by
  by_cases heq : e = first
  · simp [heq, not_has_clear]
  · rw [has_clear_of_disjoint (h.disjoint e he first hfirst heq)]
    simp [heq]

theorem mem_maskTexts_add (mask : BitVec 32) : first.2 ∈ maskTexts table (mask ||| first.1) :=
  mem_maskTexts.mpr ⟨first, hfirst, rfl, (has_add h hfirst hfirst mask).mpr (.inr rfl)⟩

/-- A text is gone if and only if no other bit has it. -/
theorem not_mem_maskTexts_del (mask : BitVec 32) :
    first.2 ∉ maskTexts table (mask &&& ~~~first.1) ↔ OnlyFirst table first mask := by
  rw [mem_maskTexts]
  constructor
  · intro hgone e he htext hhas
    by_contra hne
    exact hgone ⟨e, he, htext, (has_del h hfirst he mask).mpr ⟨hhas, hne⟩⟩
  · rintro honly ⟨e, he, htext, hhas⟩
    obtain ⟨hhas, hne⟩ := (has_del h hfirst he mask).mp hhas
    exact hne (honly e he htext hhas)

/-- After an addition no text is shown twice if and only if that was so before
and no other bit has the text. -/
theorem single_add (mask : BitVec 32) :
    Single table (mask ||| first.1) ↔ Single table mask ∧ OnlyFirst table first mask := by
  constructor
  · intro hs
    refine ⟨fun e he e' he' htext hh hh' => ?_, fun e he htext hh => ?_⟩
    · exact hs e he e' he' htext ((has_add h hfirst he mask).mpr (.inl hh))
        ((has_add h hfirst he' mask).mpr (.inl hh'))
    · exact hs e he first hfirst htext ((has_add h hfirst he mask).mpr (.inl hh))
        ((has_add h hfirst hfirst mask).mpr (.inr rfl))
  · rintro ⟨hs, honly⟩ e he e' he' htext hh hh'
    rcases (has_add h hfirst he mask).mp hh with hbefore | rfl
    · rcases (has_add h hfirst he' mask).mp hh' with hbefore' | heq
      · exact hs e he e' he' htext hbefore hbefore'
      · rw [heq] at htext ⊢
        exact honly e he htext hbefore
    · rcases (has_add h hfirst he' mask).mp hh' with hbefore' | heq
      · exact (honly e' he' htext.symm hbefore').symm
      · exact heq.symm

theorem single_del (hs : Single table mask) : Single table (mask &&& ~~~first.1) :=
  fun e he e' he' htext hh hh' =>
  hs e he e' he' htext ((has_del h hfirst he mask).mp hh).1 ((has_del h hfirst he' mask).mp hh').1

end

/-- A change of other bits does not show. -/
theorem maskTexts_congr {table : List (BitVec 32 × String)}
    (h : ∀ e ∈ table, Has mask' e.1 ↔ Has mask e.1) :
    maskTexts table mask' = maskTexts table mask := by
  unfold maskTexts
  congr 1
  exact List.filter_congr fun e he => decide_eq_decide.mpr (h e he)

/-! ### What is shown -/

/-- The kinds of elements in `advertised`. -/
inductive FeatureKind where
  | rate
  | medium
  | autoNegotiate
  | pause
deriving DecidableEq, Repr

/-- The name of the element. -/
def FeatureKind.name : FeatureKind → String
  | .rate => "rate"
  | .medium => "medium"
  | .autoNegotiate => "auto-negotiate"
  | .pause => "pause"

/-- The text of `auto-negotiate`. -/
def autoNegotiateText (mask : BitVec 32) : String :=
  if autonegBit &&& mask ≠ 0 then "true" else "false"

/-- The text of `pause`. -/
def pauseText (mask : BitVec 32) : String :=
  if asymPauseBit &&& mask ≠ 0 then "asymmetric"
  else if pauseBit &&& mask ≠ 0 then "symmetric" else "unsupported"

/-- The texts that `dump_port_features` writes into elements of a kind. -/
def shownTexts (mask : BitVec 32) : FeatureKind → List String
  | .rate => maskTexts rates mask
  | .medium => maskTexts medium mask
  | .autoNegotiate => [autoNegotiateText mask]
  | .pause => [pauseText mask]

/-- `dump_port_features` writes these elements, kind after kind. -/
theorem dumpPortFeatures_eq (mask : BitVec 32) :
    dumpPortFeatures mask = String.join
      ([FeatureKind.rate, .autoNegotiate, .medium, .pause].map (fun kind =>
        String.join ((shownTexts mask kind).map (put kind.name)))) := by
  simp [dumpPortFeatures, shownTexts, FeatureKind.name, autoNegotiateText, pauseText, String.join,
    String.append_assoc]

/-- The elements of the data model that a mask can express. -/
def Expressible : FeatureKind → String → Prop
  | .rate, text => text ∈ rates.map Prod.snd
  | .medium, text => text ∈ medium.map Prod.snd
  | .autoNegotiate, text => text = "true" ∨ text = "false"
  | .pause, text => text = "symmetric" ∨ text = "asymmetric"

/-- The element is shown with the text: a leaf with it only, a leaf-list
among others. -/
def ShownAs (mask : BitVec 32) (kind : FeatureKind) (text : String) : Prop :=
  match kind with
  | .rate | .medium => text ∈ shownTexts mask kind
  | .autoNegotiate | .pause => shownTexts mask kind = [text]

/-- No rate and no medium is shown twice. -/
def NoneTwice (mask : BitVec 32) : Prop :=
  (shownTexts mask .rate).Nodup ∧ (shownTexts mask .medium).Nodup

/-- From a mask an element is added, and from the same mask it is removed:
the masks afterwards show what they should. -/
structure AsShown (kind : FeatureKind) (text : String) (mask added deleted : BitVec 32) : Prop where
  shown : ShownAs added kind text
  gone : kind ≠ .autoNegotiate → text ∉ shownTexts deleted kind
  others : ∀ k, k ≠ kind → shownTexts added k = shownTexts mask k ∧
    shownTexts deleted k = shownTexts mask k
  once : NoneTwice mask ∧ NoneTwice added ∧ NoneTwice deleted

/-! ### Frames -/

/-- All bits of a kind. -/
def kindBits : FeatureKind → BitVec 32
  | .rate => (rates.map Prod.fst).foldr (· ||| ·) 0
  | .medium => (medium.map Prod.fst).foldr (· ||| ·) 0
  | .autoNegotiate => autonegBit
  | .pause => pauseBit ||| asymPauseBit

/-- What is shown of a kind depends on its bits only. -/
theorem shownTexts_congr {kind : FeatureKind}
    (h : kindBits kind &&& mask' = kindBits kind &&& mask) :
    shownTexts mask' kind = shownTexts mask kind := by
  have hbit {b : BitVec 32} (hb : b &&& kindBits kind = b) : b &&& mask' = b &&& mask := by
    rw [← hb, BitVec.and_assoc, BitVec.and_assoc, h]
  have htable {table : List (BitVec 32 × String)} (ht : ∀ e ∈ table, e.1 &&& kindBits kind = e.1) :
      maskTexts table mask' = maskTexts table mask :=
    maskTexts_congr fun e he => by rw [Has, Has, hbit (ht e he)]
  cases kind with
  | rate => exact htable (by decide)
  | medium => exact htable (by decide)
  | autoNegotiate =>
    simp only [shownTexts, autoNegotiateText, hbit (by decide : autonegBit &&& _ = _)]
  | pause =>
    simp only [shownTexts, pauseText, hbit (by decide : asymPauseBit &&& _ = _),
      hbit (by decide : pauseBit &&& _ = _)]

/-- Bits of another kind do not show. -/
theorem shownTexts_or {kind : FeatureKind} (h : kindBits kind &&& c = 0) (mask : BitVec 32) :
    shownTexts (mask ||| c) kind = shownTexts mask kind := by
  refine shownTexts_congr ?_
  rw [BitVec.and_or_distrib_left, h]
  simp

theorem shownTexts_clear {kind : FeatureKind} (h : kindBits kind &&& c = 0) (mask : BitVec 32) :
    shownTexts (mask &&& ~~~c) kind = shownTexts mask kind :=
  shownTexts_congr (and_clear_of_disjoint h mask)

/-- The bits of a rate, and of a medium, belong to that kind. -/
theorem kindBits_rates : ∀ e ∈ rates, ∀ kind, kind ≠ .rate → kindBits kind &&& e.1 = 0 := by
  intro e he kind hk
  cases kind with
  | rate => exact absurd rfl hk
  | medium => revert e; decide
  | autoNegotiate => revert e; decide
  | pause => revert e; decide

theorem kindBits_medium : ∀ e ∈ medium, ∀ kind, kind ≠ .medium → kindBits kind &&& e.1 = 0 := by
  intro e he kind hk
  cases kind with
  | rate => revert e; decide
  | medium => exact absurd rfl hk
  | autoNegotiate => revert e; decide
  | pause => revert e; decide

/-- The first entry with a text that is in the table. -/
theorem exists_first {table : List (BitVec 32 × String)} {text : String}
    (h : text ∈ table.map Prod.snd) :
    ∃ first ∈ table, first.2 = text ∧ table.find? (fun e => some text = some e.2) = some first ∧
      tableBits table (some text) = first.1 := by
  obtain ⟨e, he, rfl⟩ := List.mem_map.mp h
  cases hf : table.find? (fun e' => some e.2 = some e'.2) with
  | none => exact absurd (by simp) (List.find?_eq_none.mp hf e he)
  | some first =>
    have htext : e.2 = first.2 := by simpa using List.find?_some hf
    exact ⟨first, List.mem_of_find?_eq_some hf, htext.symm, rfl, by rw [tableBits, hf]; rfl⟩

theorem noneTwice_iff (mask : BitVec 32) : NoneTwice mask ↔ Single rates mask := by
  have hdiffer : ∀ e ∈ medium, ∀ e' ∈ medium, e.2 = e'.2 → e = e' := by decide
  have hmedium : Single medium mask := fun e he e' he' htext _ _ => hdiffer e he e' he' htext
  rw [NoneTwice, shownTexts, shownTexts, nodup_maskTexts oneBitEach_rates,
    nodup_maskTexts oneBitEach_medium]
  exact and_iff_left hmedium

/-! ### Adding and removing -/

/-- The masks and elements for which the functions do what they show: no rate
has two of its bits set, of the bits of the rate itself only the first one may
be set, and the pause is already there, because it is not added. -/
structure Workable (kind : FeatureKind) (text : String) (mask : BitVec 32) : Prop where
  single : Single rates mask
  rate : kind = .rate → ∀ first, rates.find? (fun e => some text = some e.2) = some first →
    OnlyFirst rates first mask
  pause : kind = .pause → pauseText mask = text

variable {mask : BitVec 32} {text : String}

theorem asShown_rate (h : text ∈ rates.map Prod.snd) :
    AsShown .rate text mask (addAdvert "rate" (some text) mask)
      (delAdvert "rate" (some text) mask) ↔
      Workable .rate text mask := by
  obtain ⟨first, hmem, rfl, hfind, hbits⟩ := exists_first h
  have hadd : addAdvert "rate" (some first.2) mask = mask ||| first.1 := by
    rw [addAdvert, if_pos rfl, hbits]
  have hdel : delAdvert "rate" (some first.2) mask = mask &&& ~~~first.1 := by
    rw [delAdvert, if_pos rfl, hbits]
  have hgone := not_mem_maskTexts_del oneBitEach_rates hmem mask
  rw [hadd, hdel]
  constructor
  · intro hs
    refine ⟨(noneTwice_iff mask).mp hs.once.1, fun _ f hf => ?_, nofun⟩
    obtain rfl : first = f := Option.some.inj (hfind.symm.trans hf)
    exact hgone.mp (hs.gone (by decide))
  · intro hw
    have honly := hw.rate rfl first hfind
    refine ⟨mem_maskTexts_add oneBitEach_rates hmem mask, fun _ => hgone.mpr honly,
      fun k hk => ⟨shownTexts_or (kindBits_rates first hmem k hk) mask,
        shownTexts_clear (kindBits_rates first hmem k hk) mask⟩, ?_⟩
    simp only [noneTwice_iff]
    exact ⟨hw.single, (single_add oneBitEach_rates hmem mask).mpr ⟨hw.single, honly⟩,
      single_del oneBitEach_rates hmem hw.single⟩

/-- What changes no bit of a rate shows no rate twice that was not. -/
theorem noneTwice_of_rates (h : shownTexts mask' .rate = shownTexts mask .rate)
    (hs : Single rates mask) : NoneTwice mask' := by
  rw [noneTwice_iff, ← nodup_maskTexts oneBitEach_rates]
  have hrates : maskTexts rates mask' = maskTexts rates mask := h
  rw [hrates]
  exact (nodup_maskTexts oneBitEach_rates mask).mpr hs

theorem asShown_medium (h : text ∈ medium.map Prod.snd) :
    AsShown .medium text mask (addAdvert "medium" (some text) mask)
      (delAdvert "medium" (some text) mask) ↔ Workable .medium text mask := by
  obtain ⟨first, hmem, rfl, hfind, hbits⟩ := exists_first h
  have hadd : addAdvert "medium" (some first.2) mask = mask ||| first.1 := by
    rw [addAdvert, if_neg (by decide), if_pos rfl, hbits]
  have hdel : delAdvert "medium" (some first.2) mask = mask &&& ~~~first.1 := by
    rw [delAdvert, if_neg (by decide), if_pos rfl, hbits]
  have hdiffer : ∀ e ∈ medium, ∀ e' ∈ medium, e.2 = e'.2 → e = e' := by decide
  have honly : OnlyFirst medium first mask := fun e he htext _ => hdiffer e he first hmem htext
  rw [hadd, hdel]
  constructor
  · intro hs
    exact ⟨(noneTwice_iff mask).mp hs.once.1, nofun, nofun⟩
  · intro hw
    have hothers : ∀ k, k ≠ .medium → shownTexts (mask ||| first.1) k = shownTexts mask k ∧
        shownTexts (mask &&& ~~~first.1) k = shownTexts mask k := fun k hk =>
      ⟨shownTexts_or (kindBits_medium first hmem k hk) mask,
        shownTexts_clear (kindBits_medium first hmem k hk) mask⟩
    have hrates := hothers .rate (by decide)
    exact ⟨mem_maskTexts_add oneBitEach_medium hmem mask,
      fun _ => (not_mem_maskTexts_del oneBitEach_medium hmem mask).mpr honly, hothers,
      (noneTwice_iff mask).mpr hw.single, noneTwice_of_rates hrates.1 hw.single,
      noneTwice_of_rates hrates.2 hw.single⟩

theorem kindBits_autoneg : ∀ kind, kind ≠ .autoNegotiate → kindBits kind &&& autonegBit = 0 := by
  intro kind hk
  cases kind with
  | rate => decide
  | medium => decide
  | autoNegotiate => exact absurd rfl hk
  | pause => decide

theorem asShown_autoNegotiate (h : text = "true" ∨ text = "false") :
    AsShown .autoNegotiate text mask (addAdvert "auto-negotiate" (some text) mask)
      (delAdvert "auto-negotiate" (some text) mask) ↔ Workable .autoNegotiate text mask := by
  have hself : Has autonegBit autonegBit := by rw [Has]; decide
  have hset : ∀ k, k ≠ .autoNegotiate → shownTexts (mask ||| autonegBit) k = shownTexts mask k :=
    fun k hk => shownTexts_or (kindBits_autoneg k hk) mask
  have hclear : ∀ k, k ≠ .autoNegotiate →
      shownTexts (mask &&& ~~~autonegBit) k = shownTexts mask k :=
    fun k hk => shownTexts_clear (kindBits_autoneg k hk) mask
  have hdel : delAdvert "auto-negotiate" (some text) mask = mask ||| autonegBit := rfl
  rw [hdel]
  constructor
  · intro hs
    exact ⟨(noneTwice_iff mask).mp hs.once.1, nofun, nofun⟩
  · intro hw
    have htwice := noneTwice_of_rates (hset .rate (by decide)) hw.single
    have hbefore := (noneTwice_iff mask).mpr hw.single
    rcases h with rfl | rfl
    · have hadd : addAdvert "auto-negotiate" (some "true") mask = mask ||| autonegBit := rfl
      have htrue : autoNegotiateText (mask ||| autonegBit) = "true" :=
        if_pos ((has_or _ _ _).mpr (.inr hself))
      rw [hadd]
      exact ⟨by rw [ShownAs, shownTexts, htrue], fun hne => absurd rfl hne,
        fun k hk => ⟨hset k hk, hset k hk⟩, hbefore, htwice, htwice⟩
    · have hadd : addAdvert "auto-negotiate" (some "false") mask = mask &&& ~~~autonegBit := rfl
      have hfalse : autoNegotiateText (mask &&& ~~~autonegBit) = "false" :=
        if_neg (not_has_clear _ _)
      rw [hadd]
      exact ⟨by rw [ShownAs, shownTexts, hfalse], fun hne => absurd rfl hne,
        fun k hk => ⟨hclear k hk, hset k hk⟩, hbefore,
        noneTwice_of_rates (hclear .rate (by decide)) hw.single, htwice⟩

theorem kindBits_pause : ∀ kind, kind ≠ .pause →
    kindBits kind &&& pauseBit = 0 ∧ kindBits kind &&& asymPauseBit = 0 := by
  intro kind hk
  cases kind with
  | rate => decide
  | medium => decide
  | autoNegotiate => decide
  | pause => exact absurd rfl hk

/-- The added pause is compared with misspelled texts, so nothing happens. -/
theorem asShown_pause (h : text = "symmetric" ∨ text = "asymmetric") :
    AsShown .pause text mask (addAdvert "pause" (some text) mask)
      (delAdvert "pause" (some text) mask) ↔ Workable .pause text mask := by
  have hadd : addAdvert "pause" (some text) mask = mask := by
    rcases h with rfl | rfl <;> rfl
  have hdel : delAdvert "pause" (some text) mask = (mask &&& ~~~pauseBit) &&& ~~~asymPauseBit := rfl
  have hothers : ∀ k, k ≠ .pause →
      shownTexts ((mask &&& ~~~pauseBit) &&& ~~~asymPauseBit) k = shownTexts mask k :=
        fun k hk => by
    rw [shownTexts_clear (kindBits_pause k hk).2, shownTexts_clear (kindBits_pause k hk).1]
  have hunsupported : pauseText ((mask &&& ~~~pauseBit) &&& ~~~asymPauseBit) = "unsupported" := by
    have hasym : ¬ Has ((mask &&& ~~~pauseBit) &&& ~~~asymPauseBit) asymPauseBit :=
      not_has_clear _ _
    have hsym : ¬ Has ((mask &&& ~~~pauseBit) &&& ~~~asymPauseBit) pauseBit := by
      rw [has_clear_of_disjoint (by decide)]
      exact not_has_clear _ _
    exact (if_neg hasym).trans (if_neg hsym)
  rw [hadd, hdel]
  constructor
  · intro hs
    exact ⟨(noneTwice_iff mask).mp hs.once.1, nofun, fun _ => List.head_eq_of_cons_eq hs.shown⟩
  · intro hw
    have hbefore := (noneTwice_iff mask).mpr hw.single
    refine ⟨by rw [ShownAs, shownTexts, hw.pause rfl], fun _ => ?_, fun k hk => ⟨rfl, hothers k hk⟩,
      hbefore, hbefore, noneTwice_of_rates (hothers .rate (by decide)) hw.single⟩
    rw [shownTexts, hunsupported]
    rcases h with rfl | rfl <;> decide

/-! ### The functions -/

/-- An element of `advertised`. -/
def featureNode (kind : FeatureKind) (text : String) : Node :=
  elem kind.name none [txt text]

variable {env : Env} {port : String}

/-- `txn_add_port_advert` on a device of the system. -/
theorem txnAddPortAdvert_run (hsys : env.isSystem port = true) (kind : FeatureKind) (text : String)
    (w : Work) :
    (txnAddPortAdvert env (some port) (featureNode kind text) w).1 = .ok () ∧
    (txnAddPortAdvert env (some port) (featureNode kind text) w).2.advertising port =
      addAdvert kind.name (some text) (w.advertising port) := by
  have htext : advertText false (featureNode kind text) w = (.ok (some text), w) := by
    cases kind <;> rfl
  have hname : (featureNode kind text).label.name = kind.name := rfl
  simp only [txnAddPortAdvert, modPortAdvert, argument, Prog.ofOption, Prog.bind_run, Prog.ret_run,
    hsys, Bool.not_true, Bool.false_eq_true, if_false, htext, Prog.read_run, setAdvertising,
    Prog.update_run, hname, if_true, and_self]

/-- `txn_del_port_advert` on a device of the system. -/
theorem txnDelPortAdvert_run (hsys : env.isSystem port = true) (kind : FeatureKind) (text : String)
    (w : Work) :
    (txnDelPortAdvert env (some port) (featureNode kind text) w).1 = .ok () ∧
    (txnDelPortAdvert env (some port) (featureNode kind text) w).2.advertising port =
      delAdvert kind.name (some text) (w.advertising port) := by
  have htext : ∃ o, advertText true (featureNode kind text) w = (.ok o, w) ∧
      delAdvert kind.name o (w.advertising port) =
        delAdvert kind.name (some text) (w.advertising port) := by
    cases kind
    · exact ⟨some text, rfl, rfl⟩
    · exact ⟨some text, rfl, rfl⟩
    · exact ⟨none, rfl, rfl⟩
    · exact ⟨none, rfl, rfl⟩
  obtain ⟨o, hrun, hmask⟩ := htext
  have hname : (featureNode kind text).label.name = kind.name := rfl
  simp only [txnDelPortAdvert, modPortAdvert, argument, Prog.ofOption, Prog.bind_run, Prog.ret_run,
    hsys, Bool.not_true, Bool.false_eq_true, if_false, hrun, Prog.read_run, setAdvertising,
    Prog.update_run, hname, if_true, hmask, and_self]

/-- An element that is added is shown, one that is removed is not, the
elements of other kinds stay, and no rate or medium is shown twice, if and
only if the mask and the element are workable. -/
theorem features_as_shown_iff (hsys : env.isSystem port = true) {kind : FeatureKind}
    (h : Expressible kind text) (w : Work) :
    AsShown kind text (w.advertising port)
      ((txnAddPortAdvert env (some port) (featureNode kind text) w).2.advertising port)
      ((txnDelPortAdvert env (some port) (featureNode kind text) w).2.advertising port) ↔
    Workable kind text (w.advertising port) := by
  rw [(txnAddPortAdvert_run hsys kind text w).2, (txnDelPortAdvert_run hsys kind text w).2]
  cases kind with
  | rate => exact asShown_rate h
  | medium => exact asShown_medium h
  | autoNegotiate => exact asShown_autoNegotiate h
  | pause => exact asShown_pause h

/-- A system whose only device advertises the given features. -/
def advertises (mask : BitVec 32) : Work := { advertising := fun _ => mask }

/-- An environment in which every device is one of the system. -/
def systemEnv : Env := { grantingEnv with isSystem := fun _ => true }

/-- A rate with one bit, added to a mask without rates. -/
theorem features_as_shown_10Mb :
    AsShown .rate "10Mb-HD" 0
      ((txnAddPortAdvert systemEnv (some "eth0") (featureNode .rate "10Mb-HD")
        (advertises 0)).2.advertising "eth0")
      ((txnDelPortAdvert systemEnv (some "eth0") (featureNode .rate "10Mb-HD")
        (advertises 0)).2.advertising "eth0") := by
  have hnone (b : BitVec 32) : ¬ Has 0 b := by simp [Has]
  have hrate : Expressible .rate "10Mb-HD" := by
    show "10Mb-HD" ∈ rates.map Prod.snd
    decide
  exact (features_as_shown_iff rfl hrate (advertises 0)).mpr
    ⟨fun e _ _ _ _ hh _ => absurd hh (hnone e.1), fun _ _ _ e _ _ hh => absurd hh (hnone e.1),
      nofun⟩

/-- A symmetric pause is not added; a rate with two bits is listed twice and
is still listed when it was removed. -/
theorem features_not_as_shown :
    pauseText ((txnAddPortAdvert systemEnv (some "eth0") (featureNode .pause "symmetric")
      (advertises 0)).2.advertising "eth0") = "unsupported" ∧
    maskTexts rates (bit 5 ||| bit 17) = ["1Gb-FD", "1Gb-FD"] ∧
    maskTexts rates ((txnDelPortAdvert systemEnv (some "eth0") (featureNode .rate "1Gb-FD")
      (advertises (bit 5 ||| bit 17))).2.advertising "eth0") = ["1Gb-FD"] := by
  decide

end OfConfig.Proofs
