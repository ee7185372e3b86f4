import OfConfig.Proofs.Identity
import OfConfig.Proofs.Rollback
import OfConfig.Proofs.Termination

/-!
# `OfConfig.Proofs.Instances`: the entries that a delete takes off

`find_element_equiv` goes down level by level and takes the first sibling that
`matching_elements` does not tell apart. `InstanceAt` is the way down along the
nodes that the edit element and its ancestors really name.

* `lookup_sound_iff`: the lookup of an element and of its ancestors is sound if
  and only if at every level no confusable sibling stands before the true
  instance (`ClearAt`).
* `deleteRound_unlinks`: the delete and remove loops look up again after each
  delete, so that a confusable sibling behind the instance is reached as well;
  the replace looks the parent up again to create the new entry.
* `find_sound_iff`: these lookups are sound if and only if the levels are clear
  also when true instances of the element have been taken off (`Stripped`).
-/

set_option autoImplicit false

namespace OfConfig.Proofs

open OfConfig.Lib OfConfig.Xml OfConfig.Edit

variable {chain : List Node} {e : Node} {orig : Doc} {running : Bool}

/-! ### The lookup level by level -/

/-- The nodes among which the next level is searched: the children of the
innermost node found, or the top of the document. -/
def childrenOf (orig : Doc) : List Node → List Node
  | [] => orig
  | g :: _ => g.children

/-- What `find_element_equiv` finds, with its position and its ancestors. The
parent of the root is the document, which is always found. -/
def foundAt (orig : Doc) : List Node → Option (Loc × List Node)
  | [] => some ([], [])
  | e :: anc => (findElementEquiv orig (e :: anc)).map (fun f => (f.loc, f.node :: f.anc))

/-- One level of the recursion. -/
theorem foundAt_cons (orig : Doc) (e : Node) (anc : List Node) :
    foundAt orig (e :: anc) =
      (foundAt orig anc).bind (fun g =>
        (findMatch e g.2 0 (childrenOf orig g.2)).map (fun p => (g.1 ++ [p.1], p.2 :: g.2))) := by
  cases anc with
  | nil =>
    simp only [foundAt, findElementEquiv, Option.map_map, Option.bind_some, childrenOf]
    rfl
  | cons p anc =>
    simp only [foundAt, findElementEquiv]
    cases findElementEquiv orig (p :: anc) with
    | none => rfl
    | some f => simp [childrenOf, Function.comp_def]

/-- The same instance, and `matching_elements` sees it. -/
def Recognised (e n : Node) (anc : List Node) : Prop := Matches e n anc ∧ SameInstance e n anc

/-- The true instances of an edit node and its ancestors, with the position of
the innermost: at every level the first one that is recognised. -/
inductive InstanceAt (orig : Doc) : List Node → Loc → List Node → Prop
  | top : InstanceAt orig [] [] []
  | child {e n : Node} {anc ganc pre post : List Node} {l : Loc} (hanc : InstanceAt orig anc l ganc)
      (hsplit : childrenOf orig ganc = pre ++ n :: post) (hn : Recognised e n ganc)
      (hbefore : ∀ m ∈ pre, ¬ Recognised e m ganc) :
      InstanceAt orig (e :: anc) (l ++ [pre.length]) (n :: ganc)

/-- Among the nodes where `e` is searched, no confusable one stands
before a true instance. -/
def ClearAt (orig : Doc) (e : Node) (anc : List Node) : Prop :=
  ∀ l ganc, InstanceAt orig anc l ganc → ∀ pre m post,
    childrenOf orig ganc = pre ++ m :: post → Confusable e m ganc → ∃ n ∈ pre, Recognised e n ganc

/-- All levels of a chain are clear. -/
def Clear (orig : Doc) (chain : List Node) : Prop :=
  ∀ e anc, e :: anc <:+ chain → ClearAt orig e anc

/-- What is found for an edit node is the instance it names, and so on
up to the root. -/
def LookupSound (orig : Doc) (chain : List Node) : Prop :=
  ∀ f, findElementEquiv orig chain = some f → SameInstances chain (f.node :: f.anc)

/-- The lookups of an edit node and of its ancestors are sound. -/
def LookupsSound (orig : Doc) (chain : List Node) : Prop :=
  ∀ c, c <:+ chain → LookupSound orig c

theorem InstanceAt.sameInstances {found : List Node} {l : Loc} (h : InstanceAt orig chain l found) :
    SameInstances chain found := by
  induction h with
  | top => trivial
  | child hanc hsplit hn hbefore ih => exact ⟨hn.2, ih⟩

/-- On a level that is clear the search stops at the first true
instance. -/
theorem findMatch_iff_first {n : Node} {ganc ns : List Node} {k : Nat}
    (hclear : ∀ pre m post, ns = pre ++ m :: post → Confusable e m ganc →
      ∃ n ∈ pre, Recognised e n ganc) :
    findMatch e ganc 0 ns = some (k, n) ↔ ∃ pre post, ns = pre ++ n :: post ∧ pre.length = k ∧
      Recognised e n ganc ∧ ∀ m ∈ pre, ¬ Recognised e m ganc := by
  constructor
  · intro hk
    obtain ⟨j, rfl, hj, hm, hbefore⟩ := findMatch_some hk
    have hsplit := (Rose.take_append_drop_of_getElem? hj).symm
    have hno : ∀ m ∈ ns.take j, ¬ Recognised e m ganc := fun m hmem hrec =>
      hrec.1 (hbefore m hmem)
    have hlen : (ns.take j).length = 0 + j := by
      obtain ⟨hlt, -⟩ := List.getElem?_eq_some_iff.mp hj
      rw [List.length_take]
      omega
    refine ⟨_, _, hsplit, hlen, ⟨hm, ?_⟩, hno⟩
    by_contra hs
    obtain ⟨n', hmem, hrec⟩ := hclear _ n _ hsplit ((confusable_iff e n ganc).mpr ⟨hm, hs⟩)
    exact hno n' hmem hrec
  · rintro ⟨pre, post, rfl, rfl, hrec, hno⟩
    have hget : (pre ++ n :: post)[pre.length]? = some n := by simp
    rw [← Nat.zero_add pre.length]
    refine findMatch_of_first 0 hget hrec.1 (fun m hmem => ?_)
    rw [List.take_left] at hmem
    by_contra hm
    obtain ⟨p1, p2, rfl⟩ := List.append_of_mem hmem
    have hs : ¬ SameInstance e m ganc := fun hs => hno m (by simp) ⟨hm, hs⟩
    obtain ⟨n', hmem', hrec'⟩ := hclear p1 m (p2 ++ n :: post) (by simp)
      ((confusable_iff e m ganc).mpr ⟨hm, hs⟩)
    exact hno n' (by simp [hmem']) hrec'

theorem Clear.parent {anc : List Node} (h : Clear orig (e :: anc)) : Clear orig anc :=
  fun e' anc' hsuf => h e' anc' (hsuf.trans (List.suffix_cons e anc))

/-- Where all levels are clear the lookup follows the true instances. -/
theorem foundAt_iff_instanceAt (hclear : Clear orig chain) (l : Loc) (found : List Node) :
    foundAt orig chain = some (l, found) ↔ InstanceAt orig chain l found := by
  induction chain generalizing l found with
  | nil =>
    constructor
    · intro h
      cases h
      exact .top
    · rintro ⟨⟩
      rfl
  | cons e anc ih =>
    have hlevel := hclear e anc (List.suffix_refl _)
    rw [foundAt_cons, Option.bind_eq_some_iff]
    constructor
    · rintro ⟨⟨l₀, ganc⟩, hganc, hfound⟩
      obtain ⟨⟨k, n⟩, hk, heq⟩ := Option.map_eq_some_iff.mp hfound
      cases heq
      have hinst := (ih hclear.parent l₀ ganc).mp hganc
      obtain ⟨pre, post, hsplit, rfl, hn, hbefore⟩ :=
        (findMatch_iff_first (hlevel l₀ ganc hinst)).mp hk
      exact .child hinst hsplit hn hbefore
    · intro h
      cases h with
      | @child _ n _ ganc pre post l₀ hinst hsplit hn hbefore =>
        have hk := (findMatch_iff_first (hlevel l₀ ganc hinst)).mpr
          ⟨pre, post, hsplit, rfl, hn, hbefore⟩
        exact ⟨(l₀, ganc), (ih hclear.parent l₀ ganc).mpr hinst, by rw [hk]; rfl⟩

/-- A lookup that is sound for an element leaves no confusable node in
front. -/
theorem LookupSound.clear {anc : List Node} (hsound : LookupSound orig (e :: anc))
    (hanc : Clear orig anc) : ClearAt orig e anc := by
  intro l ganc hinst pre m post hsplit hconf
  by_contra hno
  have hno' : ∀ n ∈ pre, ¬ Recognised e n ganc := fun n hn hrec => hno ⟨n, hn, hrec⟩
  obtain ⟨hm, hs⟩ := (confusable_iff e m ganc).mp hconf
  -- `m` matches, so something is found, at `m` or before it
  have hne : findMatch e ganc 0 (childrenOf orig ganc) ≠ none := fun hnone =>
    hm ((findMatch_eq_none_iff _ _ _ _).mp hnone m (by simp [hsplit]))
  obtain ⟨⟨k, x⟩, hk⟩ := Option.ne_none_iff_exists'.mp hne
  obtain ⟨j, -, hj, hmx, hbefore⟩ := findMatch_some hk
  have hsame : SameInstance e x ganc := by
    have hfound : foundAt orig (e :: anc) = some (l ++ [k], x :: ganc) := by
      rw [foundAt_cons, (foundAt_iff_instanceAt hanc l ganc).mpr hinst, Option.bind_some, hk]
      rfl
    obtain ⟨f, hf, hfx⟩ := Option.map_eq_some_iff.mp hfound
    obtain ⟨-, hfx⟩ := Prod.mk.inj hfx
    have hboth := hsound f hf
    rw [hfx] at hboth
    exact hboth.1
  rw [hsplit] at hj hbefore
  rcases Nat.lt_trichotomy j pre.length with hlt | heq | hgt
  · rw [List.getElem?_append_left hlt] at hj
    exact hno' x (List.mem_of_getElem? hj) ⟨hmx, hsame⟩
  · obtain rfl : m = x := by simpa [heq] using hj
    exact hs hsame
  · refine hm (hbefore m ?_)
    rw [List.take_append]
    obtain ⟨d, hd⟩ : ∃ d, j - pre.length = d + 1 := ⟨j - pre.length - 1, by omega⟩
    simp [hd]

/-- The lookup of an edit node and of its ancestors is sound if and only
if at every level no confusable node stands before the true instance. -/
theorem lookup_sound_iff (orig : Doc) (chain : List Node) :
    LookupsSound orig chain ↔ Clear orig chain := by
  constructor
  · induction chain with
    | nil =>
      intro _ e anc h
      simp at h
    | cons e anc ih =>
      intro hsound
      have hanc := ih (fun c h => hsound c (h.trans (List.suffix_cons e anc)))
      intro e' anc' h
      rcases List.suffix_cons_iff.mp h with heq | h
      · cases heq
        exact (hsound _ h).clear hanc
      · exact hanc e' anc' h
  · intro hclear c hc f hf
    have hclear' : Clear orig c := fun e anc h => hclear e anc (h.trans hc)
    cases c with
    | nil => simp [findElementEquiv] at hf
    | cons e anc =>
      have hfound : foundAt orig (e :: anc) = some (f.loc, f.node :: f.anc) := by
        rw [foundAt, hf]
        rfl
      exact ((foundAt_iff_instanceAt hclear' _ _).mp hfound).sameInstances

/-! ### The loops that delete -/

variable {σ : Type}

/-- A successful `edit_delete` on what was found unlinks it, unless it is the root
of the running configuration, which stays. -/
theorem editDeleteAt_success {B : Backend σ} {D D' : Doc} {s s' : σ} {f : Found}
    (hf : findElementEquiv D chain = some f)
    (hdel : editDeleteAt running B f.loc D s = (.success, D', s')) :
    D' = Rose.unlink f.loc D ∨ D' = D := by
  cases running with
  | false =>
    obtain ⟨rfl, -⟩ : Rose.unlink f.loc D = D' ∧ s = s' := by simpa using hdel
    exact .inl rfl
  | true =>
    obtain ⟨ctx, hfoc, -⟩ := find_focus hf
    simp only [editDeleteAt, if_true, hfoc, Prod.mk.injEq, Reply.outcome_eq_success] at hdel
    obtain ⟨hout, rfl, -⟩ := hdel
    by_cases hctx : ctx = []
    · subst hctx
      cases he : f.node.label.isElement with
      | true =>
        rw [editDelete_root B s he]
        exact .inr (Rose.modify_self (Rose.get?_of_focus? hfoc))
      | false =>
        rw [editDelete_other B [] s he]
        exact .inl rfl
    · rw [editDelete_left hctx hout]
      exact .inl rfl

/-- A round that goes on has looked the element up and unlinked what it found,
unless that is the root of the running configuration. -/
theorem deleteRound_unlinks {B : Backend σ} {st st' : Doc × σ}
    (h : deleteRound running B chain st = .again st') :
    ∃ f, findElementEquiv st.1 chain = some f ∧
      (st'.1 = Rose.unlink f.loc st.1 ∨ st'.1 = st.1) := by
  simp only [deleteRound] at h
  split at h
  · simp at h
  · next f hf =>
      split at h
      · next D' s' hdel =>
          cases h
          exact ⟨f, hf, editDeleteAt_success hf hdel⟩
      · simp at h

/-- Whatever the delete and remove loops of an edit node look up, on its way to
the end and with any backend, is the instance that is named. The delete of a
replace is one round of such a loop, and its create looks up the ancestors. -/
def DeletesSound (orig : Doc) (chain : List Node) : Prop :=
  ∀ (σ : Type) (running : Bool) (B : Backend σ) (s : σ) (D : Doc) (s' : σ),
    Loop.Reaches (deleteRound running B chain) (orig, s) (D, s') → LookupsSound D chain

/-- The document after some true instances of an edit node were taken off, one
after the other. -/
inductive Stripped (chain : List Node) (orig : Doc) : Doc → Prop
  | start : Stripped chain orig orig
  | next {D : Doc} {l : Loc} {n : Node} {ganc : List Node} (h : Stripped chain orig D)
      (hinst : InstanceAt D chain l (n :: ganc)) : Stripped chain orig (Rose.unlink l D)

/-- Where the lookups are sound, the loops take off true instances only. -/
theorem stripped_of_reaches (hclear : ∀ D, Stripped chain orig D → Clear D chain) {B : Backend σ}
    {s : σ} {st : Doc × σ} (h : Loop.Reaches (deleteRound running B chain) (orig, s) st) :
    Stripped chain orig st.1 := by
  induction h with
  | start => exact .start
  | @again t t' _ hround ih =>
    obtain ⟨f, hf, hnext⟩ := deleteRound_unlinks hround
    rcases hnext with hunlink | hsame
    · have hfound : foundAt t.1 chain = some (f.loc, f.node :: f.anc) := by
        cases chain with
        | nil => simp [findElementEquiv] at hf
        | cons e anc => rw [foundAt, hf]; rfl
      rw [hunlink]
      exact .next ih ((foundAt_iff_instanceAt (hclear _ ih) _ _).mp hfound)
    · rwa [hsame]

/-- On a local datastore the loop comes to every document that is left when true
instances are taken off. -/
theorem reaches_of_stripped {B : Backend σ} {s : σ}
    (hsound : ∀ D s', Loop.Reaches (deleteRound false B chain) (orig, s) (D, s') →
      LookupsSound D chain)
    {D : Doc} (h : Stripped chain orig D) :
    Loop.Reaches (deleteRound false B chain) (orig, s) (D, s) := by
  induction h with
  | start => exact .start
  | @next D l n ganc _ hinst ih =>
    have hfound := (foundAt_iff_instanceAt ((lookup_sound_iff D chain).mp (hsound D s ih)) _ _).mpr
      hinst
    cases chain with
    | nil => simp [foundAt] at hfound
    | cons e anc =>
      obtain ⟨f, hf, hfl⟩ := Option.map_eq_some_iff.mp hfound
      obtain ⟨rfl, -⟩ := Prod.mk.inj hfl
      exact .again ih (by simp only [deleteRound, hf, editDeleteAt_xml])

/-- The loops are sound if and only if the levels are clear while true instances
are taken off. -/
theorem deletes_sound_iff (orig : Doc) (chain : List Node) :
    DeletesSound orig chain ↔ ∀ D, Stripped chain orig D → Clear D chain := by
  constructor
  · intro hsound D hD
    have hlocal := hsound Unit false idleBackend ()
    have hreach := reaches_of_stripped (fun D s' => hlocal D s') hD
    exact (lookup_sound_iff D chain).mp (hlocal D () hreach)
  · intro hclear σ running B s D s' hreach
    exact (lookup_sound_iff D chain).mpr (hclear D (stripped_of_reaches hclear hreach))

end OfConfig.Proofs
