import Mathlib.Data.List.Infix

/-!
# `OfConfig.Lib.Markup`: reading XML that was put together from formats

A parser for XML documents without a document type (`document`), and
documents written with formats such as `<%s>%s</%s>`, which put values
between tags as they are (`Element.raw`).

The parser follows the grammar of XML 1.0 for names, character data,
references, line ends and the nesting of elements. Attributes, and comments,
CDATA sections and processing instructions, are read by a `Dialect`; the
results hold for all of them. `xml10` is one.

* `decode_eq_self_iff`: which character data is read as it is written.
* `readableAll_of_content`, `content_of_readableAll`: the parser gives back what
  was written if and only if it is readable.
* `document_raw_iff`: the same for a document.
-/

set_option autoImplicit false

namespace OfConfig.Lib.Markup

/-! ### Characters -/

/-- Is the code of the character in one of the ranges? -/
def inRanges (rs : List (Nat × Nat)) (c : Char) : Bool :=
  rs.any (fun r => r.1 ≤ c.toNat && c.toNat ≤ r.2)

/-- `Char` -/
def isChar (c : Char) : Bool :=
  inRanges [(0x9, 0xA), (0xD, 0xD), (0x20, 0xD7FF), (0xE000, 0xFFFD), (0x10000, 0x10FFFF)] c

/-- `S` -/
def isSpace (c : Char) : Bool := inRanges [(0x9, 0xA), (0xD, 0xD), (0x20, 0x20)] c

/-- `NameStartChar` -/
def isNameStart (c : Char) : Bool :=
  inRanges [(0x3A, 0x3A), (0x41, 0x5A), (0x5F, 0x5F), (0x61, 0x7A), (0xC0, 0xD6), (0xD8, 0xF6),
    (0xF8, 0x2FF), (0x370, 0x37D), (0x37F, 0x1FFF), (0x200C, 0x200D), (0x2070, 0x218F),
    (0x2C00, 0x2FEF), (0x3001, 0xD7FF), (0xF900, 0xFDCF), (0xFDF0, 0xFFFD), (0x10000, 0xEFFFF)] c

/-- `NameChar` -/
def isNameChar (c : Char) : Bool :=
  isNameStart c || inRanges [(0x2D, 0x2E), (0x30, 0x39), (0xB7, 0xB7), (0x300, 0x36F),
    (0x203F, 0x2040)] c

/-- `Name` -/
structure IsName (n : List Char) : Prop where
  start : n.head?.any isNameStart = true
  rest : n.all isNameChar = true

instance (n : List Char) : Decidable (IsName n) :=
  decidable_of_iff (n.head?.any isNameStart = true ∧ n.all isNameChar = true)
    ⟨fun h => ⟨h.1, h.2⟩, fun h => ⟨h.start, h.rest⟩⟩

/-- Read a name. -/
def name (cs : List Char) : Option (List Char × List Char) :=
  if cs.head?.any isNameStart then some (cs.takeWhile isNameChar, cs.dropWhile isNameChar) else none

theorem isNameChar_of_start {c : Char} (h : isNameStart c = true) : isNameChar c = true := by
  simp [isNameChar, h]

/-- What is read is a name, and the longest one. -/
theorem name_eq_some {cs n r : List Char} (h : name cs = some (n, r)) : IsName n ∧ cs = n ++ r := by
  unfold name at h
  split at h
  · next hstart =>
      obtain ⟨rfl, rfl⟩ := Prod.mk.inj (Option.some.inj h)
      refine ⟨⟨?_, List.all_takeWhile⟩, List.takeWhile_append_dropWhile.symm⟩
      cases cs with
      | nil => cases hstart
      | cons c cs =>
        have hc : isNameStart c = true := hstart
        rw [List.takeWhile_cons_of_pos (isNameChar_of_start hc)]
        exact hc
  · cases h

theorem name_append {n r : List Char} (hn : IsName n) (hr : ∀ c ∈ r.head?, isNameChar c = false) :
    name (n ++ r) = some (n, r) := by
  have hall : ∀ c ∈ n, isNameChar c = true := List.all_eq_true.mp hn.rest
  have htake : r.takeWhile isNameChar = [] ∧ r.dropWhile isNameChar = r := by
    cases r with
    | nil => exact ⟨rfl, rfl⟩
    | cons c r =>
      have hc := hr c rfl
      exact ⟨List.takeWhile_cons_of_neg (by simp [hc]), List.dropWhile_cons_of_neg (by simp [hc])⟩
  have hstart : (n ++ r).head?.any isNameStart = true := by
    cases n with
    | nil => exact absurd hn.start (by simp)
    | cons c n => exact hn.start
  rw [name, if_pos hstart, List.takeWhile_append_of_pos hall, List.dropWhile_append_of_pos hall,
    htake.1, htake.2, List.append_nil]

/-! ### Character data -/

/-- The value of digits. -/
def number (base : Nat) (ds : List Char) : Option Nat :=
  ds.foldl (fun acc c => do
    let n ← acc
    let d ← if '0' ≤ c ∧ c ≤ '9' then some (c.toNat - 48)
      else if 'a' ≤ c ∧ c ≤ 'f' then some (c.toNat - 87)
      else if 'A' ≤ c ∧ c ≤ 'F' then some (c.toNat - 55)
      else none
    if d < base then some (base * n + d) else none) (if ds = [] then none else some 0)

/-- The character of a reference. Without a document type there are no other
entities. -/
def reference (body : List Char) : Option Char :=
  if body = "lt".toList then some '<'
  else if body = "gt".toList then some '>'
  else if body = "amp".toList then some '&'
  else if body = "quot".toList then some '"'
  else if body = "apos".toList then some (Char.ofNat 39)
  else do
    let n ← match body with
      | '#' :: 'x' :: ds => number 16 ds
      | '#' :: ds => number 10 ds
      | _ => none
    let c := Char.ofNat n
    if c.toNat = n ∧ isChar c then some c else none

/-- Character data up to the next tag. The first argument holds the
characters of a reference that is not yet complete. A carriage return is read
as the end of a line. -/
def decodeFrom : Option (List Char) → List Char → Option (List Char)
  | none, [] => some []
  | some _, [] => none
  | some ref, c :: cs =>
    if c = ';' then do
      let d ← reference ref.reverse
      (decodeFrom none cs).map (d :: ·)
    else decodeFrom (some (c :: ref)) cs
  | none, c :: cs =>
    if c = '&' then decodeFrom (some []) cs
    else if c = '\r' then
      if cs.head? = some '\n' then decodeFrom none cs else (decodeFrom none cs).map ('\n' :: ·)
    else if isChar c = true ∧ ¬ "]]>".toList <+: c :: cs then (decodeFrom none cs).map (c :: ·)
    else none

/-- Character data. -/
def decode (cs : List Char) : Option (List Char) := decodeFrom none cs

/-- Character data that stands for itself. -/
structure Plain (cs : List Char) : Prop where
  chars : ∀ c ∈ cs, isChar c = true ∧ c ≠ '<' ∧ c ≠ '&' ∧ c ≠ '\r'
  noEnd : ¬ "]]>".toList <:+: cs

theorem plain_iff (cs : List Char) :
    cs.all (fun c => isChar c && c ≠ '<' && c ≠ '&' && c ≠ '\r') = true ∧ ¬ "]]>".toList <:+: cs ↔
      Plain cs :=
  ⟨fun h => ⟨by simpa [and_assoc] using h.1, h.2⟩,
   fun h => ⟨by simpa [and_assoc] using h.chars, h.noEnd⟩⟩

instance (cs : List Char) : Decidable (Plain cs) := decidable_of_iff _ (plain_iff cs)

/-- Reading does not make a text longer. -/
theorem length_decodeFrom {ref : Option (List Char)} {cs t : List Char}
    (h : decodeFrom ref cs = some t) : t.length ≤ cs.length := by
  induction cs generalizing ref t with
  | nil =>
    cases ref with
    | none =>
      obtain rfl := Option.some.inj h
      exact Nat.le_refl _
    | some _ => cases h
  | cons c cs ih =>
    have hmap : ∀ {d : Char}, (decodeFrom none cs).map (d :: ·) = some t →
        t.length ≤ (c :: cs).length := by
      intro d hd
      obtain ⟨t', ht', rfl⟩ := Option.map_eq_some_iff.mp hd
      exact Nat.succ_le_succ (ih ht')
    have hrest : ∀ {ref'}, decodeFrom ref' cs = some t → t.length ≤ (c :: cs).length :=
      fun h' => Nat.le_succ_of_le (ih h')
    cases ref with
    | some ref =>
      rw [decodeFrom] at h
      split at h
      · obtain ⟨d, -, hd⟩ := Option.bind_eq_some_iff.mp h
        exact hmap hd
      · exact hrest h
    | none =>
      rw [decodeFrom] at h
      split at h
      · exact hrest h
      · split at h
        · split at h
          · exact hrest h
          · exact hmap h
        · split at h
          · exact hmap h
          · cases h

/-- Character data without tags is read as it is written if and only if it is
plain. -/
theorem decode_eq_self_iff {cs : List Char} (hlt : '<' ∉ cs) : decode cs = some cs ↔ Plain cs := by
  unfold decode
  induction cs with
  | nil => exact ⟨fun _ => ⟨by simp, by simp⟩, fun _ => rfl⟩
  | cons c cs ih =>
    have hlt' : '<' ∉ cs := fun h => hlt (List.mem_cons_of_mem _ h)
    have hc : c ≠ '<' := fun h => hlt (h ▸ List.mem_cons_self)
    have hshort : ∀ {ref}, decodeFrom ref cs ≠ some (c :: cs) := fun h =>
      absurd (length_decodeFrom h) (by simp)
    rw [decodeFrom]
    constructor
    · intro h
      split at h
      · exact absurd h hshort
      · next hamp =>
        split at h
        · next hcr =>
          split at h
          · exact absurd h hshort
          · obtain ⟨t, -, ht⟩ := Option.map_eq_some_iff.mp h
            exact absurd (List.cons.inj ht).1 (by rw [hcr]; decide)
        · next hcr =>
          split at h
          · next hok =>
            obtain ⟨t, ht, heq⟩ := Option.map_eq_some_iff.mp h
            rw [(List.cons.inj heq).2] at ht
            have hplain := (ih hlt').mp ht
            refine ⟨fun d hd => ?_, fun hinf => ?_⟩
            · rcases List.mem_cons.mp hd with rfl | hd
              · exact ⟨hok.1, hc, hamp, hcr⟩
              · exact hplain.chars d hd
            · rcases List.infix_cons_iff.mp hinf with hpre | hinf
              · exact hok.2 hpre
              · exact hplain.noEnd hinf
          · cases h
    · intro h
      obtain ⟨hchar, -, hamp, hcr⟩ := h.chars c (by simp)
      have hrest : Plain cs := ⟨fun d hd => h.chars d (by simp [hd]),
        fun hinf => h.noEnd (List.infix_cons hinf)⟩
      rw [if_neg hamp, if_neg hcr, if_pos ⟨hchar, fun hpre => h.noEnd hpre.isInfix⟩,
        (ih hlt').mpr hrest]
      rfl

/-! ### Documents -/

/-- How attributes, and comments, CDATA sections and processing instructions,
are read. Before the end of a tag there are no attributes. -/
structure Dialect where
  Attrs : Type
  Misc : Type
  attrs : List Char → Option (Attrs × List Char)
  misc : List Char → Option (Misc × List Char)
  noAttrs : Attrs
  attrs_end : ∀ r, attrs ('>' :: r) = some (noAttrs, '>' :: r)

/-- A node of a document. -/
inductive Item (A M : Type) where
  | elem (name : List Char) (attrs : A) (children : List (Item A M))
  | text (cs : List Char)
  | misc (m : M)

/-- An end tag of the given name. -/
def endTag (n : List Char) (cs : List Char) : Option (List Char) :=
  match cs with
  | '<' :: '/' :: r => do
      let (n', r') ← name r
      if n' = n then
        match r'.dropWhile isSpace with
        | '>' :: rest => some rest
        | _ => none
      else none
  | _ => none

/-- The rest of an element after its attributes: an empty one, or content and
an end tag. -/
def elementRest {A M : Type} (inner : List Char → Option (List (Item A M) × List Char))
    (n : List Char) (cs : List Char) : Option (List (Item A M) × List Char) :=
  match cs.dropWhile isSpace with
  | '>' :: r => do
      let (children, r₁) ← inner r
      let r₂ ← endTag n r₁
      some (children, r₂)
  | '/' :: '>' :: r => some ([], r)
  | _ => none

/-- `content`, up to an end tag or the end of the input. The first argument
bounds the depth of the recursion. -/
def content (D : Dialect) : Nat → List Char → Option (List (Item D.Attrs D.Misc) × List Char)
  | 0, _ => none
  | _ + 1, [] => some ([], [])
  | fuel + 1, c :: cs =>
    if c = '<' then
      if cs.head? = some '/' then some ([], c :: cs)
      else if cs.head? = some '!' ∨ cs.head? = some '?' then do
        let (m, r₁) ← D.misc (c :: cs)
        let (items, r) ← content D fuel r₁
        some (.misc m :: items, r)
      else do
        let (n, r₁) ← name cs
        let (a, r₂) ← D.attrs r₁
        let (children, r₃) ← elementRest (content D fuel) n r₂
        let (items, r) ← content D fuel r₃
        some (.elem n a children :: items, r)
    else do
      let t ← decode ((c :: cs).takeWhile (· ≠ '<'))
      let (items, r) ← content D fuel ((c :: cs).dropWhile (· ≠ '<'))
      some (.text t :: items, r)

section Content

variable {D : Dialect} {fuel : Nat} {cs r : List Char}
  {items : List (Item D.Attrs D.Misc)}

/-- An end tag ends the content. -/
theorem content_stop (D : Dialect) (fuel : Nat) (cs : List Char) :
    content D (fuel + 1) ('<' :: '/' :: cs) = some ([], '<' :: '/' :: cs) := by
  rw [content, if_pos rfl, if_pos List.head?_cons]

theorem not_start {c : Char} (h : c = '/' ∨ c = '!' ∨ c = '?') : isNameStart c = false := by
  rcases h with rfl | rfl | rfl <;> decide

/-- Content that begins with an element. -/
theorem content_elem_iff {n : List Char} {a : D.Attrs} {children : List (Item D.Attrs D.Misc)} :
    content D (fuel + 1) ('<' :: cs) = some (.elem n a children :: items, r) ↔
      ∃ r₁ r₂ r₃, name cs = some (n, r₁) ∧ D.attrs r₁ = some (a, r₂) ∧
        elementRest (content D fuel) n r₂ = some (children, r₃) ∧
        content D fuel r₃ = some (items, r) := by
  rw [content, if_pos rfl]
  constructor
  · intro h
    split at h
    · cases h
    · split at h
      · obtain ⟨m, -, h'⟩ := Option.bind_eq_some_iff.mp h
        obtain ⟨is, -, h''⟩ := Option.bind_eq_some_iff.mp h'
        cases h''
      · obtain ⟨⟨n', r₁⟩, hn, h⟩ := Option.bind_eq_some_iff.mp h
        obtain ⟨⟨a', r₂⟩, ha, h⟩ := Option.bind_eq_some_iff.mp h
        obtain ⟨⟨ch, r₃⟩, hch, h⟩ := Option.bind_eq_some_iff.mp h
        obtain ⟨⟨is, r₄⟩, his, h⟩ := Option.bind_eq_some_iff.mp h
        cases h
        exact ⟨r₁, r₂, r₃, hn, ha, hch, his⟩
  · rintro ⟨r₁, r₂, r₃, hn, ha, hch, his⟩
    have hhead : ∀ c, c = '/' ∨ c = '!' ∨ c = '?' → cs.head? ≠ some c := by
      intro c hc hhead
      unfold name at hn
      rw [hhead, Option.any_some, not_start hc, if_neg Bool.false_ne_true] at hn
      cases hn
    rw [if_neg (hhead '/' (.inl rfl)), if_neg (by
      rintro (h | h)
      · exact hhead '!' (.inr (.inl rfl)) h
      · exact hhead '?' (.inr (.inr rfl)) h), hn]
    dsimp only [Option.bind_eq_bind, Option.bind_some]
    rw [ha]
    dsimp only [Option.bind_some]
    rw [hch]
    dsimp only [Option.bind_some]
    rw [his]
    rfl

/-- Content that begins with a text. -/
theorem content_text_iff {t : List Char} : content D (fuel + 1) cs = some (.text t :: items, r) ↔
    (∃ c ∈ cs.head?, c ≠ '<') ∧ decode (cs.takeWhile (· ≠ '<')) = some t ∧
      content D fuel (cs.dropWhile (· ≠ '<')) = some (items, r) := by
  cases cs with
  | nil => simp [content]
  | cons c cs =>
    rw [content]
    constructor
    · intro h
      split at h
      · split at h
        · cases h
        · split at h
          · obtain ⟨m, -, h'⟩ := Option.bind_eq_some_iff.mp h
            obtain ⟨is, -, h''⟩ := Option.bind_eq_some_iff.mp h'
            cases h''
          · obtain ⟨⟨n', r₁⟩, -, h⟩ := Option.bind_eq_some_iff.mp h
            obtain ⟨⟨a', r₂⟩, -, h⟩ := Option.bind_eq_some_iff.mp h
            obtain ⟨⟨ch, r₃⟩, -, h⟩ := Option.bind_eq_some_iff.mp h
            obtain ⟨⟨is, r₄⟩, -, h⟩ := Option.bind_eq_some_iff.mp h
            cases h
      · next hc =>
          obtain ⟨t', ht, h⟩ := Option.bind_eq_some_iff.mp h
          obtain ⟨⟨is, r₁⟩, his, h⟩ := Option.bind_eq_some_iff.mp h
          cases h
          exact ⟨⟨c, rfl, hc⟩, ht, his⟩
    · rintro ⟨⟨c', hc', hne⟩, ht, his⟩
      obtain rfl := Option.some.inj hc'
      rw [if_neg hne, ht]
      dsimp only [Option.bind_eq_bind, Option.bind_some]
      rw [his]
      rfl

end Content

/-- The items outside of the root element: no text except blanks. -/
def outside {A M : Type} : Item A M → Bool
  | .elem .. => false
  | .text cs => cs.all isSpace
  | .misc _ => true

/-- What follows the XML declaration, if there is one. -/
def afterDeclaration : List Char → List Char
  | '<' :: '?' :: 'x' :: 'm' :: 'l' :: cs => (cs.dropWhile (· ≠ '>')).drop 1
  | cs => cs

/-- The items of a document: exactly one of them is an element. -/
def document (D : Dialect) (cs : List Char) : Option (List (Item D.Attrs D.Misc)) := do
  let (items, rest) ← content D (cs.length + 1) (afterDeclaration cs)
  if rest = [] ∧ (items.filter (fun i => !outside i)).length = 1 ∧
      items.any (fun i => i matches .elem ..) then some items
  else none

/-! ### Trees and their texts -/

/-- What a document is meant to hold: leaves with a value, and elements with
other elements. -/
inductive Element where
  | leaf (name value : String)
  | node (name : String) (children : List Element)

/-- The format `<%s>%s</%s>`. -/
def between (n body : List Char) : List Char :=
  '<' :: (n ++ '>' :: (body ++ '<' :: '/' :: (n ++ ['>'])))

mutual
/-- The text that formats make of a tree. -/
def Element.raw : Element → List Char
  | .leaf n v => between n.toList v.toList
  | .node n ts => between n.toList (rawAll ts)

/-- The texts of trees, one after the other. -/
def rawAll : List Element → List Char
  | [] => []
  | t :: ts => t.raw ++ rawAll ts
end

/-- The items of a value. -/
def valueItems {A M : Type} (v : List Char) : List (Item A M) := if v = [] then [] else [.text v]

mutual
/-- A tree as an item of a document. -/
def Element.item (D : Dialect) : Element → Item D.Attrs D.Misc
  | .leaf n v => .elem n.toList D.noAttrs (valueItems v.toList)
  | .node n ts => .elem n.toList D.noAttrs (itemAll D ts)

/-- Trees as items of a document. -/
def itemAll (D : Dialect) : List Element → List (Item D.Attrs D.Misc)
  | [] => []
  | t :: ts => t.item D :: itemAll D ts
end

mutual
/-- Every name is one, and every value stands for itself. -/
def Element.Readable : Element → Prop
  | .leaf n v => IsName n.toList ∧ Plain v.toList
  | .node n ts => IsName n.toList ∧ ReadableAll ts

/-- The same for trees one after the other. -/
def ReadableAll : List Element → Prop
  | [] => True
  | t :: ts => t.Readable ∧ ReadableAll ts
end

mutual
/-- Whether a tree is readable can be computed. -/
def Element.decReadable : (t : Element) → Decidable t.Readable
  | .leaf n v => inferInstanceAs (Decidable (IsName n.toList ∧ Plain v.toList))
  | .node n ts =>
    have := decReadableAll ts
    inferInstanceAs (Decidable (IsName n.toList ∧ ReadableAll ts))

/-- The same for trees one after the other. -/
def decReadableAll : (ts : List Element) → Decidable (ReadableAll ts)
  | [] => .isTrue trivial
  | t :: ts =>
    have := t.decReadable
    have := decReadableAll ts
    inferInstanceAs (Decidable (t.Readable ∧ ReadableAll ts))
end

instance (ts : List Element) : Decidable (ReadableAll ts) := decReadableAll ts

section Between

variable {D : Dialect} {fuel : Nat} {n body rest r : List Char}
  {children items : List (Item D.Attrs D.Misc)}

theorem not_nameChar_gt : isNameChar '>' = false := by decide

/-- The end tag that a format writes. -/
theorem endTag_format (hn : IsName n) :
    endTag n ('<' :: '/' :: (n ++ '>' :: rest)) = some rest := by
  have hname : name (n ++ '>' :: rest) = some (n, '>' :: rest) :=
    name_append hn (by rintro c ⟨⟩; exact not_nameChar_gt)
  have hspace : ('>' :: rest).dropWhile isSpace = '>' :: rest :=
    List.dropWhile_cons_of_neg (by decide)
  rw [endTag, hname]
  dsimp only [Option.bind_eq_bind, Option.bind_some]
  rw [if_pos rfl, hspace]
  rfl

/-- The rest of an element when its attributes end at the tag's end. -/
theorem elementRest_gt {inner : List Char → Option (List (Item D.Attrs D.Misc) × List Char)}
    {cs : List Char} : elementRest inner n ('>' :: cs) = some (children, r) ↔
      ∃ r₁, inner cs = some (children, r₁) ∧ endTag n r₁ = some r := by
  have hspace : ('>' :: cs).dropWhile isSpace = '>' :: cs :=
    List.dropWhile_cons_of_neg (by decide)
  rw [elementRest, hspace]
  constructor
  · intro h
    obtain ⟨⟨ch, r₁⟩, hinner, h⟩ := Option.bind_eq_some_iff.mp h
    obtain ⟨r₂, hend, h⟩ := Option.bind_eq_some_iff.mp h
    cases h
    exact ⟨r₁, hinner, hend⟩
  · rintro ⟨r₁, hinner, hend⟩
    change ((inner cs).bind fun x => (endTag n x.2).bind fun r₂ => some (x.1, r₂)) = _
    rw [hinner, Option.bind_some, hend, Option.bind_some]

/-- What the parser makes of an element that a format wrote depends on what
stands between its tags. The tag may have attributes. -/
theorem content_format_iff {tagText : List Char} {a : D.Attrs} {cs : List Char}
    (htag : ∀ c ∈ (tagText ++ ['>']).head?, isNameChar c = false)
    (hattrs : ∀ r, D.attrs (tagText ++ '>' :: r) = some (a, '>' :: r)) :
    content D (fuel + 1) ('<' :: (n ++ (tagText ++ '>' :: cs))) =
        some (.elem n a children :: items, r) ↔
      IsName n ∧ ∃ r₁ r₂, content D fuel cs = some (children, r₁) ∧ endTag n r₁ = some r₂ ∧
        content D fuel r₂ = some (items, r) := by
  rw [content_elem_iff]
  constructor
  · rintro ⟨r₁, r₂, r₃, hname, ha, hrest, hitems⟩
    obtain ⟨hn, happ⟩ := name_eq_some hname
    obtain rfl := List.append_cancel_left happ
    rw [hattrs] at ha
    obtain ⟨-, rfl⟩ := Prod.mk.inj (Option.some.inj ha)
    obtain ⟨r₁, hinner, hend⟩ := elementRest_gt.mp hrest
    exact ⟨hn, r₁, r₃, hinner, hend, hitems⟩
  · rintro ⟨hn, r₁, r₂, hinner, hend, hitems⟩
    refine ⟨_, _, r₂, name_append hn ?_, hattrs cs, elementRest_gt.mpr ⟨r₁, hinner, hend⟩, hitems⟩
    cases tagText with
    | nil => exact fun c hc => htag c hc
    | cons d tagText => exact fun c hc => htag c hc

end Between

/-! ### Reading a text back -/

section Back

variable {D : Dialect} {fuel : Nat} {v r cs : List Char}

/-- The text before the next tag is at most the value in front of it. -/
theorem takeWhile_value (v cs : List Char) : (v ++ '<' :: cs).takeWhile (· ≠ '<') <+: v := by
  induction v with
  | nil =>
    have hnone : ('<' :: cs).takeWhile (· ≠ '<') = [] := List.takeWhile_cons_of_neg (by simp)
    exact hnone ▸ List.nil_prefix
  | cons c v ih =>
    rw [List.cons_append]
    by_cases hc : c = '<'
    · rw [List.takeWhile_cons_of_neg (by simpa using hc)]
      exact List.nil_prefix
    · rw [List.takeWhile_cons_of_pos (by simpa using hc)]
      exact List.cons_prefix_cons.mpr ⟨rfl, ih⟩

/-- Content that was read to an end tag. -/
theorem content_stop_eq {items : List (Item D.Attrs D.Misc)}
    (h : content D fuel ('<' :: '/' :: cs) = some (items, r)) :
    items = [] ∧ r = '<' :: '/' :: cs := by
  cases fuel with
  | zero => cases h
  | succ fuel =>
    rw [content_stop] at h
    obtain ⟨hitems, hr⟩ := Prod.mk.inj (Option.some.inj h)
    exact ⟨hitems.symm, hr.symm⟩

/-- A value in front of an end tag that is read as it is written is plain. -/
theorem plain_of_content (h : content D fuel (v ++ '<' :: '/' :: cs) = some (valueItems v, r)) :
    Plain v ∧ r = '<' :: '/' :: cs := by
  by_cases hv : v = []
  · subst hv
    exact ⟨⟨by simp, by simp⟩, (content_stop_eq h).2⟩
  cases fuel with
  | zero => cases h
  | succ fuel =>
    rw [valueItems, if_neg hv, content_text_iff] at h
    obtain ⟨-, hdec, hrest⟩ := h
    -- decoding makes nothing longer, so the text reaches to the end of the value
    have hall : (v ++ '<' :: '/' :: cs).takeWhile (· ≠ '<') = v :=
      (takeWhile_value v ('/' :: cs)).eq_of_length_le (length_decodeFrom hdec)
    have hlt : '<' ∉ v := by
      intro hmem
      rw [← hall] at hmem
      exact absurd (List.all_eq_true.mp List.all_takeWhile _ hmem) (by simp)
    have hdrop : (v ++ '<' :: '/' :: cs).dropWhile (· ≠ '<') = '<' :: '/' :: cs := by
      have happ := List.takeWhile_append_dropWhile (p := (· ≠ '<')) (l := v ++ '<' :: '/' :: cs)
      rw [hall] at happ
      exact List.append_cancel_left happ
    rw [hall] at hdec
    rw [hdrop] at hrest
    exact ⟨(decode_eq_self_iff hlt).mp hdec, (content_stop_eq hrest).2⟩

/-- A plain value in front of an end tag is read as it is written. -/
theorem content_of_plain (hplain : Plain v) :
    content D (fuel + 2) (v ++ '<' :: '/' :: cs) = some (valueItems v, '<' :: '/' :: cs) := by
  by_cases hv : v = []
  · subst hv
    exact content_stop D _ cs
  have hne : ∀ c ∈ v, decide (c ≠ '<') = true := fun c hc =>
    decide_eq_true (hplain.chars c hc).2.1
  have hlt : '<' ∉ v := fun h => (hplain.chars _ h).2.1 rfl
  have htake : ('<' :: '/' :: cs).takeWhile (· ≠ '<') = [] :=
    List.takeWhile_cons_of_neg (by simp)
  have hdrop : ('<' :: '/' :: cs).dropWhile (· ≠ '<') = '<' :: '/' :: cs :=
    List.dropWhile_cons_of_neg (by simp)
  rw [valueItems, if_neg hv, content_text_iff, List.takeWhile_append_of_pos hne,
    List.dropWhile_append_of_pos hne, htake, hdrop, List.append_nil, content_stop]
  refine ⟨?_, (decode_eq_self_iff hlt).mpr hplain, rfl⟩
  obtain ⟨c, v', rfl⟩ := List.exists_cons_of_ne_nil hv
  exact ⟨c, rfl, (hplain.chars c List.mem_cons_self).2.1⟩

/-- The element that `between` writes, followed by other text. -/
theorem between_append (n body rest : List Char) : between n body ++ rest =
    '<' :: (n ++ ([] ++ '>' :: (body ++ '<' :: '/' :: (n ++ '>' :: rest)))) := by
  simp [between]

/-- An element that `between` wrote. -/
theorem content_between_iff {n body rest : List Char}
    {children items : List (Item D.Attrs D.Misc)} :
    content D (fuel + 1) (between n body ++ rest) =
        some (.elem n D.noAttrs children :: items, r) ↔
      IsName n ∧ ∃ r₁ r₂, content D fuel (body ++ '<' :: '/' :: (n ++ '>' :: rest)) =
          some (children, r₁) ∧ endTag n r₁ = some r₂ ∧ content D fuel r₂ = some (items, r) := by
  rw [between_append]
  refine content_format_iff (fun c hc => ?_) D.attrs_end
  obtain rfl := Option.some.inj hc
  exact not_nameChar_gt

mutual
/-- A tree that the parser gives back is readable. -/
theorem Element.readable_of_content {t : Element} {items : List (Item D.Attrs D.Misc)}
    {rest r : List Char} {fuel : Nat}
    (h : content D (fuel + 1) (t.raw ++ rest) = some (t.item D :: items, r)) :
    t.Readable ∧ content D fuel rest = some (items, r) := by
  match t with
  | .leaf n v =>
    obtain ⟨hn, r₁, r₂, hinner, hend, hitems⟩ := content_between_iff.mp h
    obtain ⟨hplain, rfl⟩ := plain_of_content hinner
    rw [endTag_format hn] at hend
    obtain rfl := Option.some.inj hend
    exact ⟨⟨hn, hplain⟩, hitems⟩
  | .node n ts =>
    obtain ⟨hn, r₁, r₂, hinner, hend, hitems⟩ := content_between_iff.mp h
    obtain ⟨hts, rfl⟩ := readableAll_of_content hinner
    rw [endTag_format hn] at hend
    obtain rfl := Option.some.inj hend
    exact ⟨⟨hn, hts⟩, hitems⟩

/-- The same for trees in front of an end tag. -/
theorem readableAll_of_content {ts : List Element} {cs r : List Char} {fuel : Nat}
    (h : content D fuel (rawAll ts ++ '<' :: '/' :: cs) = some (itemAll D ts, r)) :
    ReadableAll ts ∧ r = '<' :: '/' :: cs := by
  match ts, fuel with
  | [], _ => exact ⟨trivial, (content_stop_eq h).2⟩
  | t :: ts, 0 => cases h
  | t :: ts, fuel + 1 =>
    rw [rawAll, List.append_assoc] at h
    obtain ⟨ht, hrest⟩ := Element.readable_of_content h
    obtain ⟨hts, hr⟩ := readableAll_of_content hrest
    exact ⟨⟨ht, hts⟩, hr⟩
end

/-- An element is longer than what stands between its tags. -/
theorem length_between (n body : List Char) : body.length + 2 ≤ (between n body).length := by
  simp only [between, List.length_cons, List.length_append]
  omega

/-- A tree has a text. -/
theorem Element.length_raw_pos (t : Element) : 0 < t.raw.length := by
  cases t with
  | leaf n v => exact Nat.lt_of_lt_of_le (by omega) (length_between _ _)
  | node n ts => exact Nat.lt_of_lt_of_le (by omega) (length_between _ _)

mutual
/-- A readable tree is given back, when the bound allows for its text. -/
theorem Element.content_of_readable {t : Element} {items : List (Item D.Attrs D.Misc)}
    {rest r : List Char} {fuel : Nat} (ht : t.Readable) (hlen : t.raw.length ≤ fuel)
    (hrest : content D fuel rest = some (items, r)) :
    content D (fuel + 1) (t.raw ++ rest) = some (t.item D :: items, r) := by
  match t, ht with
  | .leaf n v, ⟨hn, hplain⟩ =>
    obtain ⟨f, rfl⟩ : ∃ f, fuel = f + 2 :=
      Nat.exists_eq_add_of_le' (Nat.le_trans (by omega) (Nat.le_trans (length_between _ _) hlen))
    exact content_between_iff.mpr
      ⟨hn, _, _, content_of_plain hplain, endTag_format hn, hrest⟩
  | .node n ts, ⟨hn, hts⟩ =>
    have hlen' : (rawAll ts).length < fuel := by
      have := Nat.le_trans (length_between n.toList (rawAll ts)) hlen
      omega
    exact content_between_iff.mpr
      ⟨hn, _, _, content_of_readableAll hts hlen', endTag_format hn, hrest⟩

/-- The same for trees in front of an end tag. -/
theorem content_of_readableAll {ts : List Element} {cs : List Char} {fuel : Nat}
    (hts : ReadableAll ts) (hlen : (rawAll ts).length < fuel) :
    content D fuel (rawAll ts ++ '<' :: '/' :: cs) = some (itemAll D ts, '<' :: '/' :: cs) := by
  match ts, fuel, hts with
  | [], fuel + 1, _ => exact content_stop D fuel cs
  | t :: ts, fuel + 1, ⟨ht, hts⟩ =>
    rw [rawAll, List.length_append] at hlen
    have hpos := t.length_raw_pos
    have hrest : content D fuel (rawAll ts ++ '<' :: '/' :: cs) =
        some (itemAll D ts, '<' :: '/' :: cs) := content_of_readableAll hts (by omega)
    rw [rawAll, List.append_assoc]
    exact Element.content_of_readable ht (by omega) hrest
end

/-- A document whose root element holds the texts of trees is read as these
trees if and only if they are readable. -/
theorem document_raw_iff {decl n tagText : List Char} {a : D.Attrs} {ts : List Element}
    (hdecl : ∀ cs, afterDeclaration (decl ++ '<' :: (n ++ cs)) = '<' :: (n ++ cs))
    (hn : IsName n) (htag : ∀ c ∈ (tagText ++ ['>']).head?, isNameChar c = false)
    (hattrs : ∀ r, D.attrs (tagText ++ '>' :: r) = some (a, '>' :: r)) :
    document D (decl ++ '<' :: (n ++ (tagText ++
        '>' :: (rawAll ts ++ '<' :: '/' :: (n ++ ['>']))))) = some [.elem n a (itemAll D ts)] ↔
      ReadableAll ts := by
  rw [document, hdecl]
  constructor
  · intro h
    obtain ⟨⟨items, rest⟩, hcontent, h⟩ := Option.bind_eq_some_iff.mp h
    dsimp only at h
    split at h
    · obtain rfl := Option.some.inj h
      obtain ⟨-, r₁, r₂, hinner, -, -⟩ := (content_format_iff htag hattrs).mp hcontent
      exact (readableAll_of_content hinner).1
    · cases h
  · intro hts
    generalize hlen : (decl ++ '<' :: (n ++ (tagText ++
      '>' :: (rawAll ts ++ '<' :: '/' :: (n ++ ['>']))))).length = fuel
    have hpos : (rawAll ts).length < fuel ∧ 0 < fuel := by
      simp only [List.length_append, List.length_cons] at hlen
      omega
    obtain ⟨f, rfl⟩ := Nat.exists_eq_add_of_lt hpos.2
    have hnil : content D (0 + f + 1) [] = some ([], []) := rfl
    have hcontent := (content_format_iff htag hattrs).mpr
      ⟨hn, _, _, content_of_readableAll hts hpos.1, endTag_format hn, hnil⟩
    rw [hcontent]
    rfl

end Back

/-! ### A dialect -/

/-- Everything before the first occurrence of a text, and what follows it. -/
def splitAt (stop : List Char) : List Char → Option (List Char × List Char)
  | [] => none
  | c :: cs =>
    if stop <+: c :: cs then some ([], (c :: cs).drop stop.length)
    else (splitAt stop cs).map (fun r => (c :: r.1, r.2))

/-- A value between quotes. -/
def quoted : List Char → Option (List Char × List Char)
  | [] => none
  | q :: cs => do
      let (v, r) ← if q = '"' ∨ q = Char.ofNat 39 then splitAt [q] cs else none
      if v.all (fun c => isChar c && c ≠ '<') then some (v, r) else none

/-- One attribute, after a blank. Its value is kept as it is written. -/
def oneAttribute (cs : List Char) : Option ((List Char × List Char) × List Char) := do
  let (n, r) ← if cs.head?.any isSpace then name (cs.dropWhile isSpace) else none
  match r.dropWhile isSpace with
  | '=' :: r => do
      let (v, r) ← quoted (r.dropWhile isSpace)
      some ((n, v), r)
  | _ => none

/-- The attributes of a tag, no two with the same name. -/
def attributes : Nat → List Char → Option (List (List Char × List Char) × List Char)
  | 0, _ => none
  | fuel + 1, cs =>
    if (cs.dropWhile isSpace).head?.any (fun c => c = '>' || c = '/') then some ([], cs)
    else do
      let (a, r) ← oneAttribute cs
      let (as, r) ← attributes fuel r
      if as.any (fun b => b.1 = a.1) then none else some (a :: as, r)

/-- A comment, a CDATA section or a processing instruction. -/
inductive Section where
  | comment (cs : List Char)
  | cdata (cs : List Char)
  | instruction (target cs : List Char)

/-- Read a section. -/
def readSection (cs : List Char) : Option (Section × List Char) :=
  if "<!--".toList <+: cs then do
    let (t, r) ← splitAt "--".toList (cs.drop 4)
    if t.all isChar ∧ r.head? = some '>' then some (.comment t, r.drop 1) else none
  else if "<![CDATA[".toList <+: cs then do
    let (t, r) ← splitAt "]]>".toList (cs.drop 9)
    if t.all isChar then some (.cdata t, r) else none
  else if "<?".toList <+: cs then do
    let (t, r) ← splitAt "?>".toList (cs.drop 2)
    let (n, t) ← name t
    if t.all isChar ∧ n.map Char.toLower ≠ "xml".toList then some (.instruction n t, r) else none
  else none

/-- Attributes and sections of XML 1.0. -/
def xml10 : Dialect where
  Attrs := List (List Char × List Char)
  Misc := Section
  attrs cs := attributes (cs.length + 1) cs
  misc := readSection
  noAttrs := []
  attrs_end r := by
    have hspace : ('>' :: r).dropWhile isSpace = '>' :: r :=
      List.dropWhile_cons_of_neg (by decide)
    rw [attributes, hspace, if_pos (by rfl)]

end OfConfig.Lib.Markup
