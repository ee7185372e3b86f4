import Mathlib.Data.List.Basic

/-!
# `OfConfig.Ovs.Bytes`: strings as the C code sees them

Most of `ovs-data.c` hands strings on as a whole. The functions for a
datapath id go through them byte by byte, with indices of their own; here
a string is the list of its bytes, and a read beyond the terminating zero
is no read.
-/

set_option autoImplicit false

namespace OfConfig.Ovs

/-- The bytes of a text. -/
def bytesOf (s : String) : List UInt8 := s.toList.flatMap String.utf8EncodeChar

/-- The text with the given bytes; other bytes are not represented. -/
def textOf (bs : List UInt8) : String := (String.fromUTF8? ⟨bs.toArray⟩).getD ""

/-- `xmlStrlen` -/
def xmlStrlen (s : String) : Nat := (bytesOf s).length

/-- `s[j]`, with a zero at the end; `none` beyond it. -/
def byteAt (s : List UInt8) (j : Nat) : Option UInt8 := (s ++ [0])[j]?

/-- The string in a buffer; `none` when it has no terminating zero. -/
def cString (buf : List UInt8) : Option (List UInt8) :=
  if 0 ∈ buf then some (buf.takeWhile (· ≠ 0)) else none

/-- The byte of a colon. -/
def colonByte : UInt8 := 58

theorem byteAt_of_lt {s : List UInt8} {j : Nat} (h : j < s.length) : byteAt s j = s[j]? :=
  List.getElem?_append_left h

@[simp] theorem byteAt_length (s : List UInt8) : byteAt s s.length = some 0 := by
  simp [byteAt]

theorem byteAt_of_gt {s : List UInt8} {j : Nat} (h : s.length < j) : byteAt s j = none :=
  List.getElem?_eq_none (by simpa using Nat.succ_le_of_lt h)

theorem cString_snoc {s : List UInt8} (h : 0 ∉ s) : cString (s ++ [0]) = some s := by
  have hall : ∀ b ∈ s, decide (b ≠ 0) = true := fun b hb => by
    rw [decide_eq_true_eq]
    rintro rfl
    exact h hb
  rw [cString, if_pos (by simp), List.takeWhile_append_of_pos hall]
  simp

end OfConfig.Ovs
