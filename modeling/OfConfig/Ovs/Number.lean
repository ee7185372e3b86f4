import Mathlib.Algebra.Ring.Int.Defs
import OfConfig.Edit.Text

/-!
# `OfConfig.Ovs.Number`: numbers in texts

`strtol(s, NULL, 10)` and the conversion `%li` of `sscanf`, as far as
`ovs-data.c` uses them: on a whole string, for a 64-bit signed number.
`%li` takes the base from the text, so that a leading zero means octal.
Both clamp a number that does not fit.
-/

set_option autoImplicit false

namespace OfConfig.Ovs

open OfConfig.Edit (isSpace)

/-- The value of a digit in a base. -/
def digitOf (base : Nat) (c : Char) : Option Nat :=
  let d :=
    if '0' ≤ c ∧ c ≤ '9' then some (c.toNat - '0'.toNat)
    else if 'a' ≤ c ∧ c ≤ 'f' then some (c.toNat - 'a'.toNat + 10)
    else if 'A' ≤ c ∧ c ≤ 'F' then some (c.toNat - 'A'.toNat + 10)
    else none
  d.filter (· < base)

/-- The digits at the beginning of a text, after the value read so far. -/
def readDigits (base acc : Nat) : List Char → Nat
  | [] => acc
  | c :: cs =>
    match digitOf base c with
    | none => acc
    | some d => readDigits base (base * acc + d) cs

/-- The nearest 64-bit signed number. -/
def clampI64 (n : Int) : Int := max (-2 ^ 63) (min (2 ^ 63 - 1) n)

/-- The optional sign of a number. -/
def readSign : List Char → Int × List Char
  | '-' :: cs => (-1, cs)
  | '+' :: cs => (1, cs)
  | cs => (1, cs)

/-- `strtol(s, NULL, 10)` -/
def strtol (s : String) : Int :=
  let p := readSign (s.toList.dropWhile isSpace)
  clampI64 (p.1 * readDigits 10 0 p.2)

/-- The base of a number as `%i` finds it, the digits, and whether one
digit has been read already. -/
def readBase : List Char → Nat × List Char × Bool
  | '0' :: 'x' :: cs => (16, cs, true)
  | '0' :: 'X' :: cs => (16, cs, true)
  | '0' :: cs => (8, cs, true)
  | cs => (10, cs, false)

/-- `sscanf(s, "%" SCNi64, &n)`: the number, if the call returns 1. -/
def scanI64 (s : String) : Option Int :=
  let p := readSign (s.toList.dropWhile isSpace)
  let b := readBase p.2
  if b.2.2 || (b.2.1.head?.bind (digitOf b.1)).isSome then
    some (clampI64 (p.1 * readDigits b.1 0 b.2.1))
  else none

example : scanI64 "010" = some 8 := by decide

end OfConfig.Ovs
