import Mathlib.Algebra.Group.Nat.Defs
import Mathlib.Data.List.TakeDrop

/-!
# `OfConfig.Lib.Stream`: numbers and messages in a stream of bytes

Numbers of a fixed width, least significant byte first, and a stream
from which `recv` takes bytes. How much a call returns is not up to the
caller: `cuts` says for each call how many bytes it finds, and any such
list is possible. A caller that asks once gets what there is; `recvLoop`
asks until it has everything. A call that finds nothing is recorded
(`starved`): if the other end has hung up it returns, and otherwise it waits
there for bytes that may never come.

* `leNat_leBytes`: a number that fits is read back.
* `recv_whole`: a call that is not cut returns the next field.
* `recvLoop_eq`: the loop returns the next field, however it is cut.
-/

set_option autoImplicit false

namespace OfConfig.Lib

/-! ### Numbers -/

/-- A number in `k` bytes, least significant byte first. -/
def leBytes : Nat → Nat → List UInt8
  | 0, _ => []
  | k + 1, n => UInt8.ofNat (n % 256) :: leBytes k (n / 256)

/-- The number that bytes stand for. -/
def leNat : List UInt8 → Nat
  | [] => 0
  | b :: bs => b.toNat + 256 * leNat bs

@[simp] theorem length_leBytes (k n : Nat) : (leBytes k n).length = k := by
  induction k generalizing n with
  | zero => rfl
  | succ k ih => simp [leBytes, ih]

/-- A number is read back up to what its width can hold. -/
theorem leNat_leBytes (k n : Nat) : leNat (leBytes k n) = n % 256 ^ k := by
  induction k generalizing n with
  | zero => simp [leBytes, leNat, Nat.mod_one]
  | succ k ih =>
    have hbyte : (UInt8.ofNat (n % 256)).toNat = n % 256 := by simp
    rw [leBytes, leNat, ih, hbyte, Nat.pow_succ', Nat.mod_mul]

/-! ### Streams -/

/-- The bytes that were sent and not yet received, how many bytes each of the
following calls finds, and whether a call has found none. -/
structure Stream where
  bytes : List UInt8
  cuts : List Nat
  starved : Bool

/-- How many bytes a call that asks for `n` gets, if that many are there:
at least one, as long as it asks for one. -/
def cutAt (n : Nat) (cuts : List Nat) : Nat := min n (max 1 (cuts.headD n))

/-- One call that asks for `n` bytes. -/
def recv (n : Nat) (s : Stream) : List UInt8 × Stream :=
  (s.bytes.take (cutAt n s.cuts),
    { bytes := s.bytes.drop (cutAt n s.cuts)
      cuts := s.cuts.tail
      starved := s.starved || (decide (0 < n) && s.bytes.isEmpty) })

/-- Calls until `n` bytes have been received; `none` at the end of the
stream. -/
def recvLoop : Nat → Nat → List UInt8 → Stream → Option (List UInt8) × Stream
  | _, 0, acc, s => (some acc, s)
  | 0, _ + 1, _, s => (none, s)
  | fuel + 1, n + 1, acc, s =>
    let r := recv (n + 1) s
    if r.1 = [] then (none, r.2)
    else recvLoop fuel (n + 1 - r.1.length) (acc ++ r.1) r.2

/-- What is left of the cuts after a loop for `n` bytes. -/
def cutsAfter : Nat → Nat → List Nat → List Nat
  | _, 0, cuts => cuts
  | 0, _ + 1, cuts => cuts
  | fuel + 1, n + 1, cuts => cutsAfter fuel (n + 1 - cutAt (n + 1) cuts) cuts.tail

theorem cutAt_pos (n : Nat) (cuts : List Nat) : 0 < cutAt (n + 1) cuts := by
  simp only [cutAt]
  omega

theorem cutAt_le (n : Nat) (cuts : List Nat) : cutAt n cuts ≤ n := Nat.min_le_left _ _

/-- A call that is not cut returns the next field. -/
theorem recv_whole {a b : List UInt8} {cuts : List Nat} {z : Bool}
    (h : cutAt a.length cuts = a.length) :
    recv a.length ⟨a ++ b, cuts, z⟩ = (a, ⟨b, cuts.tail, z⟩) := by
  have hfed : (decide (0 < a.length) && (a ++ b).isEmpty) = false := by cases a <;> simp
  simp only [recv, h, hfed, Bool.or_false, List.take_left, List.drop_left]

/-- At the end of the stream nothing is received. -/
theorem recv_nil (n : Nat) (cuts : List Nat) (z : Bool) :
    recv n ⟨[], cuts, z⟩ = ([], ⟨[], cuts.tail, z || decide (0 < n)⟩) := by
  simp [recv]

/-- The loop returns the next field, however it is cut. -/
theorem recvLoop_eq {fuel : Nat} {a b acc : List UInt8} {cuts : List Nat} {z : Bool}
    (hfuel : a.length ≤ fuel) :
    recvLoop fuel a.length acc ⟨a ++ b, cuts, z⟩ =
      (some (acc ++ a), ⟨b, cutsAfter fuel a.length cuts, z⟩) := by
  induction fuel generalizing a acc cuts with
  | zero =>
    obtain rfl : a = [] := List.length_eq_zero_iff.mp (by omega)
    simp [recvLoop, cutsAfter]
  | succ fuel ih =>
    cases ha : a.length with
    | zero =>
      obtain rfl : a = [] := List.length_eq_zero_iff.mp ha
      simp [recvLoop, cutsAfter]
    | succ n =>
      have hpos := cutAt_pos n cuts
      have hle := cutAt_le (n + 1) cuts
      -- the call takes a first part of the field
      have htake : (a ++ b).take (cutAt (n + 1) cuts) = a.take (cutAt (n + 1) cuts) :=
        List.take_append_of_le_length (by omega)
      have hdrop : (a ++ b).drop (cutAt (n + 1) cuts) = a.drop (cutAt (n + 1) cuts) ++ b :=
        List.drop_append_of_le_length (by omega)
      have hlen : (a.take (cutAt (n + 1) cuts)).length = cutAt (n + 1) cuts := by
        rw [List.length_take]
        omega
      have hne : a.take (cutAt (n + 1) cuts) ≠ [] := by
        intro hnil
        rw [hnil] at hlen
        simp at hlen
        omega
      have hrest : recvLoop fuel (a.drop (cutAt (n + 1) cuts)).length
          (acc ++ a.take (cutAt (n + 1) cuts))
          ⟨a.drop (cutAt (n + 1) cuts) ++ b, cuts.tail, z⟩ = _ :=
        ih (by rw [List.length_drop]; omega)
      rw [List.length_drop, ha, List.append_assoc, List.take_append_drop] at hrest
      have hsome : (a ++ b).isEmpty = false := by
        cases a with
        | nil => simp at ha
        | cons x a => rfl
      simp only [recvLoop, cutsAfter, recv, htake, hdrop, hlen, if_neg hne, hsome,
        Bool.and_false, Bool.or_false]
      exact hrest

/-- A loop for at least one byte finds none at the end of the stream. -/
theorem recvLoop_nil (fuel n : Nat) (acc : List UInt8) (cuts : List Nat) :
    (recvLoop fuel (n + 1) acc ⟨[], cuts, true⟩).1 = none ∧
      (recvLoop fuel (n + 1) acc ⟨[], cuts, true⟩).2.starved = true := by
  cases fuel with
  | zero => exact ⟨rfl, rfl⟩
  | succ fuel => simp [recvLoop, recv_nil]

end OfConfig.Lib
