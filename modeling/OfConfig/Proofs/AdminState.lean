import OfConfig.Ovs.Backend

/-!
# `OfConfig.Proofs.AdminState`: the up bit of an interface

`txn_mod_port_admin_state` reads the flag word of an interface, changes one
bit and writes it back; both ioctls carry the lower half of the word. For a
deleted value it should set the bit as for `up`, but it first tests
`flags && IFF_UP`, which is true as soon as any flag is set.

* `admin_state_applied_iff`: the bit is as requested, and all others are as
  before, unless the value was deleted and the interface is down with some
  other flag set.
* `deleted_admin_state_ignored`: an interface that is down with
  `IFF_BROADCAST` stays down.
-/

set_option autoImplicit false

namespace OfConfig.Ovs

open OfConfig.Lib

/-! ### The flag word -/

/-- A bit of the word after it was read, changed and written back. -/
theorem getLsbD_writeIfrFlags (word flags : BitVec 32) (i : Nat) :
    (writeIfrFlags word flags).getLsbD i =
      if i < 16 then flags.getLsbD i else word.getLsbD i := by
  unfold writeIfrFlags
  rw [BitVec.getLsbD_append]
  by_cases hi : i < 16
  · simp [hi]
  · rw [if_neg hi, if_neg hi, BitVec.getLsbD_extractLsb', Nat.add_sub_cancel' (Nat.not_lt.mp hi)]
    by_cases hi' : i - 16 < 16
    · simp [hi']
    · rw [BitVec.getLsbD_of_ge word i (by omega)]
      simp

theorem getLsbD_readIfrFlags (word : BitVec 32) {i : Nat} (hi : i < 16) :
    (readIfrFlags word).getLsbD i = word.getLsbD i := by
  unfold readIfrFlags
  rw [BitVec.getLsbD_signExtend]
  simp [hi, show i < 32 by omega]

/-- Reading is zero exactly when none of the bits an ioctl carries is set. -/
theorem readIfrFlags_eq_zero_iff (word : BitVec 32) :
    readIfrFlags word = 0 ↔ word.setWidth 16 = 0#16 := by
  constructor
  · intro h
    refine BitVec.eq_of_getLsbD_eq fun i hi => ?_
    have hbit := getLsbD_readIfrFlags word hi
    rw [h] at hbit
    simpa [hi] using hbit.symm
  · intro h
    unfold readIfrFlags
    rw [h]
    rfl

theorem getLsbD_iffUp (i : Nat) : iffUp.getLsbD i = decide (i = 0) := by
  unfold iffUp
  simp

/-- The test of the up bit. -/
theorem and_iffUp_ne_zero (flags : BitVec 32) : (flags &&& iffUp != 0) = flags.getLsbD 0 := by
  have hand : flags &&& iffUp = if flags.getLsbD 0 then iffUp else 0 := by
    refine BitVec.eq_of_getLsbD_eq fun i hi => ?_
    rw [BitVec.getLsbD_and, getLsbD_iffUp]
    by_cases h0 : i = 0
    · subst h0
      cases h : flags.getLsbD 0 <;> simp [getLsbD_iffUp]
    · cases h : flags.getLsbD 0 <;> simp [h0, getLsbD_iffUp]
  rw [hand]
  cases flags.getLsbD 0 with
  | true => rfl
  | false => rfl

/-! ### What is requested and what is done -/

/-- The function succeeds, and the flag word has the up bit exactly when up
was requested, with all other bits as before. -/
def AdminStateApplied (name : String) (value : Option String) (w : Work)
    (r : Except Fail Unit × Work) : Prop :=
  r.1 = .ok () ∧ ∃ word word', w.flags name = some word ∧ r.2.flags name = some word' ∧
    (word'.getLsbD 0 = true ↔ value ≠ some "down") ∧
    ∀ i, 0 < i → word'.getLsbD i = word.getLsbD i

/-- The word that an interface has after `dev_set_flags`. -/
def withFlags (name : String) (word : BitVec 32) (w : Work) : Work :=
  { w with flags := fun n => if n = name then some word else w.flags n }

section Runs

variable {w : Work} {name : String} {word : BitVec 32}

theorem devGetFlags_run (hword : w.flags name = some word) :
    devGetFlags name w = (.ok (readIfrFlags word), w) :=
  Prog.read_ok.mpr ⟨by rw [hword]; rfl, rfl⟩

/-- Writing a word and checking it. -/
theorem setFlags_run (hword : w.flags name = some word) {flags : BitVec 32} {up : Bool}
    (hup : flags.getLsbD 0 = up) :
    (do devSetFlags name flags; checkFlags name up) w =
      (.ok (), withFlags name (writeIfrFlags word flags) w) := by
  have hset : devSetFlags name flags w =
      (.ok (), withFlags name (writeIfrFlags word flags) w) := by
    refine Prog.update_ok.mpr ?_
    rw [hword]
    rfl
  have hget := devGetFlags_run (w := withFlags name (writeIfrFlags word flags) w)
    (if_pos (rfl : name = name))
  rw [Prog.bind_run_ok hset]
  unfold checkFlags
  rw [Prog.bind_run_ok hget, if_pos]
  · rfl
  · rw [and_iffUp_ne_zero, getLsbD_readIfrFlags _ (by omega), getLsbD_writeIfrFlags,
      if_pos (by omega), hup]

/-- The word with the up bit set or cleared. -/
theorem txnModPortAdminState_run (hword : w.flags name = some word) {value : Option String}
    (hvalue : value = none ∨ value = some "up" ∨ value = some "down") :
    txnModPortAdminState (some name) value w =
      if value = none ∧ readIfrFlags word ≠ 0 then (.ok (), w)
      else (.ok (), withFlags name (writeIfrFlags word
        (if value = some "down" then readIfrFlags word &&& ~~~iffUp
          else readIfrFlags word ||| iffUp)) w) := by
  have hor : (readIfrFlags word ||| iffUp).getLsbD 0 = true := by
    rw [BitVec.getLsbD_or, getLsbD_iffUp, decide_eq_true rfl, Bool.or_true]
  have hand : (readIfrFlags word &&& ~~~iffUp).getLsbD 0 = false := by
    rw [BitVec.getLsbD_and, BitVec.getLsbD_not, getLsbD_iffUp]
    simp
  have harg : argument (some name) w = (.ok name, w) := rfl
  unfold txnModPortAdminState
  rw [Prog.bind_run_ok harg, Prog.bind_run_ok (devGetFlags_run hword)]
  rcases hvalue with rfl | rfl | rfl
  · dsimp only
    by_cases hz : readIfrFlags word = 0
    · rw [if_neg (not_not_intro hz), if_neg (fun h => h.2 hz), setFlags_run hword hor]
      rfl
    · rw [if_pos hz, if_pos ⟨rfl, hz⟩]
      rfl
  · dsimp only
    rw [if_pos rfl, setFlags_run hword hor]
    rfl
  · dsimp only
    rw [if_neg (by decide), if_pos rfl, setFlags_run hword hand]
    rfl

end Runs

/-- A word that was written back differs in the up bit at most. -/
theorem getLsbD_changed (word : BitVec 32) (down : Prop) [Decidable down] {i : Nat} (hi : 0 < i) :
    (writeIfrFlags word (if down then readIfrFlags word &&& ~~~iffUp
      else readIfrFlags word ||| iffUp)).getLsbD i = word.getLsbD i := by
  rw [getLsbD_writeIfrFlags]
  by_cases h16 : i < 16
  · have hup : iffUp.getLsbD i = false := by
      rw [getLsbD_iffUp, decide_eq_false (by omega)]
    rw [if_pos h16]
    split
    · rw [BitVec.getLsbD_and, BitVec.getLsbD_not, hup, getLsbD_readIfrFlags word h16]
      simp [show i < 32 by omega]
    · rw [BitVec.getLsbD_or, hup, getLsbD_readIfrFlags word h16, Bool.or_false]
  · rw [if_neg h16]

/-- The up bit of a word that was written back. -/
theorem getLsbD_zero_changed (word : BitVec 32) (down : Prop) [Decidable down] :
    (writeIfrFlags word (if down then readIfrFlags word &&& ~~~iffUp
      else readIfrFlags word ||| iffUp)).getLsbD 0 = decide (¬ down) := by
  rw [getLsbD_writeIfrFlags, if_pos (by omega)]
  split
  · next h => simp [getLsbD_iffUp, h]
  · next h => simp [getLsbD_iffUp, h]

/-- For every flag word of an interface and every requested value: the state
is applied unless the value was deleted, the interface is down and some other
flag is set. -/
theorem admin_state_applied_iff (w : Work) (name : String) (word : BitVec 32)
    (hword : w.flags name = some word) (value : Option String)
    (hvalue : value = none ∨ value = some "up" ∨ value = some "down") :
    AdminStateApplied name value w (txnModPortAdminState (some name) value w) ↔
      ¬ (value = none ∧ word.getLsbD 0 = false ∧ word.setWidth 16 ≠ 0#16) := by
  rw [txnModPortAdminState_run hword hvalue]
  by_cases hskip : value = none ∧ readIfrFlags word ≠ 0
  · -- the early return: the word stays as it is
    obtain ⟨rfl, hne⟩ := hskip
    have hset : word.setWidth 16 ≠ 0#16 := fun h => hne ((readIfrFlags_eq_zero_iff word).mpr h)
    rw [if_pos ⟨rfl, hne⟩]
    constructor
    · rintro ⟨-, word₁, word₂, h₁, h₂, hup, -⟩ ⟨-, hdown, -⟩
      obtain rfl := Option.some.inj (hword.symm.trans h₁)
      obtain rfl := Option.some.inj (hword.symm.trans h₂)
      rw [hdown] at hup
      exact absurd (hup.mpr (by simp)) Bool.false_ne_true
    · intro h
      have hup : word.getLsbD 0 = true := by
        by_contra hdown
        exact h ⟨rfl, Bool.eq_false_iff.mpr hdown, hset⟩
      exact ⟨rfl, word, word, hword, hword, ⟨fun _ => by simp, fun _ => hup⟩, fun _ _ => rfl⟩
  · rw [if_neg hskip]
    refine iff_of_true ⟨rfl, word, _, hword, if_pos rfl, ?_, fun i hi => getLsbD_changed word _ hi⟩
      (fun h => hskip ⟨h.1, fun hz => h.2.2 ((readIfrFlags_eq_zero_iff word).mp hz)⟩)
    rw [getLsbD_zero_changed, decide_eq_true_iff]

/-- An interface `eth0` with the given flags. -/
def eth0With (word : BitVec 32) : Work := withFlags "eth0" word {}

/-- The flags up, broadcast, running and multicast; down is requested. -/
theorem admin_state_applied_down :
    AdminStateApplied "eth0" (some "down") (eth0With 0x1043#32)
      (txnModPortAdminState (some "eth0") (some "down") (eth0With 0x1043#32)) :=
  (admin_state_applied_iff (eth0With 0x1043#32) "eth0" 0x1043#32 rfl (some "down")
    (.inr (.inr rfl))).mpr (by decide)

/-- An interface that is down with `IFF_BROADCAST` and `IFF_MULTICAST`: when
its `admin-state` is deleted, the function succeeds and the interface stays
down. -/
theorem deleted_admin_state_ignored :
    txnModPortAdminState (some "eth0") none (eth0With 0x1002#32) = (.ok (), eth0With 0x1002#32) ∧
    ¬ AdminStateApplied "eth0" none (eth0With 0x1002#32)
      (txnModPortAdminState (some "eth0") none (eth0With 0x1002#32)) := by
  have hword : (eth0With 0x1002#32).flags "eth0" = some 0x1002#32 := rfl
  have hrun : txnModPortAdminState (some "eth0") none (eth0With 0x1002#32) =
      (.ok (), eth0With 0x1002#32) := by
    rw [txnModPortAdminState_run hword (.inl rfl), if_pos ⟨rfl, by decide⟩]
  refine ⟨hrun, ?_⟩
  rw [hrun]
  rintro ⟨-, word₁, word₂, -, h₂, hup, -⟩
  obtain rfl := Option.some.inj (hword.symm.trans h₂)
  exact absurd (hup.mpr (by simp)) (by decide)

end OfConfig.Ovs
