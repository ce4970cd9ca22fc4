import Mathlib
import LatchTree.Latch.Word

/-!
A latch word as a census: a count of readers and three flags. Every operation on a word changes one
of the four and keeps the others, as long as the count stays within its 29 bits.
-/

namespace LatchTree.Latch.Word

/-- The three flags of a word, as a number of three bits. -/
def flags (reserved latched locked : Bool) : Nat :=
  reserved.toNat + 2 * latched.toNat + 4 * locked.toNat

/-- The word that says who holds what. -/
def compose (readers : Nat) (reserved latched locked : Bool) : Word :=
  UInt32.ofNat (536870912 * flags reserved latched locked + readers)

/-- The number of readers that a word can count, and one more. -/
def room : Nat := 536870912

variable {n : Nat} {a b c : Bool}

/-! ## Bits -/

theorem flags_lt (a b c : Bool) : flags a b c < 8 := by
  cases a <;> cases b <;> cases c <;> decide

theorem testBit_flags (a b c : Bool) (i : Nat) : (flags a b c).testBit i =
    if i = 0 then a else if i = 1 then b else if i = 2 then c else false := by
  match i with
  | 0 | 1 | 2 => cases a <;> cases b <;> cases c <;> decide
  | i + 3 =>
    have h : flags a b c < 2 ^ (i + 3) :=
      lt_of_lt_of_le (flags_lt a b c) (Nat.pow_le_pow_right (Nat.succ_pos 1) (by omega : 3 ≤ i + 3))
    simp [Nat.testBit_lt_two_pow h]

theorem toNat_compose (h : n < room) :
    (compose n a b c).toNat = 536870912 * flags a b c + n := by
  have hf := flags_lt a b c
  simp only [room] at h
  rw [compose, UInt32.toNat_ofNat', Nat.mod_eq_of_lt]
  omega

theorem testBit_compose (h : n < room) (i : Nat) : (compose n a b c).toNat.testBit i =
    if i < 29 then n.testBit i else (flags a b c).testBit (i - 29) := by
  rw [toNat_compose h]
  exact Nat.testBit_two_pow_mul_add (i := 29) _ h i

theorem room_pos : 0 < room := by decide

theorem and_compose (h : n < room) (x y z : Bool) :
    compose n a b c &&& compose 0 x y z = compose 0 (a && x) (b && y) (c && z) := by
  apply UInt32.toNat.inj
  apply Nat.eq_of_testBit_eq
  intro i
  rw [UInt32.toNat_and, Nat.testBit_and, testBit_compose h, testBit_compose room_pos,
    testBit_compose room_pos]
  simp only [testBit_flags]
  split_ifs <;> simp

theorem or_compose (h : n < room) (x y z : Bool) :
    compose n a b c ||| compose 0 x y z = compose n (a || x) (b || y) (c || z) := by
  apply UInt32.toNat.inj
  apply Nat.eq_of_testBit_eq
  intro i
  rw [UInt32.toNat_or, Nat.testBit_or, testBit_compose h, testBit_compose room_pos,
    testBit_compose h]
  simp only [testBit_flags]
  split_ifs <;> simp

theorem andNot_reserved (h : n < room) :
    compose n a b c &&& ~~~reservedBit = compose n false b c := by
  apply UInt32.toNat.inj
  apply Nat.eq_of_testBit_eq
  intro i
  rw [UInt32.toNat_and, Nat.testBit_and, testBit_compose h, testBit_compose h,
    show (~~~reservedBit).toNat = 2 ^ 32 - (2 ^ 29 + 1) by decide,
    Nat.testBit_two_pow_sub_succ (by decide), Nat.testBit_two_pow]
  simp only [testBit_flags]
  split_ifs <;> simp_all <;> omega

theorem and_readersMask (h : n < room) :
    compose n a b c &&& readersMask = compose n false false false := by
  apply UInt32.toNat.inj
  apply Nat.eq_of_testBit_eq
  intro i
  rw [UInt32.toNat_and, Nat.testBit_and, testBit_compose h, testBit_compose h,
    show readersMask.toNat = 2 ^ 29 - 1 by decide, Nat.testBit_two_pow_sub_one]
  simp only [testBit_flags]
  split_ifs <;> simp_all

theorem compose_eq_zero (h : n < room) :
    compose n a b c = 0 ↔ n = 0 ∧ a = false ∧ b = false ∧ c = false := by
  rw [← UInt32.toNat_inj, toNat_compose h]
  cases a <;> cases b <;> cases c <;> simp [flags]

/-! ## Questions -/

theorem admitsReader_compose (h : n < room) : (compose n a b c).admitsReader = (!b && !c) := by
  rw [admitsReader, show latchedBit ||| lockedBit = compose 0 false true true by decide,
    and_compose h, Bool.eq_iff_iff, beq_iff_eq, compose_eq_zero room_pos]
  cases b <;> cases c <;> simp

theorem admitsReserver_compose (h : n < room) :
    (compose n a b c).admitsReserver = (!a && !b && !c) := by
  rw [admitsReserver,
    show latchedBit ||| lockedBit ||| reservedBit = compose 0 true true true by decide,
    and_compose h, Bool.eq_iff_iff, beq_iff_eq, compose_eq_zero room_pos]
  cases a <;> cases b <;> cases c <;> simp

theorem admitsWriter_compose (h : n < room) : (compose n a b c).admitsWriter = (!a && !b) := by
  rw [admitsWriter, show latchedBit ||| reservedBit = compose 0 true true false by decide,
    and_compose h, Bool.eq_iff_iff, beq_iff_eq, compose_eq_zero room_pos]
  cases a <;> cases b <;> simp

theorem isDrained_compose (h : n < room) : (compose n a b c).isDrained = decide (n = 0) := by
  rw [isDrained, readers, and_readersMask h, Bool.eq_iff_iff, beq_iff_eq, compose_eq_zero h]
  simp

theorem isReserved_compose (h : n < room) : (compose n a b c).isReserved = a := by
  rw [isReserved, show reservedBit = compose 0 true false false by decide, and_compose h,
    Bool.eq_iff_iff, bne_iff_ne, ne_eq, compose_eq_zero room_pos]
  simp

theorem isLatched_compose (h : n < room) : (compose n a b c).isLatched = b := by
  rw [isLatched, show latchedBit = compose 0 false true false by decide, and_compose h,
    Bool.eq_iff_iff, bne_iff_ne, ne_eq, compose_eq_zero room_pos]
  simp

theorem isLocked_compose (h : n < room) : (compose n a b c).isLocked = c := by
  rw [isLocked, show lockedBit = compose 0 false false true by decide, and_compose h,
    Bool.eq_iff_iff, bne_iff_ne, ne_eq, compose_eq_zero room_pos]
  simp

theorem readers_compose (h : n < room) : (compose n a b c).readers.toNat = n := by
  rw [readers, and_readersMask h, toNat_compose h, flags]
  simp

/-! ## Changes -/

theorem free_eq_compose : free = compose 0 false false false := by decide

theorem enter_compose (h : n + 1 < room) : (compose n a b c).enter = compose (n + 1) a b c := by
  have hf := flags_lt a b c
  apply UInt32.toNat.inj
  rw [enter, UInt32.toNat_add, toNat_compose (by omega), toNat_compose h]
  simp only [room] at h
  simp
  omega

theorem leave_compose (h : n + 1 < room) : (compose (n + 1) a b c).leave = compose n a b c := by
  rw [← enter_compose h, enter, leave, UInt32.add_sub_cancel]

theorem reserve_compose (h : n < room) : (compose n a b c).reserve = compose n true b c := by
  rw [reserve, show reservedBit = compose 0 true false false by decide, or_compose h]
  simp

theorem unreserve_compose (h : n < room) : (compose n a b c).unreserve = compose n false b c :=
  andNot_reserved h

theorem latch_compose (h : n < room) : (compose n a b c).latch = compose n a true c := by
  rw [latch, show latchedBit = compose 0 false true false by decide, or_compose h]
  simp

theorem lock_compose (h : n < room) : (compose n a b c).lock = compose n false b true := by
  rw [lock, show lockedBit = compose 0 false false true by decide, or_compose h,
    andNot_reserved h]
  simp

theorem leave_enter (w : Word) : w.enter.leave = w := by
  rw [enter, leave, UInt32.add_sub_cancel]

end LatchTree.Latch.Word
