import Mathlib.Data.Nat.Bitwise
import Mathlib.Tactic.Ring

/-!
# A counter and flags in one word

A machine word whose low bits are a counter and whose high bits are flags: reading the counter
with a mask, subtracting from it and setting flags act on the two parts separately as long as
the subtraction does not underflow the counter.
-/

set_option autoImplicit false

namespace Library

/-- The word of width `w` with `flags` above the lowest `b` bits and `count` in them. -/
def packedWord (w b flags count : ℕ) : BitVec w := BitVec.ofNat w (flags * 2 ^ b + count)

section PackedWord

variable {w b flags count : ℕ}

/-- The two parts share no bit. -/
theorem flags_add_count (hcount : count < 2 ^ b) : flags * 2 ^ b + count = flags <<< b ||| count := by
  rw [← Nat.shiftLeft_add_eq_or_of_lt hcount, Nat.shiftLeft_eq]

/-- The mask reads the counter. -/
theorem packedWord_and_mask (hcount : count < 2 ^ b) :
    packedWord w b flags count &&& BitVec.ofNat w (2 ^ b - 1) = BitVec.ofNat w count := by
  unfold packedWord
  rw [← BitVec.ofNat_and, Nat.and_two_pow_sub_one_eq_mod,
    Nat.mul_add_mod_of_lt hcount]

/-- A subtraction that does not underflow the counter leaves the flags alone. -/
theorem packedWord_sub {n : ℕ} (hn : n ≤ count) :
    packedWord w b flags count - BitVec.ofNat w n = packedWord w b flags (count - n) := by
  unfold packedWord
  have hsum : flags * 2 ^ b + count = flags * 2 ^ b + (count - n) + n := by omega
  rw [hsum, BitVec.ofNat_add _ n, BitVec.add_sub_cancel]

/-- Setting flags leaves the counter alone. -/
theorem packedWord_or {more : ℕ} (hcount : count < 2 ^ b) :
    packedWord w b flags count ||| packedWord w b more 0 = packedWord w b (flags ||| more) count := by
  unfold packedWord
  rw [← BitVec.ofNat_or, flags_add_count hcount, flags_add_count (Nat.two_pow_pos b),
    flags_add_count hcount, Nat.shiftLeft_or_distrib, Nat.or_zero, Nat.or_assoc,
    Nat.or_comm count, ← Nat.or_assoc]

/-- Testing flags ignores the counter. -/
theorem packedWord_and {test : ℕ} (hcount : count < 2 ^ b) :
    packedWord w b flags count &&& packedWord w b test 0 = packedWord w b (flags &&& test) 0 := by
  unfold packedWord
  rw [← BitVec.ofNat_and, flags_add_count hcount, flags_add_count (Nat.two_pow_pos b),
    flags_add_count (Nat.two_pow_pos b), Nat.or_zero, Nat.or_zero, Nat.and_or_distrib_right,
    Nat.shiftLeft_and_distrib]
  have hlow : count &&& test <<< b = 0 := by
    apply Nat.eq_of_testBit_eq
    intro i
    rw [Nat.testBit_and, Nat.testBit_shiftLeft, Nat.zero_testBit]
    by_cases hi : b ≤ i
    · rw [Nat.testBit_lt_two_pow (hcount.trans_le (Nat.pow_le_pow_right (by omega) hi))]
      simp
    · simp [hi]
  rw [hlow, Nat.or_zero]

end PackedWord

end Library
