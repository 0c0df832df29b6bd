import Oox.Library.PackedWord
import Oox.Model.Operations

/-!
# The layout of `start_count`

`task_node::start_count` (oox.h:764-780) is one 32-bit word: the lowest 27 bits count the
outstanding prerequisites, bits 28 to 31 are failure flags. On the packed words the operations
of the code do what the model's `StartCount` does part by part.
-/

set_option autoImplicit false

namespace Oox

open Library

/-- `start_dependency_cancelled_bit`, `start_user_cancelled_bit` and `start_exception_bit`. -/
def FailureBit.word : FailureBit → BitVec 32
  | .dependencyCancelled => 1#32 <<< 28
  | .userCancelled => 1#32 <<< 29
  | .exception => 1#32 <<< 30

def startFailureFlag : BitVec 32 := 1#32 <<< 31

/-- `start_prerequisite_count`. -/
def startPrerequisiteCount (word : BitVec 32) : BitVec 32 := word &&& BitVec.ofNat 32 startCountMask

/-- `word | start_failure_flag | failure_bit` of `mark_failure`. -/
def markWord (word : BitVec 32) (b : FailureBit) : BitVec 32 := word ||| startFailureFlag ||| b.word

/-- The test of `remove_prerequisite` that skips the task. -/
def skipsWord (word : BitVec 32) : Bool :=
  word &&& (FailureBit.dependencyCancelled.word ||| FailureBit.exception.word) != 0

/-- `remove_prerequisite(n)` on the word of the code. -/
def removeWord (previous : BitVec 32) (n : ℕ) : Option (BitVec 32 × Bool) :=
  let previousCount := (startPrerequisiteCount previous).toNat
  if previousCount < n then none
  else some (previous - BitVec.ofNat 32 n, previousCount == n)

namespace StartCount

/-- The flags of a word, from bit 27 on. -/
def flags (w : StartCount) : ℕ :=
  (if w.dependencyCancelled then 2 else 0) + (if w.userCancelled then 4 else 0) +
    (if w.exception then 8 else 0) + if w.failureFlag then 16 else 0

/-- The word the code keeps. -/
def pack (w : StartCount) : BitVec 32 := packedWord 32 27 w.flags w.count

variable {w : StartCount}

/-- A counter that fits is read back. -/
theorem startPrerequisiteCount_pack (hcount : w.count < 2 ^ 27) :
    (startPrerequisiteCount w.pack).toNat = w.count := by
  have hmask : startPrerequisiteCount w.pack = BitVec.ofNat 32 w.count :=
    packedWord_and_mask hcount
  rw [hmask, BitVec.toNat_ofNat]
  exact Nat.mod_eq_of_lt (hcount.trans (by decide))

/-- `fetch_sub` borrows nothing from the flags while the counter does not underflow. -/
theorem pack_sub {n : ℕ} (hn : n ≤ w.count) :
    w.pack - BitVec.ofNat 32 n = { w with count := w.count - n : StartCount }.pack :=
  packedWord_sub hn

/-- The flags a mark adds. -/
theorem flags_mark (b : FailureBit) :
    (w.mark b).flags = w.flags ||| 16 ||| match b with
      | .dependencyCancelled => 2
      | .userCancelled => 4
      | .exception => 8 := by
  obtain ⟨count, dependency, user, exception, failure⟩ := w
  cases b <;> cases dependency <;> cases user <;> cases exception <;> cases failure <;>
    simp [flags, mark]

/-- Marking a failure leaves the counter alone. -/
theorem markWord_pack (b : FailureBit) (hcount : w.count < 2 ^ 27) :
    markWord w.pack b = (w.mark b).pack := by
  have hflag : startFailureFlag = packedWord 32 27 16 0 := by decide
  have hbit : b.word = packedWord 32 27 (match b with
      | .dependencyCancelled => 2
      | .userCancelled => 4
      | .exception => 8) 0 := by
    cases b <;> decide
  unfold markWord pack
  rw [hflag, hbit, packedWord_or hcount, packedWord_or hcount, mark_count, flags_mark]

/-- The code's test for a skipped task. -/
theorem skipsWord_pack (hcount : w.count < 2 ^ 27) : skipsWord w.pack = w.skips := by
  have htest : FailureBit.dependencyCancelled.word ||| FailureBit.exception.word =
      packedWord 32 27 10 0 := by decide
  unfold skipsWord pack
  rw [htest, packedWord_and hcount]
  obtain ⟨count, dependency, user, exception, failure⟩ := w
  cases dependency <;> cases user <;> cases exception <;> cases failure <;>
    simp [flags, skips, packedWord]

/-- On the packed word the subtraction does what it does to the counter. -/
theorem removeWord_pack {n : ℕ} (hcount : w.count < 2 ^ 27) :
    removeWord w.pack n = (w.removePrerequisite n).map fun r => (r.1.pack, r.2) := by
  unfold removeWord removePrerequisite
  rw [startPrerequisiteCount_pack hcount]
  by_cases hless : w.count < n
  · rw [if_pos hless, if_pos hless, Option.map_none]
  · rw [if_neg hless, if_neg hless, Option.map_some, pack_sub (by omega)]

end StartCount

end Oox
