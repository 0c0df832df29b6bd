import Oox.Model.Words

/-!
# What the functions of a task do to its words

`remove_prerequisite` and `publish_failure_from` work on `start_count`, the functions around
`next_writer` and `countdown` on one output slot. Here they are functions of these words alone:
the result is the new word with what the caller has to know, and `none` where an assertion of the
function fails. The models differ in what they put around the words, and in what the caller does
next.
-/

set_option autoImplicit false

namespace Oox

namespace StartCount

variable {w w' : StartCount} {n : ℕ}

/-- `remove_prerequisite(n)` (oox.h:1167-1186): the word, and whether no prerequisite is left. -/
def removePrerequisite (w : StartCount) (n : ℕ) : Option (StartCount × Bool) :=
  if w.count < n then none else some ({ w with count := w.count - n }, w.count == n)

/-- The assertion fails when fewer than `n` prerequisites are left. -/
theorem removePrerequisite_eq_none : w.removePrerequisite n = none ↔ w.count < n := by
  unfold removePrerequisite
  split <;> simp_all

/-- The call that finds exactly `n` prerequisites leaves none. -/
theorem of_last (h : w.removePrerequisite n = some (w', true)) :
    w.count = n ∧ w' = { w with count := 0 } := by
  unfold removePrerequisite at h
  split at h
  · cases h
  · obtain ⟨hword, hcount⟩ := Prod.mk.inj (Option.some.inj h)
    have heq : w.count = n := beq_iff_eq.mp hcount
    rw [heq, Nat.sub_self] at hword
    exact ⟨heq, hword.symm⟩

/-- Another call leaves some. -/
theorem of_left (h : w.removePrerequisite n = some (w', false)) :
    n < w.count ∧ w' = { w with count := w.count - n } := by
  unfold removePrerequisite at h
  split at h
  · cases h
  · obtain ⟨hword, hcount⟩ := Prod.mk.inj (Option.some.inj h)
    have hne : w.count ≠ n := beq_eq_false_iff_ne.mp hcount
    exact ⟨by omega, hword.symm⟩

/-- All prerequisites that are left are removed. -/
theorem removePrerequisite_last (h : w.count = n) :
    w.removePrerequisite n = some ({ w with count := 0 }, true) := by
  unfold removePrerequisite
  rw [if_neg (by omega), h, Nat.sub_self, beq_self_eq_true]

/-- Some prerequisites are removed and some are left. -/
theorem removePrerequisite_left (h : n < w.count) :
    w.removePrerequisite n = some ({ w with count := w.count - n }, false) := by
  unfold removePrerequisite
  rw [if_neg (by omega), beq_eq_false_iff_ne.mpr (by omega)]

/-- A marked task has failed. -/
@[simp] theorem mark_failed (w : StartCount) (b : FailureBit) : (w.mark b).failed = true := by
  cases b <;> simp [mark, failed]

/-- A mark sets the flag with the bit. -/
@[simp] theorem mark_failureFlag (w : StartCount) (b : FailureBit) :
    (w.mark b).failureFlag = true := by
  cases b <;> rfl

/-- A task that is skipped has failed. -/
theorem failed_of_skips (h : w.skips = true) : w.failed = true := by
  simp only [skips, failed, Bool.or_eq_true] at h ⊢
  tauto

/-- `publish_failure_from` (oox.h:967-998): the failure that a consumer on port `p` of a task with
this word is marked with. An exception takes its payload along, if there is one. -/
def published (w : StartCount) (p : ℕ) : Option FailureBit :=
  if p ≠ 0 then some .dependencyCancelled
  else if w.exception then some .exception
  else if w.userCancelled then some .userCancelled
  else if w.dependencyCancelled then some .dependencyCancelled
  else none

end StartCount

namespace OutputNode

variable {o o' : OutputNode} {n : ℤ} {d : NextWriter} {b : Bool}

/-- `notify_successors` (oox.h:1131-1165): the store of the biased countdown. -/
def arm (o : OutputNode) : OutputNode := { o with countdown := countdownBias, armed := true }

/-- `do_notify_out` (oox.h:1112-1129): the compare-exchange of `next_writer` from null to the
ready marker; `none` when it fails. -/
def offer (o : OutputNode) : Option OutputNode :=
  if o.nextWriter = .null then some { o with nextWriter := .ready } else none

/-- `remove_back_arc(port, n)` (oox.h:1203-1212), the subtraction. -/
def removeBackArc (o : OutputNode) (n : ℤ) : Option OutputNode :=
  if o.countdown - n < 0 then none else some { o with countdown := o.countdown - n }

/-- `assign_prerequisite` (oox.h:1035-1037), late consumer: `++countdown`. -/
def increment (o : OutputNode) : Option OutputNode :=
  if o.countdown + 1 > 1 then some { o with countdown := o.countdown + 1 } else none

/-- `set_next_writer` (oox.h:1214-1228): the slot, and whether the ready marker was there, whose
unit of the countdown the caller takes back. -/
def setNextWriter (o : OutputNode) (d : NextWriter) : Option (OutputNode × Bool) :=
  if d = .ready then none
  else
    match o.nextWriter with
    | .null => some ({ o with nextWriter := d }, false)
    | .ready => some ({ o with nextWriter := d }, true)
    | .noOwner => if d = .noOwner then some ({ o with nextWriter := d }, false) else none
    | _ => none

theorem offer_eq_some : o.offer = some o' ↔
    o.nextWriter = .null ∧ o' = { o with nextWriter := .ready } := by
  unfold offer
  split <;> simp_all [eq_comm]

theorem offer_eq_none : o.offer = none ↔ o.nextWriter ≠ .null := by
  unfold offer
  split <;> simp_all

theorem removeBackArc_eq_some : o.removeBackArc n = some o' ↔
    n ≤ o.countdown ∧ o' = { o with countdown := o.countdown - n } := by
  unfold removeBackArc
  split
  · simp; omega
  · simp [eq_comm]; omega

theorem removeBackArc_eq_none : o.removeBackArc n = none ↔ o.countdown < n := by
  unfold removeBackArc
  split <;> simp <;> omega

theorem increment_eq_some : o.increment = some o' ↔
    0 < o.countdown ∧ o' = { o with countdown := o.countdown + 1 } := by
  unfold increment
  split
  · simp [eq_comm]; omega
  · simp; omega

theorem increment_eq_none : o.increment = none ↔ o.countdown ≤ 0 := by
  unfold increment
  split <;> simp <;> omega

/-- Only a slot that has no next writer yet gets one, or one at the end of its chain the marker of
the end once more. -/
theorem of_setNextWriter (h : o.setNextWriter d = some (o', b)) :
    d ≠ .ready ∧ o' = { o with nextWriter := d } ∧
      (o.nextWriter = .null ∧ b = false ∨ o.nextWriter = .ready ∧ b = true ∨
        o.nextWriter = .noOwner ∧ d = .noOwner ∧ b = false) := by
  unfold setNextWriter at h
  split at h
  · cases h
  · rename_i hd
    split at h
    · rename_i hnext
      cases h
      exact ⟨hd, rfl, .inl ⟨hnext, rfl⟩⟩
    · rename_i hnext
      cases h
      exact ⟨hd, rfl, .inr (.inl ⟨hnext, rfl⟩)⟩
    · rename_i hnext
      split at h
      · rename_i hend
        cases h
        exact ⟨hd, rfl, .inr (.inr ⟨hnext, hend, rfl⟩)⟩
      · cases h
    · cases h

end OutputNode

end Oox
