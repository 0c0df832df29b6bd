import Mathlib.Order.CompletePartialOrder
import Mathlib.Order.Interval.Set.Disjoint
import Mathlib.Order.Monotone.Basic

/-!
# Lists of intervals that tile a range

Half-open intervals tile a range when each begins where the one before it ends. Then they are
disjoint and cover the range. The values of a monotone sequence cut its range in this way.
-/

set_option autoImplicit false

namespace Library

variable {α : Type} [LinearOrder α]

/-- The intervals follow one another from `a` to `b`. -/
def Tiles (a b : α) : List (α × α) → Prop
  | [] => a = b
  | i :: l => i.1 = a ∧ a ≤ i.2 ∧ Tiles i.2 b l

namespace Tiles

variable {a b : α} {l : List (α × α)}

theorem le (h : Tiles a b l) : a ≤ b := by
  induction l generalizing a with
  | nil => exact le_of_eq h
  | cons i l ih => exact h.2.1.trans (ih h.2.2)

/-- No interval begins before the range. -/
theorem le_start (h : Tiles a b l) : ∀ i ∈ l, a ≤ i.1 := by
  induction l generalizing a with
  | nil =>
    intro i hi
    cases hi
  | cons i l ih =>
    obtain ⟨rfl, hle, hrest⟩ := h
    intro j hj
    rcases List.mem_cons.mp hj with rfl | hj
    · exact le_rfl
    · exact hle.trans (ih hrest j hj)

/-- The intervals are disjoint. -/
theorem disjoint (h : Tiles a b l) :
    l.Pairwise fun i j => Disjoint (Set.Ico i.1 i.2) (Set.Ico j.1 j.2) := by
  induction l generalizing a with
  | nil => exact .nil
  | cons i l ih =>
    refine .cons (fun j hj => ?_) (ih h.2.2)
    exact (Set.Ico_disjoint_Ico_same (a := i.1) (b := i.2) (c := j.2)).mono_right
      (Set.Ico_subset_Ico_left (h.2.2.le_start j hj))

/-- The intervals cover the range, and nothing else. -/
theorem cover (h : Tiles a b l) (x : α) :
    x ∈ Set.Ico a b ↔ ∃ i ∈ l, x ∈ Set.Ico i.1 i.2 := by
  induction l generalizing a with
  | nil =>
    obtain rfl : a = b := h
    simp
  | cons i l ih =>
    obtain ⟨rfl, hle, hrest⟩ := h
    have hb := hrest.le
    rw [← Set.Ico_union_Ico_eq_Ico hle hb]
    simp only [Set.mem_union, ih hrest, List.mem_cons, exists_eq_or_imp]

/-- The values of a monotone sequence tile their range. -/
theorem of_monotone {f : ℕ → α} (hf : Monotone f) (k n : ℕ) :
    Tiles (f k) (f (k + n)) ((List.range' k n).map fun j => (f j, f (j + 1))) := by
  induction n generalizing k with
  | zero => rfl
  | succ n ih =>
    rw [List.range'_succ, List.map_cons]
    refine ⟨rfl, hf (Nat.le_succ k), ?_⟩
    have h := ih (k + 1)
    rwa [Nat.add_right_comm, Nat.add_assoc] at h

end Tiles

end Library
