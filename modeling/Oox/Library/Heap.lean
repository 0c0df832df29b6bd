import Mathlib.Algebra.BigOperators.Group.Finset.Basic
import Mathlib.Algebra.Order.BigOperators.Group.Finset
import Mathlib.Algebra.Order.Group.Int
import Mathlib.Data.Finset.Range
import Mathlib.Tactic.Ring

/-!
# Heaps with a summable content

A heap is a growing array of cells addressed by natural numbers. Accounting
arguments attach an integer to every cell and follow the total while cells are
overwritten and allocated; `Heap.sum_set` and `Heap.sum_push` are the only facts
about totals such an argument needs.
-/

set_option autoImplicit false

namespace Library

/-- A growing array of cells. Cells at or above `size` are not allocated yet. -/
structure Heap (α : Type) where
  size : ℕ
  cell : ℕ → α

namespace Heap

variable {α : Type}

/-- The heap with no allocated cell. -/
def empty [Inhabited α] : Heap α := ⟨0, fun _ => default⟩

/-- Overwrite one cell. -/
def set (h : Heap α) (i : ℕ) (x : α) : Heap α :=
  ⟨h.size, fun j => if j = i then x else h.cell j⟩

/-- Allocate the next cell. -/
def push (h : Heap α) (x : α) : Heap α :=
  ⟨h.size + 1, fun j => if j = h.size then x else h.cell j⟩

/-- The total of `f` over the allocated cells. -/
def sum (h : Heap α) (f : ℕ → α → ℤ) : ℤ :=
  ∑ i ∈ Finset.range h.size, f i (h.cell i)

@[simp] theorem size_set (h : Heap α) (i : ℕ) (x : α) : (h.set i x).size = h.size := rfl

@[simp] theorem size_push (h : Heap α) (x : α) : (h.push x).size = h.size + 1 := rfl

theorem cell_set (h : Heap α) (i j : ℕ) (x : α) :
    (h.set i x).cell j = if j = i then x else h.cell j := rfl

theorem cell_push (h : Heap α) (j : ℕ) (x : α) :
    (h.push x).cell j = if j = h.size then x else h.cell j := rfl

@[simp] theorem cell_set_self (h : Heap α) (i : ℕ) (x : α) : (h.set i x).cell i = x := by
  simp [cell_set]

theorem cell_set_of_ne (h : Heap α) {i j : ℕ} (x : α) (hne : j ≠ i) :
    (h.set i x).cell j = h.cell j := by
  simp [cell_set, hne]

@[simp] theorem cell_push_self (h : Heap α) (x : α) : (h.push x).cell h.size = x := by
  simp [cell_push]

theorem cell_push_of_ne (h : Heap α) {j : ℕ} (x : α) (hne : j ≠ h.size) :
    (h.push x).cell j = h.cell j := by
  simp [cell_push, hne]

/-- Overwriting an allocated cell changes the total by the difference at that cell. -/
theorem sum_set (h : Heap α) {i : ℕ} (hi : i < h.size) (x : α) (f : ℕ → α → ℤ) :
    (h.set i x).sum f = h.sum f + (f i x - f i (h.cell i)) := by
  have hmem : i ∈ Finset.range h.size := Finset.mem_range.mpr hi
  unfold sum
  rw [size_set, ← Finset.add_sum_erase _ _ hmem,
    ← Finset.add_sum_erase (Finset.range h.size) (fun j => f j (h.cell j)) hmem]
  have hrest : ∑ j ∈ (Finset.range h.size).erase i, f j ((h.set i x).cell j) =
      ∑ j ∈ (Finset.range h.size).erase i, f j (h.cell j) := by
    apply Finset.sum_congr rfl
    intro j hj
    rw [cell_set_of_ne h x (Finset.ne_of_mem_erase hj)]
  rw [hrest, cell_set_self]
  ring

/-- Allocating a cell adds its value to the total. -/
theorem sum_push (h : Heap α) (x : α) (f : ℕ → α → ℤ) :
    (h.push x).sum f = h.sum f + f h.size x := by
  unfold sum
  rw [size_push, Finset.sum_range_succ, cell_push_self]
  congr 1
  apply Finset.sum_congr rfl
  intro j hj
  rw [cell_push_of_ne h x (Finset.mem_range.mp hj).ne]

/-- A total whose other summands are nonnegative is at least the remaining one. -/
theorem le_sum {h : Heap α} {i : ℕ} (hi : i < h.size) {f : ℕ → α → ℤ}
    (hf : ∀ j < h.size, j ≠ i → 0 ≤ f j (h.cell j)) : f i (h.cell i) ≤ h.sum f := by
  have hrest : 0 ≤ ∑ j ∈ (Finset.range h.size).erase i, f j (h.cell j) :=
    Finset.sum_nonneg fun j hj => hf j
      (Finset.mem_range.mp (Finset.mem_of_mem_erase hj)) (Finset.ne_of_mem_erase hj)
  unfold sum
  rw [← Finset.add_sum_erase _ (fun j => f j (h.cell j)) (Finset.mem_range.mpr hi)]
  exact le_add_of_nonneg_right hrest

/-- A total of nonnegative values is nonnegative. -/
theorem sum_nonneg (h : Heap α) (f : ℕ → α → ℤ) (hf : ∀ j < h.size, 0 ≤ f j (h.cell j)) :
    0 ≤ h.sum f :=
  Finset.sum_nonneg fun j hj => hf j (Finset.mem_range.mp hj)

/-- A positive total has a positive summand. -/
theorem exists_pos_of_sum_pos (h : Heap α) (f : ℕ → α → ℤ) (hf : 0 < h.sum f) :
    ∃ i < h.size, 0 < f i (h.cell i) := by
  by_contra hno
  have hle : h.sum f ≤ 0 := by
    apply Finset.sum_nonpos
    intro i hi
    by_contra hpos
    exact hno ⟨i, Finset.mem_range.mp hi, by omega⟩
  omega

end Heap

end Library
