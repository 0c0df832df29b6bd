import Mathlib.Data.List.Destutter
import Mathlib.Data.List.Sort
import Mathlib.Data.Nat.Bitwise
import Mathlib.Tactic.Linarith
import Mathlib.Tactic.Ring

/-!
# Index sets in arrays

Sorted lists without repetition as sets of indices, and which indices stay in an array of
given length when one of their bits is flipped.
-/

set_option autoImplicit false

namespace Library

/-! ## Sorted lists -/

/-- Sort, then drop every element equal to the one before it. -/
def sortUnique (l : List ℤ) : List ℤ := (l.insertionSort (· ≤ ·)).destutter (· ≠ ·)

theorem sortUnique_sublist (l : List ℤ) :
    (sortUnique l).Sublist (l.insertionSort (· ≤ ·)) :=
  List.destutter_sublist _ _

/-- Dropping repeated neighbours drops no element. -/
theorem mem_destutter_ne {l : List ℤ} {a x : ℤ} (hx : x ∈ a :: l) :
    x ∈ l.destutter' (· ≠ ·) a := by
  induction l generalizing a with
  | nil => exact hx
  | cons b l ih =>
    rw [List.destutter'_cons]
    split
    · rcases List.mem_cons.mp hx with rfl | hx
      · exact List.mem_cons_self
      · exact List.mem_cons_of_mem _ (ih hx)
    · rename_i heq
      obtain rfl : a = b := not_not.mp heq
      apply ih
      rcases List.mem_cons.mp hx with rfl | hx
      · exact List.mem_cons_self
      · exact hx

theorem mem_sortUnique {l : List ℤ} {x : ℤ} : x ∈ sortUnique l ↔ x ∈ l := by
  refine ⟨fun hx => (List.mem_insertionSort _).mp ((sortUnique_sublist l).subset hx), fun hx => ?_⟩
  replace hx := (List.mem_insertionSort (· ≤ ·)).mpr hx
  unfold sortUnique
  cases hsorted : l.insertionSort (· ≤ ·) with
  | nil =>
    rw [hsorted] at hx
    cases hx
  | cons a rest =>
    rw [hsorted] at hx
    exact mem_destutter_ne hx

theorem sortUnique_pairwise (l : List ℤ) : (sortUnique l).Pairwise (· < ·) := by
  have hle : (sortUnique l).Pairwise (· ≤ ·) :=
    (List.pairwise_insertionSort (· ≤ ·) l).sublist (sortUnique_sublist l)
  have hne : (sortUnique l).IsChain (· ≠ ·) := List.isChain_destutter _ _
  -- a step of a sorted list that changes the element is strict
  have hlt : (sortUnique l).IsChain (· < ·) := by
    rw [List.isChain_iff_forall_rel_of_append_cons_cons] at hne ⊢
    intro a b l₁ l₂ hsplit
    have hstep := List.isChain_iff_forall_rel_of_append_cons_cons.mp hle.isChain hsplit
    exact lt_of_le_of_ne hstep (hne hsplit)
  exact hlt.pairwise

theorem sortUnique_length_le (l : List ℤ) : (sortUnique l).length ≤ l.length :=
  (sortUnique_sublist l).length_le.trans_eq (List.length_insertionSort _ _)

/-! ## Flipping a bit of an index -/

/-- When the array consists of whole blocks of two halves of `2 ^ k`, flipping bit `k` stays
inside it. -/
theorem flip_lt {n c k : ℕ} (hn : 2 ^ (k + 1) ∣ n) (hc : c < n) : c ^^^ 2 ^ k < n := by
  obtain ⟨q, rfl⟩ := hn
  have hblock : (c ^^^ 2 ^ k) / 2 ^ (k + 1) = c / 2 ^ (k + 1) := by
    rw [Nat.xor_div_two_pow, Nat.div_eq_of_lt (Nat.pow_lt_pow_succ one_lt_two), Nat.xor_zero]
  have hpos : 0 < 2 ^ (k + 1) := Nat.two_pow_pos _
  rw [mul_comm] at hc ⊢
  rw [← Nat.div_lt_iff_lt_mul hpos] at hc ⊢
  rwa [hblock]

/-- In an odd number of halves, flipping bit `k` moves the last half out. -/
theorem le_flip {n k : ℕ} (hn : 2 ^ k ∣ n) (hodd : ¬2 ^ (k + 1) ∣ n) :
    2 ^ k ≤ n ∧ n ≤ (n - 2 ^ k) ^^^ 2 ^ k := by
  obtain ⟨q, rfl⟩ := hn
  have hq : q % 2 = 1 := by
    by_contra heven
    apply hodd
    obtain ⟨r, rfl⟩ : 2 ∣ q := by omega
    exact ⟨r, by ring⟩
  have hpos : 0 < 2 ^ k := Nat.two_pow_pos k
  obtain ⟨r, rfl⟩ : ∃ r, q = 2 * r + 1 := ⟨q / 2, by omega⟩
  have hlast : 2 ^ k * (2 * r + 1) - 2 ^ k = 2 ^ k * (2 * r) := by
    rw [mul_add, mul_one, Nat.add_sub_cancel]
  have hflip : (2 ^ k * (2 * r) ^^^ 2 ^ k) / 2 ^ k = 2 * r + 1 := by
    rw [Nat.xor_div_two_pow, Nat.mul_div_cancel_left _ hpos, Nat.div_self hpos,
      Nat.xor_one_of_even (by simp)]
  refine ⟨Nat.le_mul_of_pos_right _ (by omega), ?_⟩
  rw [hlast]
  calc 2 ^ k * (2 * r + 1) = 2 ^ k * ((2 ^ k * (2 * r) ^^^ 2 ^ k) / 2 ^ k) := by rw [hflip]
    _ ≤ 2 ^ k * (2 * r) ^^^ 2 ^ k := Nat.mul_div_le _ _

/-- A number that is no multiple of `2 ^ m` is an odd multiple of a smaller power. -/
theorem exists_odd_multiple {n m : ℕ} (h : ¬2 ^ m ∣ n) :
    ∃ k < m, 2 ^ k ∣ n ∧ ¬2 ^ (k + 1) ∣ n := by
  induction m with
  | zero => simp at h
  | succ m ih =>
    by_cases hm : 2 ^ m ∣ n
    · exact ⟨m, by omega, hm, h⟩
    · obtain ⟨k, hk, hdvd, hodd⟩ := ih hm
      exact ⟨k, by omega, hdvd, hodd⟩

end Library
