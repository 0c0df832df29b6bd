import Oox.Library.Tiling
import Mathlib.Data.List.Basic
import Mathlib.Data.Nat.Cast.Order.Ring
import Mathlib.Algebra.Order.Ring.Int

/-!
# The partition of a range among the slots of RapidStart

`distribution_base::run` and `distribution_function::execute` (rapid_start.h:23-53). Each sum,
product, quotient and remainder of the type `int` has a result only when it fits.
-/

set_option autoImplicit false

namespace Oox.RapidStart

open Library

/-- `mask_t`. -/
abbrev Mask := BitVec 64

/-- `mask_t(1)<<i`. -/
def bit (i : ℕ) : Mask := 1#64 <<< i

/-- `mask&(mask_t(1)<<i)`. -/
def hasBit (mask : Mask) (i : ℕ) : Bool := mask &&& bit i != 0

/-- The values of the type `int`. -/
def IsInt (x : ℤ) : Prop := -2147483648 ≤ x ∧ x ≤ 2147483647

instance (x : ℤ) : Decidable (IsInt x) := inferInstanceAs (Decidable (_ ∧ _))

/-- The result of an operation on `int`, unless it overflows. -/
def checked (x : ℤ) : Option ℤ := if IsInt x then some x else none

theorem checked_of_isInt {x : ℤ} (h : IsInt x) : checked x = some x := if_pos h

/-- `a / b`. -/
def divInt (a b : ℤ) : Option ℤ := if b = 0 then none else checked (a.tdiv b)

/-- `a % b`, which is undefined where `a / b` is. -/
def modInt (a b : ℤ) : Option ℤ := (divInt a b).map fun _ => a.tmod b

/-- What the body is called with. -/
structure Call where
  start : ℤ
  stop : ℤ
  part : ℤ
  deriving DecidableEq, Repr

/-- `distribution_function::execute`. -/
def execute (myStart myEnd part parts : ℤ) : Option Call := do
  let range ← checked (myEnd - myStart)
  let step ← divInt range parts
  let remainder ← modInt range parts
  let start ← checked (myStart + (← checked (part * step)))
  let start ← checked (start + min remainder part)
  let part ← checked (part + 1)
  let stop ← checked (myStart + (← checked (part * step)))
  let stop ← checked (stop + min remainder part)
  return ⟨start, stop, part⟩

/-- The loop of `distribution_base::run` over some bits of the mask, with the values of `part`
and `parts`. -/
def countParts (slot : ℕ) (mask : Mask) : List ℕ → ℕ × ℕ → ℕ × ℕ
  | [], p => p
  | i :: l, (part, parts) =>
    if hasBit mask i then countParts slot mask l (if i = slot then parts else part, parts + 1)
    else countParts slot mask l (part, parts)

/-- The bits that the loop looks at. -/
def bits : List ℕ := List.range' 1 63

/-- `distribution_base::run`. -/
def run (myStart myEnd : ℤ) (slot : ℕ) (mask : Mask) : Option Call :=
  let p := countParts slot mask bits (0, 1)
  execute myStart myEnd p.1 p.2

/-- The slots that run: slot 0 and the bits of the mask. -/
def slots (mask : Mask) : List ℕ := 0 :: bits.filter (hasBit mask)

/-! ## The part of a slot -/

theorem countParts_eq (slot : ℕ) (mask : Mask) (l : List ℕ) (hl : l.Nodup) (part parts : ℕ) :
    countParts slot mask l (part, parts) =
      (if slot ∈ l.filter (hasBit mask) then parts + (l.filter (hasBit mask)).idxOf slot else part,
        parts + (l.filter (hasBit mask)).length) := by
  induction l generalizing part parts with
  | nil => simp [countParts]
  | cons i l ih =>
    obtain ⟨hi, hl⟩ := List.nodup_cons.mp hl
    rw [countParts]
    by_cases hbit : hasBit mask i = true
    · rw [if_pos hbit, ih hl, List.filter_cons_of_pos hbit]
      by_cases hslot : i = slot
      · subst hslot
        have hnot : i ∉ l.filter (hasBit mask) := fun hmem => hi (List.mem_filter.mp hmem).1
        rw [if_neg hnot, if_pos rfl, if_pos List.mem_cons_self, List.idxOf_cons_self,
          List.length_cons]
        congr 1
        omega
      · have hmem : slot ∈ i :: l.filter (hasBit mask) ↔ slot ∈ l.filter (hasBit mask) := by
          rw [List.mem_cons, or_iff_right (fun h => hslot h.symm)]
        simp only [hmem, if_neg hslot, List.idxOf_cons_ne _ hslot, List.length_cons]
        congr 1
        · split_ifs <;> omega
        · omega
    · rw [if_neg hbit, ih hl, List.filter_cons_of_neg hbit]

/-- Each slot gets the part of its rank among the slots that run. -/
theorem countParts_slots (mask : Mask) {k : ℕ} (hk : k < (slots mask).length) :
    countParts (slots mask)[k] mask bits (0, 1) = (k, (slots mask).length) := by
  have hnodup : bits.Nodup := List.nodup_range'
  rw [countParts_eq _ _ _ hnodup]
  cases k with
  | zero =>
    have hnot : 0 ∉ bits.filter (hasBit mask) := by
      intro hmem
      have hpos := List.mem_range'_1.mp (List.mem_filter.mp hmem).1
      omega
    simp [slots, hnot, add_comm]
  | succ k =>
    have hk' : k < (bits.filter (hasBit mask)).length := by
      simpa [slots] using hk
    have hget : (slots mask)[k + 1] = (bits.filter (hasBit mask))[k] := by
      simp [slots]
    rw [hget, if_pos (List.getElem_mem hk'), List.Nodup.idxOf_getElem (hnodup.filter _)]
    simp [slots, add_comm]

/-! ## The bounds of a part -/

/-- Where part `k` of `n` begins, counted from the start of the range. -/
def cut (range n k : ℕ) : ℕ := k * (range / n) + min (range % n) k

theorem cut_zero (range n : ℕ) : cut range n 0 = 0 := by
  simp [cut]

theorem cut_last {range n : ℕ} (hn : 0 < n) : cut range n n = range := by
  rw [cut, min_eq_left (Nat.mod_lt range hn).le, Nat.div_add_mod]

/-- Each part has the length `range / n`, or one more. -/
theorem cut_succ (range n k : ℕ) :
    cut range n (k + 1) = cut range n k + range / n + if k < range % n then 1 else 0 := by
  unfold cut
  rw [Nat.succ_mul]
  split_ifs <;> omega

theorem cut_monotone (range n : ℕ) : Monotone (cut range n) := by
  apply monotone_nat_of_le_succ
  intro k
  rw [cut_succ, Nat.add_assoc]
  exact Nat.le_add_right _ _

/-- `execute` has a result for every part. -/
theorem execute_eq {s e : ℤ} (hs : IsInt s) (he : IsInt e) (hle : s ≤ e) (hrange : IsInt (e - s))
    {k n : ℕ} (hk : k < n) (hn : n ≤ 64) :
    execute s e k n =
      some ⟨s + cut (e - s).toNat n k, s + cut (e - s).toNat n (k + 1), (k + 1 : ℕ)⟩ := by
  obtain ⟨range, hr⟩ := Int.eq_ofNat_of_zero_le (sub_nonneg.mpr hle)
  have hpos : 0 < n := by omega
  have hmono := cut_monotone range n
  have hlast : cut range n n = range := cut_last hpos
  have hfirst : cut range n k ≤ cut range n (k + 1) := hmono (Nat.le_succ k)
  have hsecond : cut range n (k + 1) ≤ range := by
    calc cut range n (k + 1) ≤ cut range n n := hmono hk
      _ = range := hlast
  have hdiv : range / n ≤ range := Nat.div_le_self range n
  have hproduct : ∀ j, j * (range / n) ≤ cut range n j := fun j => Nat.le_add_right _ _
  have hj := hproduct k
  have hj' := hproduct (k + 1)
  unfold IsInt at hs he hrange
  rw [hr] at hrange
  -- every intermediate value lies between the bounds
  have hint : ∀ x : ℕ, x ≤ range → IsInt x ∧ IsInt (s + x) := by
    intro x hx
    unfold IsInt
    omega
  have htdiv : (range : ℤ).tdiv n = (range / n : ℕ) := by
    rw [Int.tdiv_eq_ediv_of_nonneg (Int.natCast_nonneg range)]
    rfl
  have htmod : (range : ℤ).tmod n = (range % n : ℕ) := by
    rw [Int.tmod_eq_emod_of_nonneg (Int.natCast_nonneg range)]
    rfl
  have hstep : divInt range n = some ((range / n : ℕ) : ℤ) := by
    rw [divInt, if_neg (by omega), htdiv, checked_of_isInt (hint _ hdiv).1]
  have hremainder : modInt range n = some ((range % n : ℕ) : ℤ) := by
    rw [modInt, hstep, Option.map_some, htmod]
  have hbound : ∀ j : ℕ, cut range n j ≤ range →
      checked (j * (range / n : ℕ) : ℤ) = some ((j * (range / n) : ℕ) : ℤ) ∧
      checked (s + (j * (range / n) : ℕ)) = some (s + (j * (range / n) : ℕ) : ℤ) ∧
      checked (s + (j * (range / n) : ℕ) + min ((range % n : ℕ) : ℤ) j) = some (s + cut range n j : ℤ) := by
    intro j hj
    have hcast : (j * (range / n : ℕ) : ℤ) = (j * (range / n) : ℕ) := (Nat.cast_mul _ _).symm
    have hsum : s + (j * (range / n) : ℕ) + min ((range % n : ℕ) : ℤ) j = s + cut range n j := by
      rw [cut, Nat.cast_add, Nat.cast_min, add_assoc]
    have hfit := hint _ ((hproduct j).trans hj)
    refine ⟨?_, checked_of_isInt hfit.2, ?_⟩
    · rw [hcast]
      exact checked_of_isInt hfit.1
    · rw [hsum]
      exact checked_of_isInt (hint _ hj).2
  obtain ⟨h1, h2, h3⟩ := hbound k (hfirst.trans hsecond)
  obtain ⟨h4, h5, h6⟩ := hbound (k + 1) hsecond
  have hpart : checked ((k : ℤ) + 1) = some ((k + 1 : ℕ) : ℤ) := by
    apply checked_of_isInt
    unfold IsInt
    omega
  have hrange' : checked (e - s) = some (range : ℤ) := by
    rw [hr]
    exact checked_of_isInt hrange
  have htonat : (e - s).toNat = range := by omega
  simp only [execute, hrange', hstep, hremainder, h1, h2, h3, hpart, h4, h5, h6, htonat,
    Option.bind_eq_bind, Option.bind_some, Option.pure_def]

/-! ## The ranges of the slots -/

theorem length_slots (mask : Mask) : 0 < (slots mask).length ∧ (slots mask).length ≤ 64 := by
  have hle := List.length_filter_le (hasBit mask) bits
  have hbits : bits.length = 63 := rfl
  simp only [slots, List.length_cons]
  omega

/-- What slot `k` of those that run calls the body with. -/
def callOf (s e : ℤ) (n k : ℕ) : Call :=
  ⟨s + cut (e - s).toNat n k, s + cut (e - s).toNat n (k + 1), (k + 1 : ℕ)⟩

/-- The slots that run, in increasing order, call the body with the parts of the range. -/
theorem map_run {s e : ℤ} (hs : IsInt s) (he : IsInt e) (hle : s ≤ e) (hrange : IsInt (e - s))
    (mask : Mask) : (slots mask).map (fun slot => run s e slot mask) =
      ((List.range (slots mask).length).map (callOf s e (slots mask).length)).map some := by
  apply List.ext_getElem
  · simp
  · intro k hk hk'
    rw [List.length_map] at hk
    have hcount := countParts_slots mask hk
    have hbound := (length_slots mask).2
    simp only [List.getElem_map, List.getElem_range, run, hcount]
    exact execute_eq hs he hle hrange hk hbound

/-- For every range and mask, the slots that run call the body with consecutive intervals that
are disjoint, cover the range and differ in length by at most one; nothing overflows. -/
theorem ranges_tile {s e : ℤ} (hs : IsInt s) (he : IsInt e) (hle : s ≤ e) (hrange : IsInt (e - s))
    (mask : Mask) : ∃ calls : List Call,
      (slots mask).map (fun slot => run s e slot mask) = calls.map some ∧
      Tiles s e (calls.map fun c => (c.start, c.stop)) ∧
      calls.Pairwise
        (fun c d => ∀ x, c.start ≤ x → x < c.stop → ¬ (d.start ≤ x ∧ x < d.stop)) ∧
      (∀ x, s ≤ x ∧ x < e ↔ ∃ c ∈ calls, c.start ≤ x ∧ x < c.stop) ∧
      ∀ c ∈ calls, ∀ d ∈ calls, c.stop - c.start ≤ d.stop - d.start + 1 := by
  have hpos := (length_slots mask).1
  have hmap := map_run hs he hle hrange mask
  generalize (slots mask).length = n at hpos hmap
  have hmono : Monotone fun k => s + (cut (e - s).toNat n k : ℤ) := by
    intro j k hjk
    have h := cut_monotone (e - s).toNat n hjk
    dsimp only
    omega
  have htiles : Tiles s e (((List.range n).map (callOf s e n)).map fun c => (c.start, c.stop)) := by
    have h := Tiles.of_monotone hmono 0 n
    rw [Nat.zero_add, cut_zero, cut_last hpos, ← List.range_eq_range'] at h
    have hend : s + ((e - s).toNat : ℤ) = e := by omega
    rw [hend, Nat.cast_zero, add_zero] at h
    rw [List.map_map]
    exact h
  refine ⟨(List.range n).map (callOf s e n), hmap, htiles, ?_, fun x => ?_, ?_⟩
  · have hdisjoint := htiles.disjoint
    rw [List.pairwise_map] at hdisjoint
    refine hdisjoint.imp fun {c d} h x hle hlt hmem => ?_
    have hfirst : x ∈ Set.Ico c.start c.stop := ⟨hle, hlt⟩
    exact Set.disjoint_left.mp h hfirst hmem
  · have hcover := htiles.cover x
    simpa using hcover
  · intro c hc d hd
    obtain ⟨j, -, rfl⟩ := List.mem_map.mp hc
    obtain ⟨k, -, rfl⟩ := List.mem_map.mp hd
    have hj := cut_succ (e - s).toNat n j
    have hk := cut_succ (e - s).toNat n k
    simp only [callOf]
    split_ifs at hj hk <;> omega

/-- Ten elements among slot 0 and two workers. -/
theorem ranges_tile_three : IsInt 0 ∧ IsInt 10 ∧ ∃ calls : List Call,
    (slots (bit 3 ||| bit 5)).map (fun slot => run 0 10 slot (bit 3 ||| bit 5)) = calls.map some ∧
    Tiles 0 10 (calls.map fun c => (c.start, c.stop)) := by
  obtain ⟨calls, hcalls, htiles, -⟩ :=
    ranges_tile (s := 0) (e := 10) (by decide) (by decide) (by decide) (by decide) (bit 3 ||| bit 5)
  exact ⟨by decide, by decide, calls, hcalls, htiles⟩

example : (slots (bit 3 ||| bit 5)).map (fun slot => run 0 10 slot (bit 3 ||| bit 5)) =
    [some ⟨0, 4, 1⟩, some ⟨4, 7, 2⟩, some ⟨7, 10, 3⟩] := by
  decide

end Oox.RapidStart
