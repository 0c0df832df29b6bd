import Oox.TaskBench.Patterns

/-!
# The dependencies of Task-Bench are in range

Every generator but `fft_deps` and `tree_deps` only yields columns of the row. Those two flip
one bit of the column, which stays in the row when the row consists of whole blocks.
-/

set_option autoImplicit false

namespace Oox.TaskBench

open Library

variable {F : Type} {cfg : Config F} {width row col : ℕ}

/-- A list of columns of a row of `width` columns. -/
def Columns (width : ℕ) (out : List ℤ) : Prop := ∀ c ∈ out, 0 ≤ c ∧ c < width

theorem Columns.nil : Columns width [] := by
  intro c hc
  cases hc

theorem Columns.append {out : List ℤ} (h : Columns width out) {c : ℤ} (hc : 0 ≤ c ∧ c < width) :
    Columns width (out ++ [c]) := by
  intro x hx
  rcases List.mem_append.mp hx with hx | hx
  · exact h x hx
  · obtain rfl := List.mem_singleton.mp hx
    exact hc

theorem Columns.appendDepIfValid {out : List ℤ} (h : Columns width out) (c : ℤ) :
    Columns width (appendDepIfValid out width c) := by
  unfold TaskBench.appendDepIfValid
  split
  · rename_i hc
    exact h.append hc
  · exact h

theorem Columns.sortUnique {out : List ℤ} (h : Columns width out) :
    Columns width (sortUnique out) :=
  fun c hc => h c (mem_sortUnique.mp hc)

theorem Columns.foldl {α : Type} {f : List ℤ → α → List ℤ}
    (hf : ∀ out x, Columns width out → Columns width (f out x)) (l : List α) {out : List ℤ}
    (h : Columns width out) : Columns width (l.foldl f out) := by
  induction l generalizing out with
  | nil => exact h
  | cons x l ih => exact ih (hf out x h)

/-! ## The generators -/

theorem nearestDeps_columns : Columns width (nearestDeps cfg width col) :=
  Columns.foldl (fun _ _ h => h.appendDepIfValid _) _ .nil

theorem spreadDeps_columns (hcol : col < width) : Columns width (spreadDeps cfg width col) := by
  have hself : Columns width [(col : ℤ)] := Columns.nil.append (by omega)
  unfold spreadDeps
  split
  · exact .nil
  · split
    · exact hself
    · exact Columns.foldl (fun _ _ h => h.appendDepIfValid _) _ .nil

/-- A remainder is a column. -/
theorem mod_column (hcol : col < width) (h : BitVec 64) :
    0 ≤ ((h.toNat % width : ℕ) : ℤ) ∧ ((h.toNat % width : ℕ) : ℤ) < width := by
  have hlt := Nat.mod_lt h.toNat (show width > 0 by omega)
  omega

theorem randomCandidates_columns (count : ℤ) :
    Columns width (randomCandidates cfg width row col count) := by
  have hfold : ∀ l : List ℕ, (∀ c ∈ l, c < width) → ∀ out, Columns width out →
      Columns width (l.foldl (fun out candidate =>
        if (out.length : ℤ) < count then
          let h := mix64 (cfg.seed ^^^ hashPoint (BitVec.ofNat 64 row) col candidate width)
          if ((h.toNat % width : ℕ) : ℤ) < count then out ++ [(candidate : ℤ)] else out
        else out) out) := by
    intro l
    induction l with
    | nil => exact fun _ out h => h
    | cons c l ih =>
      intro hl out h
      apply ih fun x hx => hl x (List.mem_cons_of_mem _ hx)
      have hc := hl c List.mem_cons_self
      dsimp only
      split
      · split
        · exact h.append (by omega)
        · exact h
      · exact h
  exact hfold _ (fun c hc => List.mem_range.mp hc) _ .nil

theorem randomFill_columns (hcol : col < width) {count : ℤ} {left salt : ℕ}
    {out result : List ℤ} (h : Columns width out)
    (hfill : randomFill cfg width row col count left salt out = some result) :
    Columns width result := by
  induction left generalizing salt out with
  | zero =>
    unfold randomFill at hfill
    split at hfill
    · cases hfill
    · obtain rfl := Option.some.inj hfill
      exact h
  | succ left ih =>
    unfold randomFill at hfill
    split at hfill
    · exact ih (h.append (mod_column hcol _)).sortUnique hfill
    · obtain rfl := Option.some.inj hfill
      exact h

/-! ## Flipped bits -/

theorem countLevels_eq {fuel w : ℕ} (h : w ≤ fuel) : countLevels fuel w = Nat.log 2 w := by
  induction fuel generalizing w with
  | zero =>
    obtain rfl : w = 0 := by omega
    simp [countLevels]
  | succ fuel ih =>
    unfold countLevels
    split
    · rename_i hlt
      rw [ih (by omega), Nat.log_of_one_lt_of_le one_lt_two hlt]
    · rw [Nat.log_of_lt (by omega)]

theorem levels_eq (width : ℕ) : levels width = Nat.log 2 width := countLevels_eq le_rfl

theorem flip_columns {k : ℕ} (hcol : col < width) :
    Columns width [(col : ℤ), (col ^^^ 1 <<< k : ℕ)] ↔ col ^^^ 2 ^ k < width := by
  simp only [Columns, List.forall_mem_cons, Nat.one_shiftLeft, List.not_mem_nil]
  constructor
  · intro h
    exact_mod_cast h.2.1.2
  · intro h
    refine ⟨by omega, ⟨Int.natCast_nonneg _, by exact_mod_cast h⟩, ?_⟩
    intro c hc
    exact hc.elim

theorem treeLevel_lt {levels row : ℕ} (hlevels : levels ≠ 0) : treeLevel levels row < levels := by
  have hlt := Nat.mod_lt (row - 1) (show 2 * levels > 0 by omega)
  unfold treeLevel
  dsimp only
  split <;> omega

theorem treeLevel_le {levels row : ℕ} : treeLevel levels row ≤ row - 1 := by
  unfold treeLevel
  dsimp only
  have hle := Nat.mod_le (row - 1) (2 * levels)
  split <;> omega

theorem treeLevel_eq {levels row : ℕ} (hrow : row - 1 < levels) :
    treeLevel levels row = row - 1 := by
  unfold treeLevel
  rw [Nat.mod_eq_of_lt (by omega), if_pos hrow]

/-! ## Accepted configurations -/

/-- What `validate_config` establishes. -/
structure Accepted (workers : ℤ) (cfg : Config F) : Prop where
  height : 0 < cfg.height
  width : 0 < resolvedWidth workers cfg
  fft : cfg.pattern = .fft → ∃ k, (resolvedWidth workers cfg).toNat = 2 ^ k

/-- A check that did not throw. -/
theorem of_check {p : Prop} [Decidable p] {e : String} {x : Except String Unit}
    (h : (if p then Except.error e else x) = .ok ()) : ¬p ∧ x = .ok () := by
  split at h
  · cases h
  · exact ⟨‹_›, h⟩

theorem accepted_of_validateConfig {negative : F → Bool} {workers : ℤ} {cfg : Config F}
    (h : validateConfig negative workers cfg = .ok ()) : Accepted workers cfg := by
  unfold validateConfig at h
  dsimp only [bind, Except.bind, pure, Except.pure, throw, throwThe, MonadExceptOf.throw] at h
  obtain ⟨hheight, h⟩ := of_check h
  obtain ⟨-, h⟩ := of_check h
  obtain ⟨-, h⟩ := of_check h
  obtain ⟨-, h⟩ := of_check h
  obtain ⟨-, h⟩ := of_check h
  obtain ⟨-, h⟩ := of_check h
  obtain ⟨-, h⟩ := of_check h
  obtain ⟨-, h⟩ := of_check h
  obtain ⟨-, h⟩ := of_check h
  obtain ⟨hwidth, h⟩ := of_check h
  obtain ⟨hfft, -⟩ := of_check h
  refine ⟨by omega, by omega, fun hpattern => ?_⟩
  have hand : (resolvedWidth workers cfg).toNat &&& ((resolvedWidth workers cfg).toNat - 1) = 0 := by
    have hpred : (resolvedWidth workers cfg - 1).toNat = (resolvedWidth workers cfg).toNat - 1 := by
      omega
    rw [← hpred]
    by_contra hne
    exact hfft ⟨hpattern, hne⟩
  exact (Nat.and_sub_one_eq_zero_iff_isPowerOfTwo (by omega)).mp hand

/-- What the runners rely on when they index the previous row. -/
structure InRange (width : ℕ) (out : List ℤ) : Prop where
  increasing : out.Pairwise (· < ·)
  bounded : out.length ≤ maxDeps
  columns : Columns width out

theorem inRange_of_columns {out : List ℤ} (h : Columns width out) :
    InRange width ((sortUnique out).take maxDeps) where
  increasing := (sortUnique_pairwise out).sublist (List.take_sublist _ _)
  bounded := List.length_take_le _ _
  columns c hc := h.sortUnique c (List.mem_of_mem_take hc)

/-- Short lists are not cut off. -/
theorem inRange_iff_columns {out : List ℤ} (hlen : out.length ≤ maxDeps) :
    InRange width ((sortUnique out).take maxDeps) ↔ Columns width out := by
  refine ⟨fun h c hc => h.columns c ?_, inRange_of_columns⟩
  rw [List.take_of_length_le ((sortUnique_length_le out).trans hlen)]
  exact mem_sortUnique.mpr hc

/-! ## The patterns -/

/-- The generators that never leave the row. -/
theorem patternDeps_columns {out : List ℤ} (hcol : col < width) (hfft : cfg.pattern ≠ .fft)
    (htree : cfg.pattern ≠ .tree) (h : patternDeps cfg width row col = some out) :
    Columns width out := by
  unfold patternDeps at h
  split at h
  case h_1 => exact Option.some.inj h ▸ .nil
  case h_2 =>
    exact Option.some.inj h ▸ (Columns.nil.appendDepIfValid _ |>.appendDepIfValid _).appendDepIfValid _
  case h_3 => exact Option.some.inj h ▸ (Columns.nil.appendDepIfValid _).appendDepIfValid _
  case h_4 => exact Option.some.inj h ▸ nearestDeps_columns
  case h_5 => exact Option.some.inj h ▸ spreadDeps_columns hcol
  case h_6 hpattern => exact absurd hpattern hfft
  case h_7 hpattern => exact absurd hpattern htree
  case h_8 => exact randomFill_columns hcol (randomCandidates_columns _) h

/-- `fft_deps` leaves the row only when the row is a single column. -/
theorem fftDeps_columns {k : ℕ} (hwidth : width = 2 ^ k) (hcol : col < width) :
    Columns width (fftDeps width row col) ↔ width ≠ 1 := by
  unfold fftDeps
  dsimp only
  rw [flip_columns hcol, levels_eq, hwidth, Nat.log_pow one_lt_two]
  cases k with
  | zero =>
    obtain rfl : col = 0 := by simpa [hwidth] using hcol
    simp
  | succ k =>
    have hbit := Nat.mod_lt (row - 1) (show max 1 (k + 1) > 0 by omega)
    have hdvd : 2 ^ ((row - 1) % max 1 (k + 1) + 1) ∣ 2 ^ (k + 1) := Nat.pow_dvd_pow _ (by omega)
    have hne : 2 ^ (k + 1) ≠ 1 := by
      have := Nat.one_lt_two_pow (show k + 1 ≠ 0 by omega)
      omega
    exact ⟨fun _ => hne, fun _ => flip_lt hdvd (hwidth ▸ hcol)⟩

/-- `tree_deps` stays in all rows up to `height` when the width is a multiple of every block
whose bit it flips there. -/
theorem treeDeps_columns {height : ℕ} :
    (∀ row col, 1 ≤ row → row < height → col < width → Columns width (treeDeps width row col)) ↔
      2 ^ min (height - 1) (Nat.log 2 width) ∣ width := by
  unfold treeDeps
  rw [levels_eq]
  constructor
  · intro h
    by_contra hno
    obtain ⟨k, hk, hdvd, hodd⟩ := exists_odd_multiple hno
    obtain ⟨hle, hflip⟩ := le_flip hdvd hodd
    have hpos := Nat.two_pow_pos k
    -- the row that flips bit `k`, and the first column of the last half block
    have hcolumns := h (k + 1) (width - 2 ^ k) (by omega) (by omega) (by omega)
    rw [if_neg (by omega), flip_columns (by omega), treeLevel_eq (by omega)] at hcolumns
    simp only [Nat.add_sub_cancel] at hcolumns
    omega
  · intro hdvd row col hrow hheight hcol
    split
    · exact Columns.nil.append (by omega)
    · rename_i hlevels
      have hlt : treeLevel (Nat.log 2 width) row < Nat.log 2 width := treeLevel_lt hlevels
      have hle : treeLevel (Nat.log 2 width) row ≤ row - 1 := treeLevel_le
      rw [flip_columns hcol]
      exact flip_lt ((Nat.pow_dvd_pow _ (by omega)).trans hdvd) hcol

/-- The list `dependency_columns` returns is in range when the generated columns are. -/
theorem dependencyColumns_inRange {out : List ℤ}
    (hcolumns : ∀ l, patternDeps cfg width row col = some l → Columns width l)
    (h : dependencyColumns cfg width row col = some out) : InRange width out := by
  unfold dependencyColumns at h
  split at h
  · obtain rfl := Option.some.inj h
    exact ⟨.nil, Nat.zero_le _, .nil⟩
  · obtain ⟨l, hl, rfl⟩ := Option.map_eq_some_iff.mp h
    exact inRange_of_columns (hcolumns l hl)

/-- A list of two columns is in range exactly when both columns are. -/
theorem dependencyColumns_inRange_pair {l : List ℤ} (hrow : 1 ≤ row)
    (hpattern : cfg.pattern ≠ .trivial) (hlen : l.length ≤ maxDeps)
    (hl : patternDeps cfg width row col = some l) :
    (∀ out, dependencyColumns cfg width row col = some out → InRange width out) ↔
      Columns width l := by
  have hnot : ¬(row = 0 ∨ cfg.pattern = .trivial) := by
    rintro (hzero | htrivial)
    · omega
    · exact hpattern htrivial
  unfold dependencyColumns
  rw [if_neg hnot, hl]
  simp only [Option.map_some, Option.some.injEq, forall_eq']
  exact inRange_iff_columns hlen

/-- The dependencies of a configuration are in range exactly when no bit flip leaves the row:
`fft` needs two columns, `tree` a width that is a multiple of the blocks it visits. -/
theorem dependencyColumns_inRange_iff (negative : F → Bool) (workers : ℤ) (cfg : Config F)
    (haccept : validateConfig negative workers cfg = .ok ()) :
    (∀ (row col : ℕ) (out : List ℤ), 1 ≤ row → row < cfg.height →
      col < resolvedWidth workers cfg →
      dependencyColumns cfg (resolvedWidth workers cfg).toNat row col = some out →
      InRange (resolvedWidth workers cfg).toNat out) ↔
    (cfg.pattern = .fft → cfg.height = 1 ∨ resolvedWidth workers cfg ≠ 1) ∧
    (cfg.pattern = .tree → 2 ^ min (cfg.height.toNat - 1)
      (Nat.log 2 (resolvedWidth workers cfg).toNat) ∣ (resolvedWidth workers cfg).toNat) := by
  obtain ⟨hheight, hwidth, hpower⟩ := accepted_of_validateConfig haccept
  generalize resolvedWidth workers cfg = w at hwidth hpower ⊢
  obtain ⟨width, rfl⟩ := Int.eq_ofNat_of_zero_le hwidth.le
  simp only [Int.toNat_natCast, Nat.cast_lt, ne_eq, Nat.cast_eq_one] at hpower ⊢
  by_cases hfft : cfg.pattern = .fft
  · obtain ⟨k, hk⟩ := hpower hfft
    have hdeps : ∀ row col, patternDeps cfg width row col = some (fftDeps width row col) := by
      intro row col
      simp [patternDeps, hfft]
    refine ⟨fun h => ⟨fun _ => ?_, by simp [hfft]⟩, fun h row col out hrow hlt hcol => ?_⟩
    · by_contra hno
      rw [not_or, not_not] at hno
      have hcol : 0 < width := by omega
      have hrange := (dependencyColumns_inRange_pair le_rfl (by simp [hfft])
        (by simp [fftDeps, maxDeps]) (hdeps 1 0)).mp fun out => h 1 0 out le_rfl (by omega) hcol
      exact (fftDeps_columns hk hcol).mp hrange hno.2
    · refine dependencyColumns_inRange fun l hl => ?_
      obtain rfl := Option.some.inj ((hdeps row col).symm.trans hl)
      exact (fftDeps_columns hk hcol).mpr ((h.1 hfft).resolve_left (by omega))
  · by_cases htree : cfg.pattern = .tree
    · have hdeps : ∀ row col, patternDeps cfg width row col = some (treeDeps width row col) := by
        intro row col
        simp [patternDeps, htree]
      have hlen : ∀ row col, (treeDeps width row col).length ≤ maxDeps := by
        intro row col
        unfold treeDeps maxDeps
        split <;> simp
      have hrows : (∀ (row col : ℕ) (out : List ℤ), 1 ≤ row → row < cfg.height → col < width →
          dependencyColumns cfg width row col = some out → InRange width out) ↔
          ∀ row col, 1 ≤ row → row < cfg.height.toNat → col < width →
            Columns width (treeDeps width row col) := by
        refine ⟨fun h row col hrow hlt hcol => ?_, fun h row col out hrow hlt hcol hout => ?_⟩
        · exact (dependencyColumns_inRange_pair hrow (by simp [htree]) (hlen row col) (hdeps row col)).mp
            fun out => h row col out hrow (by omega) hcol
        · exact (dependencyColumns_inRange_pair hrow (by simp [htree]) (hlen row col) (hdeps row col)).mpr
            (h row col hrow (by omega) hcol) out hout
      rw [hrows, treeDeps_columns]
      exact ⟨fun h => ⟨fun h' => absurd h' hfft, fun _ => h⟩, fun h => h.2 htree⟩
    · refine ⟨fun _ => ⟨fun h => absurd h hfft, fun h => absurd h htree⟩, ?_⟩
      intro _ row col out _ _ hcol
      exact dependencyColumns_inRange fun l hl => patternDeps_columns hcol hfft htree hl

/-- A tree over `width` columns. -/
def treeConfig (width : ℤ) : Config Unit := { width := width, pattern := .tree, imbalance := () }

theorem dependencyColumns_inRange_iff_four :
    validateConfig (fun _ => false) 1 (treeConfig 4) = .ok () ∧
      ∀ (row col : ℕ) (out : List ℤ), 1 ≤ row → (row : ℤ) < 1000 → (col : ℤ) < 4 →
        dependencyColumns (treeConfig 4) 4 row col = some out → InRange 4 out := by
  have hdvd : 2 ^ min ((1000 : ℤ).toNat - 1) (Nat.log 2 4) ∣ 4 := by decide
  refine ⟨rfl, ?_⟩
  exact (dependencyColumns_inRange_iff (fun _ => false) 1 (treeConfig 4) rfl).mpr
    ⟨by simp [treeConfig], fun _ => hdvd⟩

/-- In a tree over three columns the first row flips the last column out of the row. -/
theorem dependencyColumns_tree_three :
    validateConfig (fun _ => false) 1 (treeConfig 3) = .ok () ∧
      dependencyColumns (treeConfig 3) 3 1 2 = some [2, 3] ∧ ¬InRange 3 [2, 3] := by
  refine ⟨rfl, by decide, fun h => ?_⟩
  have hlast := h.columns 3 (by simp)
  omega

end Oox.TaskBench
