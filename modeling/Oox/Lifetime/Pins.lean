import Oox.Lifetime.Account

/-!
# What keeps a node alive

A node lives as long as a reference on it is unreleased. A slot keeps a reference on its node
until its next writer is notified, so every right that is out while a slot is not notified pins
the node: a prerequisite, the right to run or to set up a task, a unit of a countdown, the right
to set the next writer. So does a var that names the node.
-/

set_option autoImplicit false

namespace Oox

open Library

variable {V : Type}

/-! ## References are never negative -/

theorem Var.references_nonneg (u : Var) (n : ℕ) : 0 ≤ u.references n := by
  unfold Var.references
  split <;> decide

theorem OutputNode.references_nonneg (o : OutputNode) (q n : ℕ) : 0 ≤ o.references q n := by
  unfold OutputNode.references
  repeat' split
  all_goals decide

theorem Phase.references_nonneg (phase : Phase) : 0 ≤ phase.references := by
  cases phase <;> decide

theorem Node.references_nonneg (x : Node V) (q n : ℕ) : 0 ≤ x.references q n := by
  have hslots : 0 ≤ ∑ p ∈ Finset.range x.slots, (x.out p).references q n :=
    Finset.sum_nonneg fun p _ => (x.out p).references_nonneg q n
  have hphase := x.phase.references_nonneg
  unfold Node.references
  split <;> omega

/-! ## Pins -/

/-- The rights that are out only while node `n` is live. -/
def Token.Pins (n : ℕ) : Token → Prop
  | .life q => q = n
  | .pre q => q = n
  | .back q _ => q = n
  | .hand q _ => q = n
  | .fire q _ => q = n
  | .cap q _ => q = n
  | .setup q => q = n
  | .exec q => q = n
  | .forward q => q = n
  | _ => False

variable {m : Mem V} {n p : ℕ}

/-- A slot that is not notified keeps its node. -/
theorem live_of_slot (hbal : balance m (.life n) ≤ 0) (hn : n < m.nodes.size)
    (hp : p < (m.node n).slots) (hnot : ((m.node n).out p).notified = 0) :
    (m.node n).status = .live := by
  have hslot : 1 ≤ ((m.node n).out p).references n n := by
    unfold OutputNode.references
    rw [if_pos hnot, if_pos rfl]
    split <;> decide
  have hle : ((m.node n).out p).references n n ≤ (m.node n).references n n := by
    have hsum := Finset.single_le_sum (f := fun q => ((m.node n).out q).references n n)
      (fun q _ => OutputNode.references_nonneg _ n n) (Finset.mem_range.mpr hp)
    have hphase := (m.node n).phase.references_nonneg
    unfold Node.references
    rw [if_pos rfl]
    omega
  have hnodes := Heap.le_sum hn (f := fun q (x : Node V) => x.references q n)
    fun q _ _ => Node.references_nonneg _ q n
  have hvars : 0 ≤ m.vars.sum fun _ u => if u.borrowed then 0 else u.references n :=
    Heap.sum_nonneg _ _ fun _ _ => by
      split
      · exact le_rfl
      · exact Var.references_nonneg _ n
  rw [balance_life, if_pos hn] at hbal
  have hcounts : 0 < (m.node n).counts := by
    unfold Mem.node at hle hslot ⊢
    unfold Mem.node at hbal
    omega
  by_contra hdead
  simp [Node.counts, lifeSupply, hdead] at hcounts

namespace MemOk

/-- No slot of a task is notified before the task has finished. -/
theorem notified_of_phase (hok : MemOk m) (hn : n < m.nodes.size)
    (hphase : (m.node n).phase ≠ .finished) (p : ℕ) : ((m.node n).out p).notified = 0 := by
  by_contra hne
  exact hphase (hok.finished_of_notified hn hne)

/-- A task lives until it has finished. -/
theorem live_of_phase (hok : MemOk m) (hbal : balance m (.life n) ≤ 0) (hn : n < m.nodes.size)
    (hphase : (m.node n).phase ≠ .finished) : (m.node n).status = .live :=
  live_of_slot hbal hn (hok.node n hn).slots.1 (hok.notified_of_phase hn hphase 0)

/-- A slot that is not handed over, or still has units of its countdown, is not notified. -/
theorem notified_of_handed (hok : MemOk m) (hn : n < m.nodes.size)
    (hslot : ((m.node n).out p).handed = false ∨ ((m.node n).out p).countdown ≠ 0) :
    ((m.node n).out p).notified = 0 := by
  by_contra hne
  obtain ⟨-, hhanded, hcount, -⟩ := ((hok.node n hn).slot p).notified hne
  rcases hslot with hfalse | hpos
  · rw [hhanded] at hfalse
    cases hfalse
  · exact hpos hcount

/-- A slot whose next writer can still be set is not notified. -/
theorem notified_of_open (hok : MemOk m) (hn : n < m.nodes.size)
    (hopen : ((m.node n).out p).nextWriter = .null ∨ ((m.node n).out p).nextWriter = .ready) :
    ((m.node n).out p).notified = 0 := by
  by_contra hne
  obtain ⟨-, -, -, hnull, hready⟩ := ((hok.node n hn).slot p).notified hne
  exact hopen.elim hnull hready

/-- Whoever has a right that pins a node keeps it. -/
theorem live_of_pin (hok : MemOk m) (hbal : balance m (.life n) ≤ 0) {k : Token} (hk : k.Pins n)
    (howed : 0 < -balance m k) : (m.node n).status = .live := by
  cases k with
  | life q =>
    obtain rfl : q = n := hk
    exact (hok.live_of_owed one_pos howed).2.1
  | pre q =>
    obtain rfl : q = n := hk
    obtain ⟨hn, hle⟩ := owed_pre (m := m) one_pos howed
    refine hok.live_of_phase hbal hn fun hfin => ?_
    rw [hfin] at hle
    simp [Phase.prerequisites] at hle
  | back q p =>
    obtain rfl : q = n := hk
    obtain ⟨hn, hp, -, hle⟩ := owed_back (m := m) one_pos howed
    refine live_of_slot hbal hn hp (hok.notified_of_handed hn (.inr ?_))
    split at hle <;> omega
  | hand q p =>
    obtain rfl : q = n := hk
    obtain ⟨hn, hp, -, hhanded, -⟩ := owed_hand howed
    exact live_of_slot hbal hn hp (hok.notified_of_handed hn (.inl hhanded))
  | fire q p =>
    obtain rfl : q = n := hk
    obtain ⟨hn, hp, -, -, hnot, -⟩ := owed_fire howed
    exact live_of_slot hbal hn hp hnot
  | cap q p =>
    obtain rfl : q = n := hk
    obtain ⟨hn, hp, hopen, -⟩ := owed_cap howed
    exact live_of_slot hbal hn hp (hok.notified_of_open hn hopen)
  | setup q =>
    obtain rfl : q = n := hk
    obtain ⟨hn, hphase, -⟩ := owed_setup howed
    exact hok.live_of_phase hbal hn (by simp [hphase])
  | exec q =>
    obtain rfl : q = n := hk
    obtain ⟨hn, hphase, -⟩ := owed_exec howed
    exact hok.live_of_phase hbal hn (by simp [hphase])
  | forward q =>
    obtain rfl : q = n := hk
    obtain ⟨hn, hphase, -⟩ := owed_forward howed
    exact hok.live_of_phase hbal hn (by simp [hphase])
  | _ => exact hk.elim

/-! ## Vars -/

/-- The next writer of the version a var names is not set yet. -/
theorem open_of_own (hok : MemOk m) {v : ℕ} (hv : v < m.vars.size)
    (hborrowed : (m.var v).borrowed = false) (htask : (m.var v).currentTask = some n)
    (hbal : balance m (.cap n (m.var v).currentPort) ≤ 0) :
    ((m.node n).out (m.var v).currentPort).nextWriter = .null ∨
      ((m.node n).out (m.var v).currentPort).nextWriter = .ready := by
  obtain ⟨hn, hp⟩ := (hok.var v hv).slot n htask
  by_contra hset
  have hnode : 0 ≤ nodeBalance n (m.node n) (.cap n (m.var v).currentPort) := by
    have hnext := ((m.node n).out (m.var v).currentPort).nextWriter.tokens_nonneg
      (.cap n (m.var v).currentPort)
    rw [nodeBalance_slot rfl, if_pos hp, slotBalance, if_neg hset]
    simp only [one_of_ne (t := .life n) (k := .cap n _) (by simp),
      one_of_ne (t := .back n _) (k := .cap n _) (by simp),
      one_of_ne (t := .hand n _) (k := .cap n _) (by simp),
      one_of_ne (t := .fire n _) (k := .cap n _) (by simp), mul_zero, ite_self]
    split <;> omega
  have hvar : 1 ≤ varBalance v (m.vars.cell v) (.cap n (m.var v).currentPort) := by
    have howns := Var.one_le_owns htask
    unfold Mem.var at howns hborrowed ⊢
    simpa [varBalance, hborrowed, one] using howns
  have hother := (others_nonneg (m := m) (k := .cap n (m.var v).currentPort) rfl).2
  have hnodes : 0 ≤ m.nodes.sum fun j x => nodeBalance j x (.cap n (m.var v).currentPort) := by
    apply Heap.sum_nonneg
    intro j _
    by_cases hj : j = n
    · subst hj
      exact hnode
    · exact hother j hj
  have hvars := Heap.le_sum hv (f := fun j u => varBalance j u (.cap n (m.var v).currentPort))
    fun j _ _ => varBalance_nonneg (by simp [Token.var?]) _
  have harcs : 0 ≤ m.arcs.sum fun a x => arcBalance a x (.cap n (m.var v).currentPort) :=
    arcs_nonneg rfl
  have hcontrols : 0 ≤ m.controls.sum
      fun c x => controlBalance c x (.cap n (m.var v).currentPort) := controls_nonneg rfl
  have hleft := varTokens_nonneg m.left (.cap n (m.var v).currentPort)
  unfold balance at hbal
  omega

/-- A var names the same version as the one it was copied from. -/
theorem original (hok : MemOk m) {v : ℕ} (hv : v < m.vars.size) :
    ∃ w < m.vars.size, (m.var w).borrowed = false ∧
      (m.var w).currentTask = (m.var v).currentTask ∧
      (m.var w).currentPort = (m.var v).currentPort := by
  cases hborrowed : (m.var v).borrowed with
  | false => exact ⟨v, hv, hborrowed, rfl, rfl⟩
  | true =>
    obtain ⟨w, hw, -, hown, heq⟩ := (hok.var v hv).borrowed hborrowed
    exact ⟨w, hw, hown, by rw [heq], by rw [heq]⟩

/-- While a var names a version, nobody has set its next writer. -/
theorem open_of_var (hok : MemOk m) (hbal : ∀ k, balance m k ≤ 0) {v : ℕ} (hv : v < m.vars.size)
    (htask : (m.var v).currentTask = some n) :
    ((m.node n).out (m.var v).currentPort).nextWriter = .null ∨
      ((m.node n).out (m.var v).currentPort).nextWriter = .ready := by
  obtain ⟨w, hw, hown, hsame, hport⟩ := hok.original hv
  rw [← hport]
  exact hok.open_of_own hw hown (hsame.trans htask) (hbal _)

/-- A var keeps the task whose result or storage it names. -/
theorem live_of_var (hok : MemOk m) (hbal : ∀ k, balance m k ≤ 0) {v : ℕ} (hv : v < m.vars.size)
    (htask : (m.var v).currentTask = some n) : (m.node n).status = .live := by
  obtain ⟨hn, hp⟩ := (hok.var v hv).slot n htask
  exact live_of_slot (hbal _) hn hp (hok.notified_of_open hn (hok.open_of_var hbal hv htask))

end MemOk

end Oox
