import Oox.Analysis.Balance

/-!
# What a token says about the memory

The memory owes a token only in certain states: a task right is out only while the task
runs, a unit of a countdown only while the countdown is positive. Holding a token thus
fixes part of the state of its node.
-/

set_option autoImplicit false

namespace Oox

open Library

variable {V : Type} {m : Mem V}

theorem listedTokens_eq_zero {n : ℕ} {l : List ℕ} {k : Token} (hk : k.arc? = none) :
    listedTokens n l k = 0 := by
  induction l with
  | nil => rfl
  | cons a l ih =>
    have hne : k ≠ .listed a n := by
      rintro rfl
      cases hk
    rw [listedTokens_cons, ih, one_of_ne hne, add_zero]

theorem varTokens_eq_zero {vs : List ℕ} {k : Token} (hk : k.var? = none) :
    varTokens vs k = 0 := by
  induction vs with
  | nil => rfl
  | cons v vs ih =>
    have hne : k ≠ .var v := by
      rintro rfl
      cases hk
    have hcons : varTokens (v :: vs) k = one (.var v) k + varTokens vs k := by
      simp [varTokens]
    rw [hcons, ih, one_of_ne hne, add_zero]

theorem Head.tokens_eq_zero {n : ℕ} {h : Head} {k : Token} (hk : k.arc? = none) :
    h.tokens n k = 0 := by
  cases h with
  | list l => exact listedTokens_eq_zero hk
  | done => rfl
  | terminal a => exact one_of_ne (by rintro rfl; cases hk)
  | redirect a => exact one_of_ne (by rintro rfl; cases hk)

/-- The port of a token about a slot. -/
def Token.port? : Token → Option ℕ
  | .back _ p => some p
  | .hand _ p => some p
  | .fire _ p => some p
  | .cap _ p => some p
  | _ => none

/-- A token about a slot does not involve the other slots. -/
theorem slotBalance_eq_zero {n p q : ℕ} {k : Token} (hk : k.port? = some p) (hne : q ≠ p)
    (o : OutputNode) : slotBalance n q o k = 0 := by
  cases k <;> simp only [Token.port?, Option.some.injEq, reduceCtorEq] at hk <;>
    cases hw : o.nextWriter <;>
    simp [slotBalance, one, NextWriter.tokens, hw, hk, hne.symm]

/-- The balance of a node at a token about one of its slots. -/
theorem nodeBalance_slot {n p : ℕ} {k : Token} (hk : k.port? = some p) (x : Node V) :
    nodeBalance n x k = if p < x.slots then slotBalance n p (x.out p) k else 0 := by
  have hvar : k.var? = none := by cases k <;> simp_all [Token.port?, Token.var?]
  have harc : k.arc? = none := by cases k <;> simp_all [Token.port?, Token.arc?]
  have hlife : one (.life n) k = 0 := one_of_ne (by rintro rfl; cases hk)
  have hpre : one (.pre n) k = 0 := one_of_ne (by rintro rfl; cases hk)
  have hexec : one (.exec n) k = 0 := one_of_ne (by rintro rfl; cases hk)
  have hsetup : one (.setup n) k = 0 := one_of_ne (by rintro rfl; cases hk)
  have hforward : one (.forward n) k = 0 := one_of_ne (by rintro rfl; cases hk)
  have hdel : one (.del n) k = 0 := one_of_ne (by rintro rfl; cases hk)
  have hinner : one (.var x.inner) k = 0 := one_of_ne (by rintro rfl; cases hk)
  have harms : arms n 0 k = 0 := by cases k <;> first | rfl | cases hk
  have harm : armSupply n x.phase x.out k = 0 := by cases k <;> first | rfl | cases hk
  have hpending : x.phase.pending n k = 0 := by
    cases x.phase <;> simp [Phase.pending, hlife, hexec, harms]
  have hrights : x.phase.rights n k = 0 := by
    cases x.phase <;> simp [Phase.rights, hexec, hsetup, hforward]
  simp only [nodeBalance, hpending, hrights, harm, hpre, hlife, hdel, hinner, mul_zero, ite_self,
    Head.tokens_eq_zero harc, varTokens_eq_zero hvar, sub_zero, add_zero, zero_add]
  split
  · rename_i hp
    rw [← Finset.add_sum_erase _ _ (Finset.mem_range.mpr hp)]
    rw [Finset.sum_eq_zero fun q hq => slotBalance_eq_zero hk (Finset.ne_of_mem_erase hq) _]
    simp
  · rename_i hp
    apply Finset.sum_eq_zero
    intro q hq
    have hlt := Finset.mem_range.mp hq
    exact slotBalance_eq_zero hk (by omega) _

/-- At most the countdown of a slot is out, less the reserve of its producer. -/
theorem back_le {n p : ℕ} (hn : n < m.nodes.size) (hp : p < (m.node n).slots)
    (harmed : ((m.node n).out p).armed = true) :
    -balance m (.back n p) ≤
      ((m.node n).out p).countdown - if ((m.node n).out p).handed then 0 else 1 := by
  by_contra hlt
  have hself : balance m (.back n p) < nodeBalance n (m.node n) (.back n p) := by
    rw [nodeBalance_slot rfl, if_pos hp]
    have hnext : 0 ≤ ((m.node n).out p).nextWriter.tokens (.back n p) :=
      NextWriter.tokens_nonneg _ _
    simp only [slotBalance, one, reduceCtorEq, harmed, if_true, if_false]
    cases hhanded : ((m.node n).out p).handed <;>
      simp only [hhanded, Bool.false_eq_true, if_true, if_false] at hlt ⊢ <;>
      split <;> simp <;> (try split) <;> omega
  have hle := nodeBalance_le (m := m) (n := n) (k := .back n p) rfl hn
  omega

/-- A unit of a countdown is out only while the countdown is stored and positive. -/
theorem owed_back {n p : ℕ} {c : ℤ} (hc : 0 < c) (h : c ≤ -balance m (.back n p)) :
    n < m.nodes.size ∧ p < (m.node n).slots ∧ ((m.node n).out p).armed = true ∧
      c ≤ ((m.node n).out p).countdown - if ((m.node n).out p).handed then 0 else 1 := by
  obtain ⟨hn, hnode⟩ := owed_node rfl hc h
  rw [nodeBalance_slot rfl] at hnode
  split at hnode
  · rename_i hp
    have harmed : ((m.node n).out p).armed = true := by
      by_contra hne
      have hnext : 0 ≤ ((m.node n).out p).nextWriter.tokens (.back n p) :=
        NextWriter.tokens_nonneg _ _
      simp only [slotBalance, one, reduceCtorEq, if_true, if_false, hne, false_and] at hnode
      split at hnode <;> split at hnode <;> simp at hnode <;> omega
    have hle := back_le hn hp harmed
    exact ⟨hn, hp, harmed, by omega⟩
  · omega

/-- The producer's own count is out from the store of the countdown to its subtraction. -/
theorem owed_hand {n p : ℕ} (h : 0 < -balance m (.hand n p)) :
    n < m.nodes.size ∧ p < (m.node n).slots ∧ ((m.node n).out p).armed = true ∧
      ((m.node n).out p).handed = false ∧ -balance m (.hand n p) ≤ 1 := by
  obtain ⟨hn, h⟩ := owed_node rfl h le_rfl
  rw [nodeBalance_slot rfl] at h
  split at h
  · rename_i hp
    have hslot : -slotBalance n p ((m.node n).out p) (.hand n p) =
        if ((m.node n).out p).armed ∧ ((m.node n).out p).handed = false then 1 else 0 := by
      cases hw : ((m.node n).out p).nextWriter <;>
        simp [slotBalance, one, NextWriter.tokens, hw]
    rw [hslot] at h
    split at h
    · rename_i hcond
      exact ⟨hn, hp, hcond.1, hcond.2, h⟩
    · omega
  · omega

/-- The call of `notify_next_writer` is due when the countdown is zero and no call was made. -/
theorem owed_fire {n p : ℕ} (h : 0 < -balance m (.fire n p)) :
    n < m.nodes.size ∧ p < (m.node n).slots ∧ ((m.node n).out p).armed = true ∧
      ((m.node n).out p).countdown = 0 ∧ ((m.node n).out p).notified = 0 ∧
      -balance m (.fire n p) ≤ 1 := by
  obtain ⟨hn, h⟩ := owed_node rfl h le_rfl
  rw [nodeBalance_slot rfl] at h
  split at h
  · rename_i hp
    have hslot : -slotBalance n p ((m.node n).out p) (.fire n p) =
        if ((m.node n).out p).armed ∧ ((m.node n).out p).countdown = 0 ∧
          ((m.node n).out p).notified = 0 then 1 else 0 := by
      cases hw : ((m.node n).out p).nextWriter <;>
        simp [slotBalance, one, NextWriter.tokens, hw]
    rw [hslot] at h
    split at h
    · rename_i hcond
      exact ⟨hn, hp, hcond.1, hcond.2.1, hcond.2.2, h⟩
    · omega
  · omega

/-- The next writer can be set until it is. -/
theorem owed_cap {n p : ℕ} (h : 0 < -balance m (.cap n p)) :
    n < m.nodes.size ∧ p < (m.node n).slots ∧
      (((m.node n).out p).nextWriter = .null ∨ ((m.node n).out p).nextWriter = .ready) ∧
      -balance m (.cap n p) ≤ 1 := by
  obtain ⟨hn, h⟩ := owed_node rfl h le_rfl
  rw [nodeBalance_slot rfl] at h
  split at h
  · rename_i hp
    have hslot : -slotBalance n p ((m.node n).out p) (.cap n p) =
        if ((m.node n).out p).nextWriter = .null ∨ ((m.node n).out p).nextWriter = .ready
          then 1 else 0 := by
      cases hw : ((m.node n).out p).nextWriter <;>
        simp [slotBalance, one, NextWriter.tokens, hw]
    rw [hslot] at h
    split at h
    · rename_i hcond
      exact ⟨hn, hp, hcond, h⟩
    · omega
  · omega

/-- A var in memory that names a slot keeps everybody else from setting its next writer. -/
theorem cap_not_owed {v n : ℕ} (hv : v < m.vars.size) (hborrowed : (m.var v).borrowed = false)
    (htask : (m.var v).currentTask = some n) :
    0 ≤ balance m (.cap n (m.var v).currentPort) := by
  by_contra hneg
  obtain ⟨hn, hp, -, -⟩ := owed_cap (m := m) (n := n) (p := (m.var v).currentPort) (by omega)
  have hnode : -1 ≤ nodeBalance n (m.node n) (.cap n (m.var v).currentPort) := by
    rw [nodeBalance_slot rfl, if_pos hp]
    simp only [slotBalance, one_of_ne (t := .life n) (k := .cap n _) (by simp),
      one_of_ne (t := .back n _) (k := .cap n _) (by simp),
      one_of_ne (t := .hand n _) (k := .cap n _) (by simp),
      one_of_ne (t := .fire n _) (k := .cap n _) (by simp), mul_zero, ite_self]
    have hnext := ((m.node n).out (m.var v).currentPort).nextWriter.tokens_nonneg
      (.cap n (m.var v).currentPort)
    rw [one_self]
    split <;> split <;> omega
  have hvar : 1 ≤ varBalance v (m.vars.cell v) (.cap n (m.var v).currentPort) := by
    have howns := Var.one_le_owns htask
    unfold Mem.var at howns hborrowed ⊢
    simpa [varBalance, hborrowed, one] using howns
  have hother := (others_nonneg (m := m) (k := .cap n (m.var v).currentPort) rfl).2
  have hnodes := Heap.le_sum hn (f := fun j x => nodeBalance j x (.cap n (m.var v).currentPort))
    fun j _ hj => hother j hj
  have hvars := Heap.le_sum hv (f := fun j u => varBalance j u (.cap n (m.var v).currentPort))
    fun j _ _ => varBalance_nonneg (by simp [Token.var?]) _
  have harcs : 0 ≤ m.arcs.sum fun a x => arcBalance a x (.cap n (m.var v).currentPort) :=
    arcs_nonneg rfl
  have hcontrols : 0 ≤ m.controls.sum
      fun c x => controlBalance c x (.cap n (m.var v).currentPort) := controls_nonneg rfl
  have hleft := varTokens_nonneg m.left (.cap n (m.var v).currentPort)
  unfold balance at hneg
  unfold Mem.node at hnode
  omega

/-- The slots of a node only hold what is not about its execution. -/
theorem slots_nonneg {n : ℕ} {x : Node V} {k : Token} (hk : k.port? = none) :
    0 ≤ ∑ p ∈ Finset.range x.slots, slotBalance n p (x.out p) k := by
  apply Finset.sum_nonneg
  intro p _
  have hback : one (.back n p) k = 0 := one_of_ne (by rintro rfl; cases hk)
  have hhand : one (.hand n p) k = 0 := one_of_ne (by rintro rfl; cases hk)
  have hfire : one (.fire n p) k = 0 := one_of_ne (by rintro rfl; cases hk)
  have hcap : one (.cap n p) k = 0 := one_of_ne (by rintro rfl; cases hk)
  have hlife := one_nonneg (.life n) k
  have hnext := (x.out p).nextWriter.tokens_nonneg k
  simp only [slotBalance, hback, hhand, hfire, hcap, mul_zero, ite_self, sub_zero, add_zero]
  split <;> omega

/-- A prerequisite is out only while the task waits for it. -/
theorem owed_pre {n : ℕ} {c : ℤ} (hc : 0 < c) (h : c ≤ -balance m (.pre n)) :
    n < m.nodes.size ∧ c ≤ (m.node n).phase.prerequisites (m.node n).startCount.count := by
  obtain ⟨hn, h⟩ := owed_node rfl hc h
  refine ⟨hn, ?_⟩
  have hslots := slots_nonneg (n := n) (x := m.node n) (k := .pre n) rfl
  have hpending : (m.node n).phase.pending n (.pre n) = 0 := by
    cases (m.node n).phase <;> simp [Phase.pending, one, arms]
  have hrights : (m.node n).phase.rights n (.pre n) = 0 := by
    cases (m.node n).phase <;> simp [Phase.rights, one]
  simp only [nodeBalance, hpending, hrights, armSupply, one, reduceCtorEq, if_true, if_false,
    Head.tokens_eq_zero (k := .pre n) rfl, varTokens_eq_zero (k := .pre n) rfl, ite_self,
    mul_one, mul_zero] at h
  omega

/-- A task has an outstanding prerequisite for every arc that waits for it. -/
theorem pre_of_waiting {a : ℕ} (ha : a < m.arcs.size) (halive : (m.arc a).alive = true)
    (hrole : (m.arc a).role = .waiting) (hbal : balance m (.pre (m.arc a).node) ≤ 0) :
    (m.arc a).node < m.nodes.size ∧
      0 < (m.node (m.arc a).node).phase.prerequisites
        (m.node (m.arc a).node).startCount.count := by
  have hcarries : arcBalance a (m.arc a) (.pre (m.arc a).node) = 1 := by
    have htoken : Token.pre (m.arc a).node ≠ (m.arc a).token a := by
      unfold Arc.token
      split
      · simp
      · rw [hrole]
        simp
    simp [arcBalance, halive, Arc.carries, hrole, one_of_ne htoken, one_of_ne (t := .control _)]
  -- the memory without the arc owes its prerequisite
  have hwithout := balance_setArc m (.pre (m.arc a).node) ha { m.arc a with alive := false }
  have hdead : arcBalance a { m.arc a with alive := false } (.pre (m.arc a).node) = 0 := rfl
  rw [hcarries, hdead] at hwithout
  obtain ⟨hn, hle⟩ := owed_pre (n := (m.arc a).node) (c := 1)
    (m := m.setArc a { m.arc a with alive := false }) one_pos (by omega)
  exact ⟨hn, by exact Int.lt_of_lt_of_le one_pos hle⟩

/-- A reference is out only while the node is live; in its set-up a task keeps them all. -/
theorem owed_life {n : ℕ} {c : ℤ} (hc : 0 < c) (h : c ≤ -balance m (.life n))
    (hsetup : (m.node n).phase = .setup → ∀ p, ((m.node n).out p).notified = 0) :
    n < m.nodes.size ∧ (m.node n).status = .live ∧ (m.node n).phase ≠ .setup ∧
      c ≤ (m.node n).lifeCount := by
  obtain ⟨hn, h⟩ := owed_node rfl hc h
  have hslots := slots_nonneg (n := n) (x := m.node n) (k := .life n) rfl
  have hrights : (m.node n).phase.rights n (.life n) = 0 := by
    cases (m.node n).phase <;> simp [Phase.rights, one]
  simp only [nodeBalance, hrights, armSupply, one, reduceCtorEq, if_true, if_false,
    Head.tokens_eq_zero (k := .life n) rfl, varTokens_eq_zero (k := .life n) rfl, ite_self,
    mul_one, mul_zero] at h
  have hpending : 0 ≤ (m.node n).phase.pending n (.life n) := by
    cases (m.node n).phase <;> simp [Phase.pending, one, arms]
  unfold lifeSupply at h
  by_cases hlive : (m.node n).status = .live
  · rw [if_pos hlive] at h
    by_cases hphase : (m.node n).phase = .setup
    · -- the pending run and every slot still hold their reference
      exfalso
      have hself : (m.node n).phase.pending n (.life n) = 1 := by
        rw [hphase]
        simp [Phase.pending, one, arms]
      have hall : ((m.node n).slots : ℤ) ≤
          ∑ p ∈ Finset.range (m.node n).slots, slotBalance n p ((m.node n).out p) (.life n) := by
        have hone : ∀ p ∈ Finset.range (m.node n).slots,
            (1 : ℤ) ≤ slotBalance n p ((m.node n).out p) (.life n) := by
          intro p _
          have hnext := ((m.node n).out p).nextWriter.tokens_nonneg (.life n)
          simp only [slotBalance, hsetup hphase p, one, reduceCtorEq, if_true, if_false]
          simp
          omega
        have hle := Finset.sum_le_sum hone
        simpa using hle
      rw [if_pos hphase, hself] at h
      omega
    · rw [if_neg hphase] at h
      exact ⟨hn, hlive, hphase, by omega⟩
  · rw [if_neg hlive] at h
    omega

/-- The balance of a node at a token about its execution. -/
theorem owed_phase {n : ℕ} {k : Token} (hk : k.node? = some n) (hport : k.port? = none)
    (hlife : k ≠ .life n) (hpre : k ≠ .pre n) (h : 0 < -balance m k) :
    n < m.nodes.size ∧ 0 < -balance m k ∧
      -balance m k ≤ (m.node n).phase.rights n k - (m.node n).phase.pending n k +
        armSupply n (m.node n).phase (m.node n).out k +
        if (m.node n).status = .destroying then one (.del n) k else 0 := by
  obtain ⟨hn, hle⟩ := owed_node hk h le_rfl
  refine ⟨hn, h, ?_⟩
  have hslots := slots_nonneg (n := n) (x := m.node n) (k := k) hport
  have harc : k.arc? = none := by cases k <;> simp_all [Token.node?, Token.arc?]
  have hvar : k.var? = none := by cases k <;> simp_all [Token.node?, Token.var?]
  have hinner : one (.var (m.node n).inner) k = 0 := one_of_ne (by rintro rfl; cases hk)
  simp only [nodeBalance, one_of_ne hlife, one_of_ne hpre, hinner, Head.tokens_eq_zero harc,
    varTokens_eq_zero hvar, ite_self, mul_zero] at hle
  omega

/-- The right to run a task is out only while the task runs. -/
theorem owed_exec {n : ℕ} (h : 0 < -balance m (.exec n)) :
    n < m.nodes.size ∧ (m.node n).phase = .running ∧ -balance m (.exec n) ≤ 1 := by
  obtain ⟨hn, hpos, hle⟩ := owed_phase (k := .exec n) rfl rfl nofun nofun h
  cases hphase : (m.node n).phase <;>
    simp [hphase, Phase.rights, Phase.pending, one, arms, armSupply] at hle <;>
    first | omega | exact ⟨hn, rfl, by omega⟩

theorem owed_forward {n : ℕ} (h : 0 < -balance m (.forward n)) :
    n < m.nodes.size ∧ (m.node n).phase = .forwarding ∧ -balance m (.forward n) ≤ 1 := by
  obtain ⟨hn, hpos, hle⟩ := owed_phase (k := .forward n) rfl rfl nofun nofun h
  cases hphase : (m.node n).phase <;>
    simp [hphase, Phase.rights, Phase.pending, one, arms, armSupply] at hle <;>
    first | omega | exact ⟨hn, rfl, by omega⟩

theorem owed_setup {n : ℕ} (h : 0 < -balance m (.setup n)) :
    n < m.nodes.size ∧ (m.node n).phase = .setup ∧ -balance m (.setup n) ≤ 1 := by
  obtain ⟨hn, hpos, hle⟩ := owed_phase (k := .setup n) rfl rfl nofun nofun h
  cases hphase : (m.node n).phase <;>
    simp [hphase, Phase.rights, Phase.pending, one, arms, armSupply] at hle <;>
    first | omega | exact ⟨hn, rfl, by omega⟩

theorem owed_del {n : ℕ} (h : 0 < -balance m (.del n)) :
    n < m.nodes.size ∧ (m.node n).status = .destroying ∧ -balance m (.del n) ≤ 1 := by
  obtain ⟨hn, hpos, hle⟩ := owed_phase (k := .del n) rfl rfl nofun nofun h
  have hrights : (m.node n).phase.rights n (.del n) = 0 := by
    cases (m.node n).phase <;> simp [Phase.rights, one]
  have hpending : (m.node n).phase.pending n (.del n) = 0 := by
    cases (m.node n).phase <;> simp [Phase.pending, one, arms]
  simp only [hrights, hpending, armSupply, one_self] at hle
  split at hle
  · rename_i hstatus
    exact ⟨hn, hstatus, by omega⟩
  · omega

/-- The countdowns that are not stored yet belong to whoever runs the task. -/
theorem owed_arm {n p : ℕ} (h : 0 < -balance m (.arm n p)) :
    n < m.nodes.size ∧ ((m.node n).out p).armed = false ∧ (m.node n).phase ≠ .finished ∧
      -balance m (.arm n p) ≤ 1 := by
  obtain ⟨hn, hpos, hle⟩ := owed_phase (k := .arm n p) rfl rfl nofun nofun h
  have hrights : (m.node n).phase.rights n (.arm n p) = 0 := by
    cases (m.node n).phase <;> simp [Phase.rights, one]
  have hpending : 0 ≤ (m.node n).phase.pending n (.arm n p) := by
    cases (m.node n).phase <;> simp [Phase.pending, one, arms]
  simp only [hrights, armSupply, one, reduceCtorEq, if_false, ite_self, true_and] at hle
  split at hle
  · rename_i hcond
    exact ⟨hn, hcond.2, hcond.1, by omega⟩
  · omega

end Oox
