import Oox.Versions.Holders

/-!
# The owner of a version's storage is alive

From a version whose slot is not notified the storage is handed from writer to writer, each of
them still waiting, up to the version that a var names or whose end marker holds the reference
on the owner. So the owner is alive, and with it every storage that a running task reads or
writes.
-/

set_option autoImplicit false

namespace Oox

open Library

variable {V : Type}

section Memory

variable {m : Mem V} {n p q : ℕ}

/-- A node that a slot counts for is live. -/
theorem live_of_references (hbal : balance m (.life n) ≤ 0) (hq : q < m.nodes.size)
    (hpos : 0 < (m.node q).references q n) : (m.node n).status = .live := by
  have hnodes := Heap.le_sum hq (f := fun q (x : Node V) => x.references q n)
    fun q _ _ => Node.references_nonneg _ q n
  have hvars : 0 ≤ m.vars.sum fun _ u => if u.borrowed then 0 else u.references n :=
    Heap.sum_nonneg _ _ fun _ _ => by
      split
      · exact le_rfl
      · exact Var.references_nonneg _ n
  rw [balance_life] at hbal
  unfold Mem.node at hpos
  split at hbal
  · have hcounts : 0 < (m.node n).counts := by omega
    by_contra hdead
    simp [Node.counts, lifeSupply, hdead] at hcounts
  · omega

/-- The owner in an end marker that was not notified is live. -/
theorem live_of_endMarker (hbal : balance m (.life n) ≤ 0) (hq : q < m.nodes.size)
    (hp : p < (m.node q).slots) (hnot : ((m.node q).out p).notified = 0)
    (hend : ((m.node q).out p).nextWriter = .owner n) : (m.node n).status = .live := by
  apply live_of_references hbal hq
  have hslot : 1 ≤ ((m.node q).out p).references q n := by
    unfold OutputNode.references
    rw [if_pos hnot, if_pos hend]
    split <;> decide
  have hsum := Finset.single_le_sum (f := fun i => ((m.node q).out i).references q n)
    (fun i _ => OutputNode.references_nonneg _ q n) (Finset.mem_range.mpr hp)
  have hphase := (m.node q).phase.references_nonneg
  unfold Node.references
  split <;> omega

/-- A var in memory keeps the owner of its storage. -/
theorem live_of_owner (hbal : balance m (.life n) ≤ 0) {v : ℕ} (hv : v < m.vars.size)
    (hborrowed : (m.var v).borrowed = false) (htask : (m.var v).currentTask ≠ none)
    (howner : (m.var v).owner = some n) : (m.node n).status = .live := by
  have hself : (m.var v).references n = 1 := by
    unfold Var.references
    rw [if_pos ⟨Option.isSome_iff_ne_none.mpr htask, howner⟩]
  have hnodes : 0 ≤ m.nodes.sum fun q (x : Node V) => x.references q n :=
    Heap.sum_nonneg _ _ fun q _ => Node.references_nonneg _ q n
  have hvars := Heap.le_sum hv (f := fun _ u => if u.borrowed then 0 else Var.references u n)
    fun _ _ _ => by
      split
      · exact le_rfl
      · exact Var.references_nonneg _ n
  unfold Mem.var at hself hborrowed
  rw [hborrowed, hself, if_neg (by decide)] at hvars
  rw [balance_life] at hbal
  split at hbal
  · have hcounts : 0 < (m.node n).counts := by omega
    by_contra hdead
    simp [Node.counts, lifeSupply, hdead] at hcounts
  · omega

/-- The next writer of a slot that was not notified still waits. -/
theorem pre_of_slot (hn : n < m.nodes.size) (hp : p < (m.node n).slots) {d : ℕ}
    (hnext : ((m.node n).out p).nextWriter = .node d) (hnot : ((m.node n).out p).notified = 0)
    (hbal : balance m (.pre d) ≤ 0) :
    d < m.nodes.size ∧ 0 < (m.node d).phase.prerequisites (m.node d).startCount.count := by
  -- the memory with the slot notified owes the prerequisite
  obtain ⟨o, hnext', hnot'⟩ : ∃ o : OutputNode, o.nextWriter = .node d ∧ o.notified = 1 :=
    ⟨{ (m.node n).out p with notified := 1 }, hnext, rfl⟩
  have hset := balance_setOut m (.pre d) hn hp o
  have hone : one (.pre d) (.pre d) = 1 := one_self _
  simp [slotBalance, slotArm, NextWriter.tokens, hnext, hnot, hnext', hnot', one] at hset
  obtain ⟨hd, hle⟩ := owed_pre (n := d) (c := 1) (m := m.setOut n p o) one_pos (by omega)
  refine ⟨hd, ?_⟩
  have hphase : ((m.setOut n p o).node d).phase = (m.node d).phase := by
    unfold Mem.setOut
    rw [Mem.node_setNode]
    split
    · rename_i heq
      rw [heq]
    · rfl
  have hcount : ((m.setOut n p o).node d).startCount = (m.node d).startCount := by
    unfold Mem.setOut
    rw [Mem.node_setNode]
    split
    · rename_i heq
      rw [heq]
    · rfl
  rw [hphase, hcount] at hle
  omega

/-- A task with an outstanding prerequisite has not finished. -/
theorem Phase.unfinished {phase : Phase} {count : ℕ} (h : 0 < phase.prerequisites count) :
    phase = .setup ∨ phase = .waiting ∨ phase = .suspended := by
  cases phase <;> simp_all [Phase.prerequisites]

end Memory

/-! ## Configurations -/

/-- A safe configuration whose memory and stacks know the storages of all versions. -/
structure Stored (c : State V) : Prop where
  safe : Safe c
  store : StoreOk c.mem
  threads : ∀ l ∈ c.threads, StackOk Instr.Stored c.mem l

namespace Stored

variable {c : State V} {n p o : ℕ} {s : StoragePtr}

theorem balance_le (h : Stored c) (hbound : Bounded c.mem) (k : Token) :
    balance c.mem k ≤ 0 := by
  have hlaw := h.safe.sound.law k
  have hpos := h.safe.sound.holdings hbound
  have hsum := threadSum_nonneg fun l hl ins hins => hpos l hl ins hins k
  omega

/-- The memory owes what any instruction on a stack holds. -/
theorem covered (h : Stored c) (hbound : Bounded c.mem) {l : List (Instr V)} (hl : l ∈ c.threads)
    {ins : Instr V} (hins : ins ∈ l) : Covered c.mem ins := by
  intro k
  have hpos := h.safe.sound.holdings hbound
  have hle := le_stackSum (k := k) (fun x hx => hpos l hl x hx k) hins
  exact hle.trans (stack_le_owed (Balanced.backed h.safe.sound.law) hpos hl k)

/-- A task that somebody holds a prerequisite of has notified nothing. -/
theorem waits (h : Stored c) {d : ℕ}
    (hpre : 0 < -balance c.mem (.pre d)) (i : ℕ) : ((c.mem.node d).out i).notified = 0 := by
  obtain ⟨hd, hle⟩ := owed_pre (m := c.mem) one_pos hpre
  apply h.safe.sound.mem.notified_of_phase hd
  have hcounted : 0 < (c.mem.node d).phase.prerequisites (c.mem.node d).startCount.count := by omega
  rcases Phase.unfinished hcounted with heq | heq | heq <;> simp [heq]

/-- Whoever may set the next writer keeps the owner, or makes a task wait that takes over. -/
theorem step_of_holder (h : Stored c) (hbound : Bounded c.mem) (hversion : c.mem.Version n p s)
    (howner : c.mem.Belongs (some o) s) {l : List (Instr V)} (hl : l ∈ c.threads) {ins : Instr V}
    (hins : ins ∈ l) (hcap : 0 < ins.tokens (.cap n p)) :
    (c.mem.node o).status = .live ∨
      ∃ d i, Follows c.mem n p d i ∧ ((c.mem.node d).out i).notified = 0 := by
  have hmem := h.safe.sound.mem
  have hbal := h.balance_le hbound
  have hcov := h.covered hbound hl hins
  have hok := h.safe.sound.ready l hl ins hins
  obtain ⟨rest, -, hstored⟩ := (h.threads l hl).exists_rest hins
  have hwaits : ∀ {d : ℕ}, 0 < ins.tokens (.pre d) → ∀ i,
      ((c.mem.node d).out i).notified = 0 :=
    fun hpre => h.waits (hpre.trans_le (hcov _))
  rcases Instr.cap_cases hcap with ⟨d, rfl⟩ | ⟨t, i, a, rfl⟩ | ⟨t, i, r, rfl⟩ |
    ⟨f, r, rfl, htask, hport⟩ | ⟨f, hframe, rfl, hport⟩
  · -- the var that named the version is dropped, or a writer was registered for it
    have hpasses : Passes c.mem n p d := hstored
    cases d with
    | null => exact absurd rfl hok.1
    | ready => exact absurd rfl hok.2
    | noOwner =>
      obtain ⟨s', hversion', howner'⟩ := hpasses
      obtain rfl := hversion.inj hversion'
      cases howner.inj hbal howner'
    | owner o' =>
      obtain ⟨s', hversion', howner'⟩ := hpasses
      obtain rfl := hversion.inj hversion'
      obtain rfl := Option.some.inj (howner.inj hbal howner')
      left
      refine hmem.live_of_pin (hbal _) (k := .life o) rfl (lt_of_lt_of_le ?_ (hcov _))
      simp [Instr.tokens, NextWriter.tokens, one]
    | node d =>
      obtain ⟨i, hfollows⟩ := hpasses
      exact .inr ⟨d, i, hfollows, hwaits (by simp [Instr.tokens, NextWriter.tokens, one]) i⟩
  · have hfollows : Follows c.mem n p t i := hstored
    exact .inr ⟨t, i, hfollows, hwaits (by simp [Instr.tokens, one]) i⟩
  · have hfollows : Follows c.mem n p t i := hstored
    refine .inr ⟨t, i, hfollows, hwaits ?_ i⟩
    have hlisted := listedTokens_nonneg n r (.pre t)
    have hcap' := one_nonneg (.cap n p) (.pre t)
    simp only [Instr.tokens, one_self]
    omega
  · -- the var that `run` is about to return
    left
    have hr := hstored.1
    have hversion' := hr.version n htask
    rw [hport] at hversion'
    obtain rfl := hversion.inj hversion'
    have hsome : r.owner = some o := (hr.owner n htask).inj hbal howner
    refine hmem.live_of_pin (hbal _) (k := .life o) rfl (lt_of_lt_of_le ?_ (hcov _))
    have hvars := varTokens_nonneg f.env (.life o)
    have hafter := f.after.tokens_nonneg (.life o)
    have howns : r.owns (.life o) = 1 := by
      rw [Var.owns_life, Var.references, if_pos ⟨by simp [htask], hsome⟩]
    simp only [Instr.tokens]
    omega
  · -- the task is being set up
    have hf := Instr.frame_stored hframe hstored
    obtain ⟨count, hle, -⟩ := Instr.frame_tokens hframe
    have hsetup := (Frame.le_tokens_setup (f := f) (c := count)).trans (hle _)
    obtain ⟨ht, hphase, -⟩ := owed_setup (m := c.mem) (n := f.task)
      (Int.lt_of_lt_of_le one_pos (hsetup.trans (hcov _)))
    have hkind := (hmem.node _ ht).task (by simp [hphase])
    rcases hport with rfl | hlater
    · left
      have hself : o = f.task := by
        have hs := hversion.storage
        simp only [Mem.storageAt, Node.resultStorage, hkind, if_true, Option.some.injEq] at hs
        subst hs
        cases hresult : (c.mem.node f.task).resultKind with
        | value =>
          rw [hresult] at howner
          exact Option.some.inj howner
        | void =>
          rw [hresult] at howner
          cases howner
        | var =>
          rw [hresult] at howner
          obtain ⟨t, ht', hkind', hinner, ho⟩ := howner
          obtain rfl := Option.some.inj ho
          exact inner_inj ht ht' hkind hkind' (hbal _) hinner
      rw [hself]
      exact hmem.live_of_phase (hbal _) ht (by simp [hphase])
    · -- the slot is not set up yet, so there is no such version
      exfalso
      have hs := hversion.storage
      obtain ⟨i, rfl⟩ : ∃ i, p = i + 1 := ⟨p - 1, by have := hf.port; omega⟩
      obtain ⟨arg, harg, -⟩ := Option.map_eq_some_iff.mp hs
      have hlt := (List.getElem?_eq_some_iff.mp harg).1
      have hlen := hf.port
      omega

/-- The owner of a version's storage is alive, or a waiting task takes the storage over. -/
theorem step_of_version (h : Stored c) (hbound : Bounded c.mem) (hversion : c.mem.Version n p s)
    (howner : c.mem.Belongs (some o) s) (hp : p < (c.mem.node n).slots)
    (hnot : ((c.mem.node n).out p).notified = 0) :
    (c.mem.node o).status = .live ∨
      ∃ d i, Follows c.mem n p d i ∧ ((c.mem.node d).out i).notified = 0 := by
  have hbal := h.balance_le hbound
  by_cases hopen : ((c.mem.node n).out p).Open
  · rcases h.safe.sound.law.cap_holder hversion.lt hp hopen with
      ⟨v, hv, hborrowed, htask, hport⟩ | ⟨l, hl, ins, hins, hcap⟩
    · left
      have hu := h.store.var v hv
      have hversion' := hu.version n htask
      rw [hport] at hversion'
      obtain rfl := hversion.inj hversion'
      exact live_of_owner (hbal _) hv hborrowed (by simp [htask]) ((hu.owner n htask).inj hbal howner)
    · exact h.step_of_holder hbound hversion howner hl hins hcap
  · have hslot := h.store.slot n hversion.lt p
    cases hnext : ((c.mem.node n).out p).nextWriter with
    | null => exact absurd (.inl hnext) hopen
    | ready => exact absurd (.inr hnext) hopen
    | noOwner =>
      rw [hnext] at hslot
      obtain ⟨s', hversion', howner'⟩ := hslot
      obtain rfl := hversion.inj hversion'
      cases howner.inj hbal howner'
    | owner o' =>
      rw [hnext] at hslot
      obtain ⟨s', hversion', howner'⟩ := hslot
      obtain rfl := hversion.inj hversion'
      obtain rfl := Option.some.inj (howner.inj hbal howner')
      exact .inl (live_of_endMarker (hbal _) hversion.lt hp hnot hnext)
    | node d =>
      rw [hnext] at hslot
      obtain ⟨i, hfollows⟩ := hslot
      refine .inr ⟨d, i, hfollows, ?_⟩
      obtain ⟨hd, hpre⟩ := pre_of_slot hversion.lt hp hnext hnot (hbal _)
      apply h.safe.sound.mem.notified_of_phase hd
      rcases Phase.unfinished hpre with heq | heq | heq <;> simp [heq]

/-- The same for the versions that tasks make. -/
theorem live_of_task_version {n p : ℕ} (h : Stored c) (hbound : Bounded c.mem)
    (hkind : (c.mem.node n).kind = .task) (hversion : c.mem.Version n p s)
    (howner : c.mem.Belongs (some o) s) (hp : p < (c.mem.node n).slots)
    (hnot : ((c.mem.node n).out p).notified = 0) : (c.mem.node o).status = .live := by
  rcases h.step_of_version hbound hversion howner hp hnot with hlive | ⟨d, i, hfollows, hnext⟩
  · exact hlive
  · obtain ⟨s', hversion', hversion''⟩ := hfollows.shares
    obtain rfl := hversion.inj hversion'
    have hport := hfollows.port
    have hbefore := hfollows.precedes hkind
    exact live_of_task_version h hbound hfollows.task.2 hversion'' howner hport hnext
termination_by (c.mem.nodes.size - n, (c.mem.node n).slots - p)
decreasing_by
  have hd := hfollows.task.1
  rcases hbefore with hlt | ⟨rfl, hlt⟩
  · exact Prod.Lex.left _ _ (by omega)
  · exact Prod.Lex.right _ (by omega)

/-- As long as a version's slot is not notified, the owner of its storage is alive. -/
theorem live_of_version (h : Stored c) (hbound : Bounded c.mem) (hversion : c.mem.Version n p s)
    (howner : c.mem.Belongs (some o) s) (hp : p < (c.mem.node n).slots)
    (hnot : ((c.mem.node n).out p).notified = 0) : (c.mem.node o).status = .live := by
  rcases h.step_of_version hbound hversion howner hp hnot with hlive | ⟨d, i, hfollows, hnext⟩
  · exact hlive
  · obtain ⟨s', hversion', hversion''⟩ := hfollows.shares
    obtain rfl := hversion.inj hversion'
    exact h.live_of_task_version hbound hfollows.task.2 hversion'' howner hfollows.port hnext

end Stored

end Oox
