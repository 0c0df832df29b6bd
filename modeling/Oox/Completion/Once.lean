import Oox.Completion.Stages

/-!
# Every task runs at most once and completes once

A task may be dispatched twice: when the body returned a var whose task is not complete, the
second dispatch completes the task without running the body again. The stages of a task carry
this over every interleaving; a task that completed without running its body had failed before.
-/

set_option autoImplicit false

namespace Oox

open Library

variable {V : Type}

/-! ## Stages that are passed on -/

/-- What `ins` pushes continues its stage, or goes from the returned var to the completion. -/
def Instr.Continues (ins j : Instr V) : Prop :=
  j.stage = none ∨ j.stage = ins.stage ∨
    ∃ t, ins.stage = some (t, .returned) ∧ j.stage = some (t, .ending)

/-- The instructions that start a stage of their own. -/
def Instr.turns : Instr V → Bool
  | .removePrerequisite _ _ => true
  | .execute _ => true
  | .invoke _ => true
  | .finish _ _ _ _ => true
  | .storeStart _ => true
  | _ => false

theorem releaseVar_stage (ins : Instr V) (u : Var) : ∀ j ∈ releaseVar u, ins.Continues j := by
  intro j hj
  unfold releaseVar at hj
  split at hj
  · cases hj
  · obtain rfl := List.mem_singleton.mp hj
    exact .inl rfl

theorem notifyCalls_stage (ins : Instr V) {n c : ℕ} {d : NextWriter} {calls : List (Instr V)}
    (h : Exec.notifyCalls n d = some (calls, c)) : ∀ j ∈ calls, ins.Continues j := by
  intro j hj
  unfold Exec.notifyCalls at h
  repeat' split at h
  all_goals cases h
  all_goals first
    | exact absurd hj List.not_mem_nil
    | (obtain rfl := List.mem_singleton.mp hj; exact .inl rfl)

section Pushes

variable {m m' : Mem V} {push : List (Instr V)} {spawned : List (List (Instr V))}

theorem notifyNextWriter_stage {n p : ℕ} (h : Exec.notifyNextWriter m n p = .next m' push spawned) :
    ∀ j ∈ push, (Instr.notifyNextWriter n p : Instr V).Continues j := by
  unfold Exec.notifyNextWriter at h
  dsimp only at h
  split at h
  · cases h
  · rename_i calls k hcalls
    cases h
    intro j hj
    rcases List.mem_append.mp hj with hj | hj
    · exact notifyCalls_stage _ hcalls j hj
    · obtain rfl := List.mem_singleton.mp hj
      exact .inl rfl

theorem outNotify_stage {t i refs : ℕ} {count : List ℤ}
    (h : Exec.outNotify m t i count refs = .next m' push spawned) :
    ∀ j ∈ push, (Instr.outNotify t i count refs : Instr V).Continues j := by
  unfold Exec.outNotify at h
  dsimp only at h
  split at h
  · cases h
  · rename_i calls k hcalls
    cases h
    intro j hj
    rcases List.mem_append.mp hj with hj | hj
    · exact notifyCalls_stage _ hcalls j hj
    · obtain rfl := List.mem_singleton.mp hj
      exact .inl rfl

theorem destroy_stage {n : ℕ} (h : Exec.destroy m n = .next m' push spawned) :
    ∀ j ∈ push, (Instr.destroy n : Instr V).Continues j := by
  unfold Exec.destroy at h
  dsimp only at h
  split at h <;> cases h <;> intro j hj
  · rcases List.mem_append.mp hj with hj | hj
    · exact releaseVar_stage _ _ j hj
    · obtain rfl := List.mem_singleton.mp hj
      exact .inl rfl
  · obtain rfl := List.mem_singleton.mp hj
    exact .inl rfl

theorem moveResult_stage {f : Frame V} {r : Var}
    (h : Exec.moveResult m f r = .next m' push spawned) :
    ∀ j ∈ push, (Instr.moveResult f r : Instr V).Continues j := by
  have hnext : ∀ u, ∀ j ∈ releaseVar u ++ [Instr.runOps f.env f.ops f.after],
      (Instr.moveResult f r : Instr V).Continues j := by
    intro u j hj
    rcases List.mem_append.mp hj with hj | hj
    · exact releaseVar_stage _ u j hj
    · obtain rfl := List.mem_singleton.mp hj
      exact .inr (.inl rfl)
  unfold Exec.moveResult at h
  dsimp only at h
  split at h
  · cases h
    exact hnext r
  · split at h
    · cases h
    · cases h
      exact hnext _

theorem assignVar_stage {ins : Instr V} {v : ℕ} {r : Var} {next : List (Instr V)}
    (h : Exec.assignVar m v r next = .next m' push spawned) (hnext : ∀ j ∈ next, ins.Continues j) :
    ∀ j ∈ push, ins.Continues j := by
  unfold Exec.assignVar at h
  dsimp only at h
  split at h
  · cases h
  · cases h
    intro j hj
    exact (List.mem_append.mp hj).elim (releaseVar_stage ins _ j) (hnext j)

theorem addArcCas_stage {spurious : Bool} {n a : ℕ} {seen : List ℕ} {site : AddSite V}
    (h : Exec.addArcCas m spurious n a seen site = .next m' push spawned) :
    ∀ j ∈ push, (Instr.addArcCas n a seen site : Instr V).Continues j := by
  unfold Exec.addArcCas at h
  split at h
  · cases site <;> cases h <;> simp [Instr.Continues, Instr.stage, AddSite.stage, Exec.added]
  · cases h
    intro j hj
    obtain rfl := List.mem_singleton.mp hj
    exact .inr (.inl rfl)

theorem addArc_stage {n a : ℕ} {site : AddSite V}
    (h : Exec.addArc m n a site = .next m' push spawned) :
    ∀ j ∈ push, (Instr.addArc n a site : Instr V).Continues j := by
  unfold Exec.addArc at h
  split at h
  · cases h
    intro j hj
    obtain rfl := List.mem_singleton.mp hj
    exact .inr (.inl rfl)
  · cases site with
    | forward t =>
      simp only [Exec.rejected] at h
      split at h <;> cases h <;> intro j hj <;>
        simp only [List.cons_append, List.nil_append, List.mem_cons, List.not_mem_nil, or_false] at hj <;>
        rcases hj with rfl | rfl | rfl
      all_goals first
        | exact .inl rfl
        | exact .inr (.inl rfl)
        | exact .inr (.inr ⟨t, rfl, rfl⟩)
    | _ =>
      simp only [Exec.rejected] at h
      cases h <;> intro j hj <;>
        simp only [List.mem_cons, List.not_mem_nil, or_false] at hj <;>
        first
        | (obtain rfl := hj; exact .inr (.inl rfl))
        | (rcases hj with rfl | rfl <;> exact .inl rfl)

variable [Inhabited V]

theorem runOps_stage {env : List ℕ} {ops : List (Op V)} {after : After V}
    (h : Exec.runOps m env ops after = .next m' push spawned) :
    ∀ j ∈ push, (Instr.runOps env ops after : Instr V).Continues j := by
  cases ops with
  | nil =>
    cases after with
    | exit =>
      cases h
      exact fun j hj => absurd hj List.not_mem_nil
    | body t vals cells =>
      cases h
      intro j hj
      obtain rfl := List.mem_singleton.mp hj
      exact .inr (.inl rfl)
  | cons op ops =>
    have hself : ∀ j ∈ [Instr.runOps env ops after],
        (Instr.runOps env (op :: ops) after : Instr V).Continues j := fun j hj => by
      obtain rfl := List.mem_singleton.mp hj
      exact .inr (.inl rfl)
    have hcons : ∀ (i : Instr V) (l : List (Instr V)), i.stage = none →
        (∀ j ∈ l, (Instr.runOps env (op :: ops) after : Instr V).Continues j) →
        ∀ j ∈ i :: l, (Instr.runOps env (op :: ops) after : Instr V).Continues j := by
      intro i l hi hl j hj
      rcases List.mem_cons.mp hj with rfl | hj
      · exact .inl hi
      · exact hl j hj
    unfold Exec.runOps at h
    cases op with
    | run dst args canThrow kind code =>
      cases h
      intro j hj
      obtain rfl := List.mem_singleton.mp hj
      exact .inr (.inl rfl)
    | toNode dst src =>
      dsimp only at h
      repeat' split at h
      all_goals first
        | cases h
        | exact assignVar_stage h (hcons _ _ rfl hself)
    | _ =>
      dsimp only at h
      repeat' split at h
      all_goals first
        | exact assignVar_stage h hself
        | (cases h; first
            | exact hself
            | exact hcons _ _ rfl hself
            | exact hcons _ _ rfl (hcons _ _ rfl hself))
        | cases h

/-- Most instructions pass their stage on to what they push. -/
theorem exec_stage {spurious : Bool} {ins : Instr V} (hins : ins.turns = false)
    (h : exec m spurious ins = .next m' push spawned) : ∀ j ∈ push, ins.Continues j := by
  unfold exec at h
  split at h
  · cases ins
    case notifyNextWriter => exact notifyNextWriter_stage h
    case outNotify => exact outNotify_stage h
    case destroy => exact destroy_stage h
    case moveResult => exact moveResult_stage h
    case runOps => exact runOps_stage h
    case addArc => exact addArc_stage h
    case addArcCas => exact addArcCas_stage h
    all_goals cases hins
    all_goals
      simp only [Exec.release, Exec.releaseSub, Exec.freeNode, Exec.deleteArc,
        Exec.releaseControl, Exec.removeBackArc_eq, Exec.setNextWriter_eq, Exec.storeCountdown, OutputNode.arm,
        Exec.loadException, Exec.findTerminal, Exec.retainTerminal, Exec.closeList,
        Exec.loadFailureFlag, Exec.notifyArcs, Exec.outLoad, Exec.outCas_eq, Exec.outSub_eq,
        Exec.wakeup, Exec.spawn, Exec.publish_eq, Exec.publishControl, Exec.retainSignal, Exec.mark,
        Exec.markLoad, Exec.markCheck, Exec.markCas, Exec.addLife, Exec.forwardFailure,
        Exec.setup, Exec.assignHead, Exec.assignFailure, Exec.assignIncrement_eq, Exec.redirect,
        Exec.moveArcs, Exec.bind, Exec.waitHead, Exec.waitBlock, Exec.waitDone,
        Exec.waitRead] at h
      repeat' split at h
      all_goals cases h
      all_goals
        try simp only [List.cons_append, List.nil_append, List.forall_mem_cons]
        repeat' apply And.intro
      all_goals first
        | exact Or.inl rfl
        | exact Or.inr (Or.inl rfl)
        | exact fun j hj => absurd hj List.not_mem_nil
        | exact Or.inr (Or.inr ⟨_, rfl, rfl⟩)
  · cases h

end Pushes

/-! ## Steps of a task -/

variable [Inhabited V]

namespace Legal

variable {m m' : Mem V} {spurious : Bool} {ins : Instr V} {push : List (Instr V)}
variable {spawned : List (List (Instr V))} {n t : ℕ}

/-- An instruction at a stage runs, or completes, a task that has not finished. -/
theorem stage_phase (h : Legal m spurious ins m' push spawned) {s : Stage}
    (hstage : ins.stage = some (t, s)) : t < m.nodes.size ∧
      ((m.node t).phase = .running ∨ (m.node t).phase = .forwarding) := by
  rcases Instr.tokens_stage h.ok hstage with hrun | hforward
  · have hcov := h.covered (.exec t)
    obtain ⟨ht, hphase, -⟩ := owed_exec (n := t) (m := m) (by omega)
    exact ⟨ht, .inl hphase⟩
  · have hcov := h.covered (.forward t)
    obtain ⟨ht, hphase, -⟩ := owed_forward (n := t) (m := m) (by omega)
    exact ⟨ht, .inr hphase⟩

theorem alters_phase (h : Legal m spurious ins m' push spawned) (hins : ins.alters t) :
    (m.node t).phase = .running := by
  have hone := Instr.alters_tokens hins
  have hcov := h.covered (.exec t)
  exact (owed_exec (n := t) (m := m) (by omega)).2.1

theorem runs_change (h : Legal m spurious ins m' push spawned) (hn : n < m.nodes.size) :
    (m'.node n).runs = (m.node n).runs ∨
      ins = .invoke n ∧ (m'.node n).runs = (m.node n).runs + 1 := by
  rcases (h.changes.node n hn).run with hsame | hchange
  · exact .inl hsame.1
  · cases ins with
    | execute t => exact .inl hchange.2.2.1
    | invoke t =>
      obtain ⟨rfl, hruns, -⟩ := hchange
      exact .inr ⟨rfl, hruns⟩
    | finish t env vals cells => exact .inl hchange.2.1
    | closeList t canThrow terminal count => exact .inl hchange.2.2.1
    | _ => exact hchange.elim

/-- A body returns its var once, and its task's destructor drops it. -/
theorem inner_change (h : Legal m spurious ins m' push spawned) (hn : n < m.nodes.size) :
    (m'.node n).innerSet = (m.node n).innerSet ∨
      ins.stage = some (n, .inside) ∧ (m'.node n).innerSet = true ∨
      (m.node n).phase = .finished ∧ (m'.node n).innerSet = false := by
  rcases (h.changes.node n hn).innerSet with heq | hchange
  · exact .inl heq
  · cases ins with
    | finish t env vals cells =>
      obtain ⟨rfl, hset, -⟩ := hchange
      exact .inr (.inl ⟨rfl, hset⟩)
    | destroy n' =>
      obtain ⟨rfl, hset⟩ := hchange
      refine .inr (.inr ⟨?_, hset⟩)
      by_contra hphase
      exact h.not_destroyed hphase
    | _ => exact hchange.elim

/-- A task is bound, dispatched, suspended by the var it returned, or finished. -/
theorem phase_change (h : Legal m spurious ins m' push spawned) (hn : n < m.nodes.size) :
    (m'.node n).phase = (m.node n).phase ∨
      (m.node n).phase = .setup ∧ (m'.node n).phase = .waiting ∨
      (m'.node n).phase = .running ∨
      ((m'.node n).phase = .forwarding ∨
          (m.node n).phase = .forwarding ∧ (m'.node n).phase = .suspended) ∧
        ins.stage = some (n, .returned) ∨
      (∃ canThrow terminal count, ins = .closeList n canThrow terminal count) ∧
        (m'.node n).phase = .finished := by
  rcases (h.changes.node n hn).phase with heq | hchange
  · exact .inl heq
  · cases ins with
    | addArc n' a site =>
      cases site with
      | forward t => exact .inr (.inr (.inl hchange.2))
      | _ => exact hchange.elim
    | addArcCas n' a seen site =>
      cases site with
      | forward t =>
        obtain ⟨rfl, hphase⟩ := hchange
        have hold := (forwarding_of_site (n := n') (a := a) h.covered).2
        exact .inr (.inr (.inr (.inl ⟨.inr ⟨hold, hphase⟩, rfl⟩)))
      | _ => exact hchange.elim
    | closeList t canThrow terminal count =>
      obtain ⟨rfl, hphase, -⟩ := hchange
      exact .inr (.inr (.inr (.inr ⟨⟨_, _, _, rfl⟩, hphase⟩)))
    | removePrerequisite n' k => exact .inr (.inr (.inl hchange.2.1))
    | storeStart t =>
      obtain ⟨rfl, hphase, -⟩ := hchange
      exact .inr (.inr (.inr (.inl ⟨.inl hphase, rfl⟩)))
    | bind f =>
      obtain ⟨rfl, hphase⟩ := hchange
      have hsetup := h.covered (.setup f.task)
      have hone := f.le_tokens_setup (c := f.count)
      simp only [Instr.tokens] at hsetup
      exact .inr (.inl ⟨(owed_setup (n := f.task) (m := m) (by omega)).2.1, hphase⟩)
    | _ => exact hchange.elim

/-- The list of a task is closed by its completion. -/
theorem closes_change (h : Legal m spurious ins m' push spawned) (hn : n < m.nodes.size) :
    (∃ canThrow terminal count, ins = .closeList n canThrow terminal count ∧
      (m'.node n).phase = .finished ∧ (m'.node n).closes = (m.node n).closes + 1) ∨
    (m'.node n).closes = (m.node n).closes ∧
      ((m'.node n).phase = .finished ↔ (m.node n).phase = .finished) := by
  by_cases hclose : ∃ canThrow terminal count, ins = .closeList n canThrow terminal count
  · obtain ⟨canThrow, terminal, count, rfl⟩ := hclose
    refine .inl ⟨canThrow, terminal, count, rfl, ?_⟩
    have hstep := h.step
    rw [exec, if_pos h.inLifetime] at hstep
    simp only [Exec.closeList] at hstep
    split at hstep <;> cases hstep <;> simp
  · refine .inr ⟨?_, fun hfin => ?_, h.finished hn⟩
    · rcases (h.changes.node n hn).run with hsame | hchange
      · exact hsame.2.2.2.1
      · cases ins with
        | execute t => exact hchange.2.2.2.2
        | invoke t => exact hchange.2.2.2
        | finish t env vals cells => exact hchange.2.2.2.2
        | closeList t canThrow terminal count =>
          obtain ⟨rfl, -⟩ := hchange
          exact absurd ⟨_, _, _, rfl⟩ hclose
        | _ => exact hchange.elim
    · rcases h.phase_change hn with heq | ⟨-, hphase⟩ | hphase | ⟨hphase | ⟨-, hphase⟩, -⟩ |
          ⟨hclosed, -⟩
      · exact heq ▸ hfin
      · simp [hphase] at hfin
      · simp [hphase] at hfin
      · simp [hphase] at hfin
      · simp [hphase] at hfin
      · exact absurd hclosed hclose

/-- A prerequisite that was not the last one leaves others. -/
theorem removePrerequisite_waits {k : ℕ}
    (h : Legal m spurious (.removePrerequisite n k) m' push spawned) :
    (m'.node n).phase = .running ∨ 0 < (m'.node n).startCount.count := by
  have hstep := h.step
  rw [exec, if_pos h.inLifetime] at hstep
  simp only [Exec.removePrerequisite_eq] at hstep
  split at hstep
  · cases hstep
  · split at hstep
    · split at hstep <;> cases hstep <;> simp
    · cases hstep
      right
      rw [Mem.node_setNode_self]
      show 0 < (m.node n).startCount.count - k
      omega

/-- A task that is not dispatched waits for a prerequisite. -/
theorem count_pos (h : Legal m spurious ins m' push spawned) (hn : n < m.nodes.size)
    (hx : NodeOnce (m.node n)) (hphase : (m'.node n).phase = .setup ∨
      (m'.node n).phase = .waiting ∨ (m'.node n).phase = .suspended) :
    0 < (m'.node n).startCount.count := by
  have hold : 0 < (m.node n).startCount.count := by
    rcases h.phase_change hn with heq | ⟨hsetup, -⟩ | hnew | ⟨hnew | ⟨hforward, -⟩, -⟩ | ⟨-, hnew⟩
    · exact hx.waits (heq ▸ hphase)
    · exact hx.waits (.inl hsetup)
    · simp [hnew] at hphase
    · simp [hnew] at hphase
    · rw [(h.mem.node n hn).forwarding hforward]
      exact one_pos
    · simp [hnew] at hphase
  rcases (h.changes.node n hn).startCount with heq | hchange
  · rw [heq]
    exact hold
  · cases ins with
    | removePrerequisite n' k =>
      obtain ⟨rfl, -⟩ := hchange
      rcases h.removePrerequisite_waits with hrunning | hcount
      · simp [hrunning] at hphase
      · exact hcount
    | markCas n' b word =>
      obtain ⟨-, rfl, hw⟩ := hchange
      rw [hw, StartCount.mark_count]
      exact hold
    | storeStart t =>
      rw [hchange.2]
      exact one_pos
    | _ => exact hchange.elim

/-- How often a task ran and completed stays in line with its phase. -/
theorem node_once (h : Legal m spurious ins m' push spawned) (hins : ins.Staged m)
    (hn : n < m.nodes.size) (hx : NodeOnce (m.node n)) : NodeOnce (m'.node n) := by
  have hcalling : ins = .invoke n → (m.node n).runs = 0 ∧ (m.node n).phase = .running := by
    rintro rfl
    exact ⟨hins n .calling rfl, h.alters_phase (t := n) rfl⟩
  have hkind := (h.frozen.node n hn).kind
  refine ⟨h.count_pos hn hx, fun hphase => ?_, fun hphase => ?_, fun hset => ?_, ?_, ?_,
    fun htask hfin => ?_⟩
  · -- a task that is not dispatched did not run
    have hold : (m.node n).phase = .setup ∨ (m.node n).phase = .waiting := by
      rcases h.phase_change hn with heq | ⟨hold, -⟩ | hnew | ⟨hnew | ⟨-, hnew⟩, -⟩ | ⟨-, hnew⟩
      · exact heq ▸ hphase
      · exact .inl hold
      all_goals simp [hnew] at hphase
    rcases h.runs_change hn with heq | ⟨hinvoke, -⟩
    · exact heq.trans (hx.fresh hold)
    · simp [(hcalling hinvoke).2] at hold
  · -- the var a suspended task returned stays
    have hold : (m.node n).innerSet = true ∧ (m.node n).phase ≠ .finished := by
      rcases h.phase_change hn with heq | ⟨-, hnew⟩ | hnew | ⟨-, hstage⟩ | ⟨-, hnew⟩
      · rw [heq] at hphase
        exact ⟨hx.offered hphase, by rcases hphase with hphase | hphase <;> simp [hphase]⟩
      · simp [hnew] at hphase
      · simp [hnew] at hphase
      · have hold := (h.stage_phase hstage).2
        exact ⟨hins n .returned hstage, by rcases hold with hold | hold <;> simp [hold]⟩
      · simp [hnew] at hphase
    rcases h.inner_change hn with heq | ⟨-, hset⟩ | ⟨hfin, -⟩
    · exact heq.trans hold.1
    · exact hset
    · exact absurd hfin hold.2
  · rcases h.runs_change hn with heq | ⟨hinvoke, hruns⟩
    · rw [heq]
      rcases h.inner_change hn with hsame | ⟨hstage, -⟩ | ⟨-, hunset⟩
      · exact hx.returned (hsame ▸ hset)
      · exact hins n .inside hstage
      · simp [hunset] at hset
    · rw [hruns, (hcalling hinvoke).1]
  · rcases h.runs_change hn with heq | ⟨hinvoke, hruns⟩
    · rw [heq]
      exact hx.runs
    · rw [hruns, (hcalling hinvoke).1]
  · rcases h.closes_change hn with ⟨_, _, _, rfl, hnew, hcloses⟩ | ⟨hcloses, hiff⟩
    · have hopen : (m.node n).phase ≠ .finished := by
        rcases (h.stage_phase (s := .ending) (t := n) rfl).2 with hold | hold <;> simp [hold]
      rw [hcloses, hkind, if_pos ⟨(h.mem.node n hn).task hopen, hnew⟩, hx.closes, if_neg]
      exact fun hold => hopen hold.2
    · simp only [hcloses, hx.closes, hkind, hiff]
  · -- a task completes after its body ran, or because it failed
    rw [hkind] at htask
    have hold : ¬ ins.alters n ∧ ((m.node n).runs = 1 ∨ (m.node n).startCount.failed = true) := by
      rcases h.closes_change hn with ⟨_, _, _, rfl, -, -⟩ | ⟨-, hiff⟩
      · exact ⟨id, hins n .ending rfl⟩
      · refine ⟨fun halters => ?_, hx.skipped htask (hiff.mp hfin)⟩
        have hrunning := h.alters_phase halters
        rw [hiff.mp hfin] at hrunning
        cases hrunning
    rcases hold.2 with hruns | hfailed
    · rcases h.runs_change hn with heq | ⟨rfl, -⟩
      · exact .inl (heq.trans hruns)
      · exact absurd rfl hold.1
    · exact .inr (h.failed_stays hn hold.1 hfailed)

theorem storageNode_once (v : V) : NodeOnce (storageNode v) where
  waits := by rintro (h | h | h) <;> cases h
  fresh := by rintro (h | h) <;> cases h
  offered := by rintro (h | h) <;> cases h
  returned h := by cases h
  runs := Nat.zero_le _
  closes := rfl
  skipped h := by cases h

theorem deferredNode_once : NodeOnce (deferredNode : Node V) where
  waits := by rintro (h | h | h) <;> cases h
  fresh := by rintro (h | h) <;> cases h
  offered := by rintro (h | h) <;> cases h
  returned h := by cases h
  runs := Nat.zero_le _
  closes := rfl
  skipped h := by cases h

theorem taskNode_once (args : List Arg) (canThrow : Bool) (kind : ResultKind) (code : Body V)
    (inner : ℕ) : NodeOnce (taskNode args canThrow kind code inner) where
  waits _ := show 0 < startCountMask by decide
  fresh _ := rfl
  offered := by rintro (h | h) <;> cases h
  returned h := by cases h
  runs := Nat.zero_le _
  closes := rfl
  skipped _ h := by cases h

theorem node_once_new (h : Legal m spurious ins m' push spawned) (hge : m.nodes.size ≤ n)
    (hn : n < m'.nodes.size) : NodeOnce (m'.node n) := by
  obtain ⟨-, hbirth⟩ := h.changes.newNode n hge hn
  cases ins with
  | setup f =>
    rw [show m'.node n = _ from hbirth]
    exact storageNode_once _
  | runOps env ops after =>
    rcases ops with _ | ⟨op, ops⟩
    · exact hbirth.elim
    · cases op with
      | value x canThrow v =>
        rw [show m'.node n = _ from hbirth]
        exact storageNode_once _
      | deferred x canThrow =>
        rw [show m'.node n = _ from hbirth]
        exact deferredNode_once
      | run dst args canThrow kind code =>
        rw [show m'.node n = _ from hbirth]
        exact taskNode_once _ _ _ _ _
      | _ => exact hbirth.elim
  | _ => exact hbirth.elim

/-! ## What the thread of a task goes on with -/

theorem removePrerequisite_staged {k : ℕ}
    (h : Legal m spurious (.removePrerequisite n k) m' push spawned) (hx : NodeOnce (m.node n)) :
    ∀ j ∈ push, j.Staged m' := by
  have hk : 0 < k := h.ok
  have hpre := h.covered (.pre n)
  simp only [Instr.tokens, one_self, mul_one] at hpre
  have hle := (owed_pre (n := n) (m := m) (by omega) hpre).2
  have hold : (m.node n).runs = 0 ∨ (m.node n).innerSet = true := by
    cases hphase : (m.node n).phase <;> simp only [hphase, Phase.prerequisites] at hle
    · exact .inl (hx.fresh (.inl hphase))
    · exact .inl (hx.fresh (.inr hphase))
    · omega
    · omega
    · exact .inr (hx.offered (.inr hphase))
    · omega
  have hstep := h.step
  rw [exec, if_pos h.inLifetime] at hstep
  simp only [Exec.removePrerequisite_eq] at hstep
  repeat' split at hstep
  · cases hstep
  · rename_i hskips
    cases hstep
    intro j hj
    rcases List.mem_cons.mp hj with rfl | hj
    · refine Instr.staged_some rfl (.inr ?_)
      rw [Mem.node_setNode_self]
      simp only [StartCount.skips, StartCount.failed, Bool.or_eq_true] at hskips ⊢
      exact hskips.imp .inl id
    · obtain rfl := List.mem_singleton.mp hj
      exact Instr.staged_none rfl
  · cases hstep
    intro j hj
    obtain rfl := List.mem_singleton.mp hj
    refine Instr.staged_some rfl ?_
    rw [Mem.node_setNode_self]
    exact hold
  · cases hstep
    exact fun j hj => absurd hj List.not_mem_nil

theorem execute_staged (h : Legal m spurious (.execute t) m' push spawned)
    (hins : (Instr.execute t : Instr V).Staged m) (hx : NodeOnce (m.node t)) :
    ∀ j ∈ push, j.Staged m' := by
  have hentering : (m.node t).runs = 0 ∨ (m.node t).innerSet = true := hins t .entering rfl
  have hreturned := (h.mem.node t (h.stage_phase (s := .entering) rfl).1).returned
  have hstep := h.step
  rw [exec, if_pos h.inLifetime] at hstep
  simp only [Exec.execute] at hstep
  split at hstep
  · rename_i hfailed
    cases hstep
    intro j hj
    obtain rfl := List.mem_singleton.mp hj
    exact Instr.staged_some rfl (.inr hfailed.2)
  · split at hstep
    · rename_i hset
      cases hstep
      intro j hj
      obtain rfl := List.mem_singleton.mp hj
      exact Instr.staged_some rfl (.inl (hx.returned hset.2))
    · rename_i hunset
      cases hstep
      intro j hj
      obtain rfl := List.mem_singleton.mp hj
      refine Instr.staged_some (s := .calling) rfl ?_
      show ((m.setNode t { m.node t with started := true }).node t).runs = 0
      rw [Mem.node_setNode_self]
      exact hentering.resolve_right fun hset => hunset ⟨hreturned hset, hset⟩

theorem invoke_staged (h : Legal m spurious (.invoke t) m' push spawned)
    (hins : (Instr.invoke t : Instr V).Staged m) : ∀ j ∈ push, j.Staged m' := by
  have hcalling : (m.node t).runs = 0 := hins t .calling rfl
  have hstep := h.step
  rw [exec, if_pos h.inLifetime] at hstep
  simp only [Exec.invoke] at hstep
  split at hstep
  · cases hstep
  · rename_i m₁ vals hconsume
    obtain ⟨result, made, heq, -⟩ := (consumeAll_consumed hconsume).node t
    cases hstep
    intro j hj
    obtain rfl := List.mem_singleton.mp hj
    refine Instr.staged_some (s := .inside) rfl ?_
    unfold Mem.node
    rw [Mem.nodes_newVars]
    show ((m₁.setNode t { m₁.node t with runs := (m₁.node t).runs + 1, given := vals }).node t).runs = 1
    rw [Mem.node_setNode_self, heq]
    simp [hcalling]

theorem finish_staged {env : List ℕ} {vals : List V} {cells : List StoragePtr}
    (h : Legal m spurious (.finish t env vals cells) m' push spawned)
    (hins : (Instr.finish t env vals cells : Instr V).Staged m) : ∀ j ∈ push, j.Staged m' := by
  have hruns : (m'.node t).runs = 1 := by
    have hinside : (m.node t).runs = 1 := hins t .inside rfl
    rcases h.runs_change (h.stage_phase (s := .inside) rfl).1 with heq | ⟨hinvoke, -⟩
    · exact heq.trans hinside
    · cases hinvoke
  have hstep := h.step
  rw [exec, if_pos h.inLifetime] at hstep
  simp only [Exec.finish] at hstep
  have hending : ∀ b, (Instr.storeCountdown t b [] : Instr V).Staged m' := fun _ =>
    Instr.staged_some rfl (.inl hruns)
  repeat' split at hstep
  · cases hstep
    intro j hj
    rcases List.mem_cons.mp hj with rfl | hj
    · exact Instr.staged_none rfl
    · obtain rfl := List.mem_singleton.mp hj
      exact hending true
  · cases hstep
  · cases hstep
  · cases hstep
    intro j hj
    obtain rfl := List.mem_singleton.mp hj
    exact hending false
  · cases hstep
    intro j hj
    obtain rfl := List.mem_singleton.mp hj
    exact hending false
  · cases hstep
  · cases hstep
  · cases hstep
    intro j hj
    obtain rfl := List.mem_singleton.mp hj
    refine Instr.staged_some (s := .returned) rfl ?_
    show ((Mem.setNode _ t _).node t).innerSet = true
    rw [Mem.node_setNode_self]
  · cases hstep

theorem storeStart_staged (h : Legal m spurious (.storeStart t) m' push spawned)
    (hins : (Instr.storeStart t : Instr V).Staged m) : ∀ j ∈ push, j.Staged m' := by
  have hreturned : (m.node t).innerSet = true := hins t .returned rfl
  have hstep := h.step
  rw [exec, if_pos h.inLifetime] at hstep
  cases hstep
  intro j hj
  obtain rfl := List.mem_singleton.mp hj
  refine Instr.staged_some (s := .returned) rfl ?_
  show ((Mem.setNode _ t _).node t).innerSet = true
  rw [Mem.node_setNode_self]
  exact hreturned

/-- A continued stage is known of the memory the step leaves. -/
theorem continues_staged (h : Legal m spurious ins m' push spawned) (hins : ins.Staged m)
    (hnodes : ∀ n < m.nodes.size, NodeOnce (m.node n)) (hturns : ins.turns = false) {j : Instr V}
    (hj : ins.Continues j) : j.Staged m' := by
  have halters : ∀ t, ¬ ins.alters t := fun t halters => by
    cases ins <;> first | exact halters | cases hturns
  have hcarries : ∀ t s, ins.stage = some (t, s) → Carries (m.node t) (m'.node t) := by
    intro t s hstage
    obtain ⟨ht, hphase⟩ := h.stage_phase hstage
    refine h.carries ht ?_ (halters t)
    rcases hphase with hphase | hphase <;> simp [hphase]
  rcases hj with hnone | hsame | ⟨t, hreturned, hending⟩
  · exact Instr.staged_none hnone
  · intro t s hstage
    rw [hsame] at hstage
    exact (hins t s hstage).carried (hcarries t s hstage)
  · refine Instr.staged_some hending (.inl ?_)
    rw [(hcarries t _ hreturned).runs]
    exact (hnodes t (h.stage_phase hreturned).1).returned (hins t .returned hreturned)

theorem pushes_staged (h : Legal m spurious ins m' push spawned) (hins : ins.Staged m)
    (hnodes : ∀ n < m.nodes.size, NodeOnce (m.node n)) : ∀ j ∈ push, j.Staged m' := by
  cases ins with
  | removePrerequisite n k =>
    have hk : 0 < k := h.ok
    have hpre := h.covered (.pre n)
    simp only [Instr.tokens, one_self, mul_one] at hpre
    exact h.removePrerequisite_staged (hnodes n (owed_pre (m := m) (by omega) hpre).1)
  | execute t => exact h.execute_staged hins (hnodes t (h.stage_phase (s := .entering) rfl).1)
  | invoke t => exact h.invoke_staged hins
  | finish t env vals cells => exact h.finish_staged hins
  | storeStart t => exact h.storeStart_staged hins
  | _ => exact fun j hj => h.continues_staged hins hnodes rfl (exec_stage rfl h.step j hj)

theorem spawned_staged (h : Legal m spurious ins m' push spawned) (hins : ins.Staged m)
    (hnodes : ∀ n < m.nodes.size, NodeOnce (m.node n)) :
    ∀ l ∈ spawned, ∀ j ∈ l, j.Staged m' := by
  intro l hl
  rcases exec_spawned_cases h.step l hl with ⟨n, rfl, rfl⟩ | ⟨env, ops, after, rfl⟩
  · intro j hj
    rcases List.mem_cons.mp hj with rfl | hj
    · exact h.continues_staged hins hnodes rfl (.inr (.inl rfl))
    · obtain rfl := List.mem_singleton.mp hj
      exact Instr.staged_none rfl
  · have hstep := h.step
    rw [exec, if_pos h.inLifetime] at hstep
    obtain ⟨env', ops', rfl⟩ := runOps_spawned hstep l hl
    intro j hj
    obtain rfl := List.mem_singleton.mp hj
    exact Instr.staged_none rfl

end Legal

/-! ## Runs -/

/-- Every task runs and completes at most once, and its thread knows how far it has come. -/
structure Once (c : State V) : Prop where
  sound : Sound c
  node : ∀ n < c.mem.nodes.size, NodeOnce (c.mem.node n)
  threads : ∀ l ∈ c.threads, ∀ ins ∈ l, ins.Staged c.mem

namespace Once

variable {c c' : State V} {e : Turn}

theorem step (h : Once c) (he : Admitted c e) (hstep : c.step exec e = some c') : Once c' := by
  obtain ⟨ins, rest, push, spawned, htop, hexec, hthreads⟩ := Config.step_cases hstep
  have hlegal := h.sound.legal he htop hexec
  have hins : ins.Staged c.mem :=
    h.threads _ (List.mem_of_getElem? htop) ins List.mem_cons_self
  -- what an instruction relies on, beside its stage
  let both : Mem V → Instr V → List (Instr V) → Prop := fun m j _ => j.Ok m ∧ j.Staged m
  have hboth : ∀ l ∈ c.threads, StackOk both c.mem l := fun l hl =>
    stackOk_iff.mpr fun j hj => ⟨h.sound.ready l hl j hj, h.threads l hl j hj⟩
  have hready := hlegal.ready
  have hspawned := hlegal.spawned_ready
  refine ⟨h.sound.step he hstep, fun n hn => ?_, fun l hl => ?_⟩
  · by_cases hold : n < c.mem.nodes.size
    · exact hlegal.node_once hins hold (h.node n hold)
    · exact hlegal.node_once_new (by omega) hn
  · suffices hafter : StackOk both c'.mem l from fun j hj => (stackOk_iff.mp hafter j hj).2
    refine stacks_step (Balanced.backed h.sound.law) (h.sound.holdings he.bounded) hboth htop
      hthreads ?_ ?_ ?_ l hl
    · intro j r hj hwith
      have hself := hwith j List.mem_cons_self
      exact ⟨hlegal.ok_stable hself hj.1, hlegal.staged_stable hself hj.1 hj.2⟩
    · intro hrest
      rw [stackOk_iff] at hrest ⊢
      intro j hj
      rcases List.mem_append.mp hj with hj | hj
      · exact ⟨hready j hj, hlegal.pushes_staged hins h.node j hj⟩
      · exact hrest j hj
    · intro l hl
      exact stackOk_iff.mpr fun j hj =>
        ⟨hspawned l hl j hj, hlegal.spawned_staged hins h.node l hl j hj⟩

theorem start (locals : ℕ) (ops : List (Op V)) : Once (initial locals ops) where
  sound := Sound.start locals ops
  node n hn := by simp [initial, Mem.initial, Heap.empty] at hn
  threads l hl j hj := by
    obtain rfl := List.mem_singleton.mp hl
    obtain rfl := List.mem_singleton.mp hj
    exact Instr.staged_none rfl

theorem of_reach {locals : ℕ} {ops : List (Op V)} (h : Reach exec Admitted (initial locals ops) c) :
    Once c :=
  h.invariant (start locals ops) fun _ _ _ honce he hstep => honce.step he hstep

end Once

end Oox
