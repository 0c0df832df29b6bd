import Oox.Analysis.Frozen

/-!
# What the steps put on the stacks

Most instructions push only instructions that carry nothing with them: no var, no call of `run`
and no body. Of the others only `gen_oox::bind_to` makes the var that `oox::run` returns.
-/

set_option autoImplicit false

namespace Oox

open Library

variable {V : Type}

/-! ## Instructions that carry nothing -/

/-- A call of `add_arc` that is not part of a call of `run`. -/
def AddSite.bare : AddSite V → Bool
  | .assign _ _ => false
  | .assignTo _ _ => false
  | .ownBack _ => false
  | _ => true

/-- An instruction that carries no var, no call of `run` and no body. -/
def Instr.bare : Instr V → Bool
  | .addArc _ _ site => site.bare
  | .addArcCas _ _ _ site => site.bare
  | .setNextWriter _ _ _ => false
  | .redirect _ _ _ _ _ => false
  | .moveArcs _ _ _ _ _ => false
  | .finish _ _ _ _ => false
  | .setup _ => false
  | .assignHead _ _ _ _ => false
  | .assignFailure _ _ _ _ => false
  | .assignIncrement _ _ _ _ => false
  | .bind _ => false
  | .moveResult _ _ => false
  | .runOps _ _ _ => false
  | .waitStatus _ => false
  | .waitRead _ => false
  | _ => true

/-- The instructions that push only such instructions. -/
def Instr.pushesBare : Instr V → Bool
  | .destroy _ => false
  | .addArc _ _ _ => false
  | .addArcCas _ _ _ _ => false
  | .invoke _ => false
  | .setup _ => false
  | .assignHead _ _ _ _ => false
  | .assignFailure _ _ _ _ => false
  | .assignIncrement _ _ _ _ => false
  | .redirect _ _ _ _ _ => false
  | .moveArcs _ _ _ _ _ => false
  | .bind _ => false
  | .moveResult _ _ => false
  | .runOps _ _ _ => false
  | _ => true

section Bare

variable {m m' : Mem V} {push : List (Instr V)} {spawned : List (List (Instr V))}

/-- Notifying a next writer carries nothing. -/
theorem notifyCalls_bare {n c : ℕ} {d : NextWriter} {calls : List (Instr V)}
    (h : Exec.notifyCalls n d = some (calls, c)) : ∀ j ∈ calls, j.bare = true := by
  intro j hj
  cases d with
  | null => cases h
  | ready => cases h
  | noOwner =>
    cases h
    cases hj
  | owner o =>
    simp only [Exec.notifyCalls] at h
    split at h
    · cases h
      cases hj
    · cases h
      obtain rfl := List.mem_singleton.mp hj
      rfl
  | node d =>
    cases h
    obtain rfl := List.mem_singleton.mp hj
    rfl

/-- The notification of a slot's next writer carries nothing. -/
theorem notifyNextWriter_bare {n p : ℕ} (h : Exec.notifyNextWriter m n p = .next m' push spawned) :
    ∀ j ∈ push, j.bare = true := by
  unfold Exec.notifyNextWriter at h
  dsimp only at h
  split at h
  · cases h
  · rename_i calls k hcalls
    cases h
    intro j hj
    rcases List.mem_append.mp hj with hj | hj
    · exact notifyCalls_bare hcalls j hj
    · obtain rfl := List.mem_singleton.mp hj
      rfl

/-- The notifications of a completed task carry nothing. -/
theorem outNotify_bare {t i refs : ℕ} {count : List ℤ}
    (h : Exec.outNotify m t i count refs = .next m' push spawned) : ∀ j ∈ push, j.bare = true := by
  unfold Exec.outNotify at h
  dsimp only at h
  split at h
  · cases h
  · rename_i calls k hcalls
    cases h
    intro j hj
    rcases List.mem_append.mp hj with hj | hj
    · exact notifyCalls_bare hcalls j hj
    · obtain rfl := List.mem_singleton.mp hj
      rfl

variable [Inhabited V]

/-- The other calls push only instructions that carry nothing. -/
theorem exec_bare {spurious : Bool} {ins : Instr V} (hins : ins.pushesBare = true)
    (h : exec m spurious ins = .next m' push spawned) : ∀ j ∈ push, j.bare = true := by
  unfold exec at h
  split at h
  · cases ins
    case notifyNextWriter => exact notifyNextWriter_bare h
    case outNotify => exact outNotify_bare h
    all_goals cases hins
    all_goals
      simp only [Exec.release, Exec.releaseSub, Exec.freeNode, Exec.deleteArc,
        Exec.releaseControl, Exec.removeBackArc_eq, Exec.setNextWriter_eq, Exec.storeCountdown, OutputNode.arm,
        Exec.loadException, Exec.findTerminal, Exec.retainTerminal, Exec.closeList,
        Exec.loadFailureFlag, Exec.notifyArcs, Exec.outLoad, Exec.outCas_eq, Exec.outSub_eq,
        Exec.wakeup, Exec.removePrerequisite_eq, Exec.spawn, Exec.publish_eq, Exec.publishControl,
        Exec.retainSignal, Exec.mark, Exec.markLoad, Exec.markCheck, Exec.markCas, Exec.execute,
        Exec.finish, Exec.storeStart, Exec.addLife, Exec.forwardFailure, Exec.waitHead,
        Exec.waitBlock, Exec.waitDone, Exec.waitRead] at h
      repeat' split at h
      all_goals first
        | (cases h; simp [Instr.bare, AddSite.bare])
        | cases h
  · cases h

end Bare

/-! ## Returned vars -/

/-- The var an instruction is about to hand to the caller of `run`. -/
def Instr.returns : Instr V → Option Var
  | .moveResult _ r => some r
  | _ => none

/-- An instruction that carries nothing returns no var. -/
theorem Instr.returns_of_bare {j : Instr V} (hj : j.bare = true) : j.returns = none := by
  cases j with
  | moveResult f r => cases hj
  | _ => rfl

/-- Releasing a var returns none. -/
theorem releaseVar_returns (u : Var) : ∀ j ∈ (releaseVar u : List (Instr V)), j.returns = none := by
  intro j hj
  unfold releaseVar at hj
  split at hj
  · cases hj
  · obtain rfl := List.mem_singleton.mp hj
    rfl

/-- What follows an addition to a list returns no var. -/
theorem added_returns (n : ℕ) (site : AddSite V) :
    ∀ j ∈ Exec.added n site, j.returns = none := by
  cases site <;> simp [Exec.added, Instr.returns]

variable {m m' : Mem V} {push : List (Instr V)} {spawned : List (List (Instr V))}

/-- An addition to a list returns no var. -/
theorem addArcCas_returns {spurious : Bool} {n a : ℕ} {seen : List ℕ} {site : AddSite V}
    (h : Exec.addArcCas m spurious n a seen site = .next m' push spawned) :
    ∀ j ∈ push, j.returns = none := by
  unfold Exec.addArcCas at h
  split at h
  · cases site with
    | forward t =>
      cases h
      simp
    | _ =>
      cases h
      exact added_returns n _
  · cases h
    simp [Instr.returns]

/-- Moving the arcs of a list returns no var. -/
theorem moveArcs_returns {n q t p : ℕ} {r : List ℕ}
    (h : Exec.moveArcs m n q t p r = .next m' push spawned) : ∀ j ∈ push, j.returns = none := by
  cases r <;> cases h <;> simp [Instr.returns]

/-- An assignment returns only what comes after it. -/
theorem assignVar_returns {v : ℕ} {r : Var} {next : List (Instr V)}
    (h : Exec.assignVar m v r next = .next m' push spawned)
    (hnext : ∀ j ∈ next, j.returns = none) : ∀ j ∈ push, j.returns = none := by
  unfold Exec.assignVar at h
  dsimp only at h
  split at h
  · cases h
  · cases h
    intro j hj
    rcases List.mem_append.mp hj with hj | hj
    · exact releaseVar_returns _ j hj
    · exact hnext j hj

variable [Inhabited V]

/-- The operations of a thread return no var. -/
theorem runOps_returns {env : List ℕ} {ops : List (Op V)} {after : After V}
    (h : Exec.runOps m env ops after = .next m' push spawned) : ∀ j ∈ push, j.returns = none := by
  unfold Exec.runOps at h
  cases ops with
  | nil => cases after <;> cases h <;> simp [Instr.returns]
  | cons op ops =>
    cases op <;> dsimp only at h <;> repeat' split at h
    all_goals first
      | exact assignVar_returns h (by simp [Instr.returns])
      | (cases h; simp [Instr.returns])
      | cases h

/-- No instruction but `bind` returns a var. -/
theorem exec_returns {spurious : Bool} {ins : Instr V} (hbind : ∀ f, ins ≠ .bind f)
    (h : exec m spurious ins = .next m' push spawned) : ∀ j ∈ push, j.returns = none := by
  cases hbare : ins.pushesBare with
  | true => exact fun j hj => Instr.returns_of_bare (exec_bare hbare h j hj)
  | false =>
    unfold exec at h
    split at h
    · cases ins with
      | bind f => exact absurd rfl (hbind f)
      | addArcCas n a seen site => exact addArcCas_returns h
      | moveArcs n q t p r => exact moveArcs_returns h
      | runOps env ops after => exact runOps_returns h
      | destroy n =>
        simp only [Exec.destroy] at h
        split at h
        · cases h
          simp only [List.mem_append, List.mem_singleton, or_imp, forall_and, forall_eq]
          exact ⟨releaseVar_returns _, rfl⟩
        · cases h
          simp [Instr.returns]
      | moveResult f r =>
        simp only [Exec.moveResult] at h
        repeat' split at h
        all_goals
          cases h
          try simp [Instr.returns, or_imp, forall_and]
          try exact releaseVar_returns _
      | addArc n a site =>
        simp only [Exec.addArc, Exec.rejected] at h
        repeat' split at h
        all_goals
          cases h
          try simp [Instr.returns]
      | invoke t =>
        simp only [Exec.invoke] at h
        split at h
        · cases h
        · cases h
          simp [Instr.returns]
      | setup f =>
        simp only [Exec.setup] at h
        repeat' split at h
        all_goals
          cases h
          try simp [Instr.returns]
      | assignHead f n p a =>
        simp only [Exec.assignHead] at h
        split at h <;> cases h <;> simp [Instr.returns]
      | assignFailure f n p a =>
        cases h
        split <;> simp [Instr.returns]
      | assignIncrement f n p a =>
        simp only [Exec.assignIncrement_eq] at h
        repeat' split at h
        all_goals
          cases h
          try simp [Instr.returns]
      | redirect n q t p a =>
        simp only [Exec.redirect] at h
        repeat' split at h
        all_goals
          cases h
          try simp [Instr.returns]
      | _ => cases hbare
    · cases h

/-- What a new thread is started with: a task to execute, or operations of its own. -/
def Fresh (l : List (Instr V)) : Prop :=
  (∃ n, l = [.execute n, .release n 1]) ∨ ∃ env ops, l = [.runOps env ops .exit]

/-- The operations of a thread start threads with operations of their own. -/
theorem runOps_spawned {env : List ℕ} {ops : List (Op V)} {after : After V}
    (h : Exec.runOps m env ops after = .next m' push spawned) :
    ∀ l ∈ spawned, ∃ env ops, l = [.runOps env ops .exit] := by
  simp only [Exec.runOps, Exec.assignVar] at h
  repeat' split at h
  all_goals
    cases h
    try simp

/-- Only `spawn` and the operations of a thread start threads. -/
theorem exec_spawned_cases {spurious : Bool} {ins : Instr V}
    (h : exec m spurious ins = .next m' push spawned) :
    ∀ l ∈ spawned, (∃ n, ins = .spawn n ∧ l = [.execute n, .release n 1]) ∨
      ∃ env ops after, ins = .runOps env ops after := by
  unfold exec at h
  split at h
  · cases ins
    case runOps => exact fun _ _ => .inr ⟨_, _, _, rfl⟩
    case spawn =>
      cases h
      simp
    all_goals
      simp only [Exec.release, Exec.releaseSub, Exec.destroy, Exec.freeNode, Exec.deleteArc,
        Exec.releaseControl, Exec.addArc, Exec.addArcCas, Exec.rejected, Exec.removeBackArc_eq,
        Exec.notifyNextWriter, Exec.setNextWriter_eq, Exec.storeCountdown, OutputNode.arm, Exec.loadException,
        Exec.findTerminal, Exec.retainTerminal, Exec.closeList, Exec.loadFailureFlag,
        Exec.notifyArcs, Exec.outLoad, Exec.outCas_eq, Exec.outSub_eq, Exec.outNotify, Exec.wakeup,
        Exec.removePrerequisite_eq, Exec.publish_eq, Exec.publishControl, Exec.retainSignal, Exec.mark,
        Exec.markLoad, Exec.markCheck, Exec.markCas, Exec.execute, Exec.invoke, Exec.finish,
        Exec.storeStart, Exec.addLife, Exec.forwardFailure, Exec.setup, Exec.assignHead,
        Exec.assignFailure, Exec.assignIncrement_eq, Exec.redirect, Exec.bind, Exec.moveResult,
        Exec.waitHead, Exec.waitBlock, Exec.waitDone, Exec.waitRead] at h
      try unfold Exec.moveArcs at h
      repeat' split at h
      all_goals
        cases h
        try simp
  · cases h

/-- What they start them with. -/
theorem exec_spawned {spurious : Bool} {ins : Instr V}
    (h : exec m spurious ins = .next m' push spawned) : ∀ l ∈ spawned, Fresh l := by
  intro l hl
  rcases exec_spawned_cases h l hl with ⟨n, -, hexecute⟩ | ⟨env, ops, after, rfl⟩
  · exact .inl ⟨n, hexecute⟩
  · unfold exec at h
    split at h
    · exact .inr (runOps_spawned h l hl)
    · cases h

/-- No new thread starts with a returned var. -/
theorem exec_spawned_returns {spurious : Bool} {ins : Instr V}
    (h : exec m spurious ins = .next m' push spawned) :
    ∀ l ∈ spawned, ∀ j ∈ l, j.returns = none := by
  intro l hl
  rcases exec_spawned h l hl with ⟨n, rfl⟩ | ⟨env, ops, rfl⟩ <;> simp [Instr.returns]

end Oox
