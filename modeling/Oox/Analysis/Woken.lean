import Oox.Analysis.Changes

/-!
# Who wakes the waiters

Only the last step of `notify_successors` calls the backend's `wakeup`; every other step leaves
the flag of every node as it is.
-/

set_option autoImplicit false

namespace Oox

open Library

variable {V : Type} {m m' : Mem V} {n : ℕ}

theorem woken_setNode {i : ℕ} {x : Node V} (hx : x.woken = (m.node i).woken) :
    ((m.setNode i x).node n).woken = (m.node n).woken := by
  rw [Mem.node_setNode]
  split
  · rename_i heq
    rw [hx, heq]
  · rfl

theorem woken_newNode {x : Node V} (hn : n < m.nodes.size) :
    ((m.newNode x).node n).woken = (m.node n).woken := by
  rw [Mem.node_newNode, if_neg (by omega)]

theorem woken_newVars (k : ℕ) : ((m.newVars k).node n).woken = (m.node n).woken := by
  unfold Mem.node
  rw [Mem.nodes_newVars]

theorem woken_borrowVars (vs : List ℕ) :
    ((Exec.borrowVars m vs).node n).woken = (m.node n).woken := by
  induction vs generalizing m with
  | nil => rfl
  | cons v vs ih => exact ih

theorem assignVar_woken {m₁ : Mem V} {v : ℕ} {r : Var} {next push : List (Instr V)}
    {spawned : List (List (Instr V))} (h : Exec.assignVar m₁ v r next = .next m' push spawned)
    (hm : (m₁.node n).woken = (m.node n).woken) : (m'.node n).woken = (m.node n).woken := by
  unfold Exec.assignVar at h
  dsimp only at h
  split at h
  · cases h
  · cases h
    exact hm

variable [Inhabited V] {push : List (Instr V)} {spawned : List (List (Instr V))}

theorem invoke_woken {t : ℕ} (h : Exec.invoke m t = .next m' push spawned) :
    (m'.node n).woken = (m.node n).woken := by
  simp only [Exec.invoke] at h
  split at h
  · cases h
  · rename_i m₁ vals hc
    obtain ⟨result, made, heq, -⟩ := (consumeAll_consumed hc).node n
    have hsame : (m₁.node n).woken = (m.node n).woken := by rw [heq]
    cases h
    refine (woken_newVars _).trans (Eq.trans (woken_setNode ?_) hsame)
    rfl

omit [Inhabited V] in
theorem finish_woken {t : ℕ} {env : List ℕ} {vals : List V} {cells : List StoragePtr}
    (h : Exec.finish m t env vals cells = .next m' push spawned) :
    (m'.node n).woken = (m.node n).woken := by
  obtain ⟨result, heq, -⟩ :=
    (writeCells_written (m := m) (cells.zip ((m.node t).body.writes vals))).node n
  have hsame : ((Exec.writeCells m (cells.zip ((m.node t).body.writes vals))).node n).woken =
      (m.node n).woken := by rw [heq]
  simp only [Exec.finish] at h
  repeat' split at h
  all_goals first
    | (cases h; done)
    | (cases h
       refine Eq.trans (woken_setNode ?_) hsame
       rfl)

theorem runOps_woken {env : List ℕ} {ops : List (Op V)} {after : After V}
    (h : Exec.runOps m env ops after = .next m' push spawned) (hn : n < m.nodes.size) :
    (m'.node n).woken = (m.node n).woken := by
  simp only [Exec.runOps] at h
  repeat' split at h
  all_goals first
    | exact assignVar_woken h rfl
    | exact assignVar_woken h (woken_newNode hn)
    | (cases h; done)
    | (cases h; rfl)
    | (cases h; exact woken_newNode hn)
    | (cases h; refine woken_setNode ?_; rfl)
    | (cases h; exact (woken_newVars _).trans (woken_borrowVars _))

/-- A step that is not a wakeup wakes nobody. -/
theorem exec_woken {spurious : Bool} {ins : Instr V}
    (h : exec m spurious ins = .next m' push spawned) (hins : ∀ t refs, ins ≠ .wakeup t refs)
    (hn : n < m.nodes.size) : (m'.node n).woken = (m.node n).woken := by
  unfold exec at h
  split at h
  · cases ins with
    | wakeup t refs => exact absurd rfl (hins t refs)
    | invoke t => exact invoke_woken h
    | finish t env vals cells => exact finish_woken h
    | runOps env ops after => exact runOps_woken h hn
    | _ =>
      simp only [Exec.release, Exec.releaseSub, Exec.destroy, Exec.freeNode, Exec.deleteArc,
        Exec.releaseControl, Exec.addArc, Exec.addArcCas, Exec.rejected, Exec.removeBackArc_eq,
        Exec.notifyNextWriter, Exec.setNextWriter_eq, Exec.storeCountdown, OutputNode.arm, Exec.loadException,
        Exec.findTerminal, Exec.retainTerminal, Exec.closeList, Exec.loadFailureFlag,
        Exec.notifyArcs, Exec.outLoad, Exec.outCas_eq, Exec.outSub_eq, Exec.outNotify,
        Exec.removePrerequisite_eq, Exec.publish_eq, Exec.publishControl, Exec.retainSignal, Exec.mark,
        Exec.markLoad, Exec.markCheck, Exec.markCas, Exec.execute, Exec.storeStart, Exec.addLife,
        Exec.forwardFailure, Exec.setup, Exec.assignHead, Exec.assignFailure,
        Exec.assignIncrement_eq, Exec.redirect, Exec.bind, Exec.moveResult, Exec.waitHead,
        Exec.waitBlock, Exec.waitDone, Exec.waitRead, Exec.spawn] at h
      try unfold Exec.moveArcs at h
      repeat' split at h
      all_goals first
        | (cases h; done)
        | (cases h; rfl)
        | (cases h; refine woken_setNode ?_; rfl)
        | (cases h; exact woken_newNode hn)
        | (cases h; refine Eq.trans (woken_setNode ?_) (woken_setNode ?_) <;> rfl)
  · cases h

end Oox
