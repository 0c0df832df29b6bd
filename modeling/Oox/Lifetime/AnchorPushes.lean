import Oox.Analysis.Woken
import Oox.Lifetime.Anchors

/-!
# Every step leaves its stack anchored

What a step pushes needs what the instruction itself needed, or something it pushes below.
-/

set_option autoImplicit false

namespace Oox

open Library

variable {V : Type}

/-! ## Stacks -/

section Stacks

variable {m : Mem V} {rest : List (Instr V)} {n t : ℕ}

theorem kept_one (h : Kept m n rest) : ∀ q ∈ [n], Kept m q rest := by
  intro q hq
  rw [List.mem_singleton.mp hq]
  exact h

theorem kept_two (h : Kept m n rest) (h' : Kept m t rest) : ∀ q ∈ [n, t], Kept m q rest := by
  intro q hq
  rcases List.mem_cons.mp hq with rfl | hq
  · exact h
  · exact kept_one h' q hq

theorem kept_none : ∀ q ∈ ([] : List ℕ), Kept m q rest := by
  intro q hq
  cases hq

/-- An instruction that needs nothing and aims at nothing. -/
structure Instr.Free (j : Instr V) : Prop where
  needs : j.needs = []
  aims : ∀ (m : Mem V) (rest : List (Instr V)), j.Aims m rest

theorem Instr.Free.anchored {j : Instr V} (h : j.Free) : Anchored m j rest where
  kept n hn := by
    rw [h.needs] at hn
    cases hn
  aims := h.aims m rest

/-- Free instructions stand on any stack. -/
theorem stackOk_free {push : List (Instr V)} (hfree : ∀ j ∈ push, j.Free)
    (hrest : StackOk Anchored m rest) : StackOk Anchored m (push ++ rest) := by
  induction push with
  | nil => exact hrest
  | cons j push ih =>
    refine ⟨(hfree j List.mem_cons_self).anchored, ih fun i hi => ?_⟩
    exact hfree i (List.mem_cons_of_mem _ hi)

theorem free_releaseVar (u : Var) : ∀ j ∈ (releaseVar u : List (Instr V)), j.Free := by
  intro j hj
  unfold releaseVar at hj
  split at hj
  · cases hj
  · rw [List.mem_singleton.mp hj]
    exact ⟨rfl, fun _ _ => trivial⟩

theorem free_release {k : ℕ} (hk : k ≠ 0) : (Instr.release n k : Instr V).Free :=
  ⟨if_neg hk, fun _ _ => trivial⟩

theorem free_notifyCalls {c : ℕ} {d : NextWriter} {calls : List (Instr V)}
    (h : Exec.notifyCalls n d = some (calls, c)) : ∀ j ∈ calls, j.Free := by
  intro j hj
  cases d with
  | null => cases h
  | ready => cases h
  | noOwner =>
    cases h
    cases hj
  | owner o =>
    simp only [Exec.notifyCalls] at h
    split at h
    · cases h
      cases hj
    · cases h
      rw [List.mem_singleton.mp hj]
      exact free_release (by omega)
  | node d =>
    cases h
    rw [List.mem_singleton.mp hj]
    exact ⟨rfl, fun _ _ => trivial⟩

theorem keeps_removePrerequisite {k : ℕ} (hk : 0 < k) :
    Keeps m n (.removePrerequisite n k : Instr V) :=
  .of_pin (k := .pre n) rfl (by simp [Instr.tokens, hk])

theorem held_removePrerequisite (n : ℕ) (l : List (Instr V)) :
    Held (.pre n) (.removePrerequisite n 1 :: l) :=
  ⟨_, List.mem_cons_self, by simp [Instr.tokens]⟩

/-- A var of the caller keeps its task while the call is set up. -/
theorem keeps_frame {x : Instr V} {f : Frame V} {c v : ℕ}
    (hx : f.tokens c (.var v) ≤ x.tokens (.var v)) (hv : v ∈ f.env)
    (htask : (m.var v).currentTask = some n) : Keeps m n x :=
  .of_var (v := v) (Int.lt_of_lt_of_le one_pos ((Frame.le_tokens_var hv).trans hx)) htask

end Stacks

variable [Inhabited V]

namespace Legal

variable {m m' : Mem V} {spurious : Bool} {ins : Instr V} {push rest : List (Instr V)}
variable {spawned : List (List (Instr V))}

/-! ## Releasing nodes and arcs -/

theorem release_anchored {n k : ℕ} (h : Legal m spurious (.release n k) m' push spawned)
    (hkept : ∀ q ∈ (Instr.release n k : Instr V).needs, Kept m' q rest)
    (hrest : StackOk Anchored m' rest) : StackOk Anchored m' (push ++ rest) := by
  have hstep := h.step
  rw [exec, if_pos h.inLifetime, Exec.release] at hstep
  split at hstep
  · cases hstep
    exact ⟨⟨kept_none, trivial⟩, hrest⟩
  · cases hstep
    exact ⟨⟨hkept, trivial⟩, hrest⟩

theorem releaseSub_anchored {n k : ℕ} (h : Legal m spurious (.releaseSub n k) m' push spawned)
    (hrest : StackOk Anchored m' rest) : StackOk Anchored m' (push ++ rest) := by
  have hstep := h.step
  rw [exec, if_pos h.inLifetime] at hstep
  simp only [Exec.releaseSub] at hstep
  repeat' split at hstep
  all_goals
    cases hstep
  · exact ⟨⟨kept_none, trivial⟩, hrest⟩
  · exact hrest

theorem destroy_anchored {n : ℕ} (h : Legal m spurious (.destroy n) m' push spawned)
    (hrest : StackOk Anchored m' rest) : StackOk Anchored m' (push ++ rest) := by
  have hfree : StackOk Anchored m' (.freeNode n :: rest) := ⟨⟨kept_none, trivial⟩, hrest⟩
  have hstep := h.step
  rw [exec, if_pos h.inLifetime] at hstep
  simp only [Exec.destroy] at hstep
  split at hstep
  · cases hstep
    rw [List.append_assoc]
    exact stackOk_free (free_releaseVar _) hfree
  · cases hstep
    exact hfree

theorem freeNode_anchored {n : ℕ} (h : Legal m spurious (.freeNode n) m' push spawned)
    (hrest : StackOk Anchored m' rest) : StackOk Anchored m' (push ++ rest) := by
  have hstep := h.step
  rw [exec, if_pos h.inLifetime] at hstep
  simp only [Exec.freeNode] at hstep
  split at hstep <;> cases hstep <;>
    first | exact hrest | exact ⟨⟨kept_none, trivial⟩, hrest⟩

theorem deleteArc_anchored {a : ℕ} (h : Legal m spurious (.deleteArc a) m' push spawned)
    (hrest : StackOk Anchored m' rest) : StackOk Anchored m' (push ++ rest) := by
  have hstep := h.step
  rw [exec, if_pos h.inLifetime] at hstep
  simp only [Exec.deleteArc] at hstep
  cases hstep
  split
  · exact ⟨⟨kept_none, trivial⟩, hrest⟩
  · exact hrest

theorem releaseControl_anchored {c : ℕ}
    (h : Legal m spurious (.releaseControl c) m' push spawned)
    (hrest : StackOk Anchored m' rest) : StackOk Anchored m' (push ++ rest) := by
  have hstep := h.step
  rw [exec, if_pos h.inLifetime] at hstep
  simp only [Exec.releaseControl] at hstep
  split at hstep
  · cases hstep
    exact hrest
  · cases hstep

/-! ## Output slots -/

theorem removeBackArc_anchored {n p : ℕ}
    (h : Legal m spurious (.removeBackArc n p) m' push spawned)
    (hrest : StackOk Anchored m' rest) : StackOk Anchored m' (push ++ rest) := by
  have hstep := h.step
  rw [exec, if_pos h.inLifetime] at hstep
  simp only [Exec.removeBackArc_eq] at hstep
  split at hstep
  · cases hstep
  · cases hstep
    split
    · exact ⟨⟨kept_none, trivial⟩, hrest⟩
    · exact hrest

theorem notifyNextWriter_anchored {n p : ℕ}
    (h : Legal m spurious (.notifyNextWriter n p) m' push spawned)
    (hrest : StackOk Anchored m' rest) : StackOk Anchored m' (push ++ rest) := by
  have hstep := h.step
  rw [exec, if_pos h.inLifetime] at hstep
  simp only [Exec.notifyNextWriter] at hstep
  split at hstep
  · cases hstep
  · rename_i calls k hcalls
    cases hstep
    rw [List.append_assoc]
    exact stackOk_free (free_notifyCalls hcalls)
      ⟨(free_release (ready_notifyCalls (m := m) hcalls).2).anchored, hrest⟩

theorem setNextWriter_anchored {n p : ℕ} {d : NextWriter}
    (h : Legal m spurious (.setNextWriter n p d) m' push spawned)
    (hrest : StackOk Anchored m' rest) : StackOk Anchored m' (push ++ rest) := by
  have hstep := h.step
  rw [exec, if_pos h.inLifetime] at hstep
  simp only [Exec.setNextWriter_eq] at hstep
  repeat' split at hstep
  all_goals first
    | (cases hstep; done)
    | (cases hstep; exact hrest)
    | (cases hstep; exact ⟨⟨kept_none, trivial⟩, hrest⟩)

/-! ## Completion -/

section Completion

variable {t : ℕ} {count : List ℤ}
variable (hkept : ∀ q ∈ [t], Kept m' q rest) (hrest : StackOk Anchored m' rest)

include hkept hrest

theorem storeCountdown_anchored {canThrow : Bool}
    (h : Legal m spurious (.storeCountdown t canThrow count) m' push spawned) :
    StackOk Anchored m' (push ++ rest) := by
  have hstep := h.step
  rw [exec, if_pos h.inLifetime] at hstep
  simp only [Exec.storeCountdown, OutputNode.arm] at hstep
  split at hstep
  · cases hstep
    exact ⟨⟨hkept, trivial⟩, hrest⟩
  · cases hstep
    split <;> exact ⟨⟨hkept, trivial⟩, hrest⟩

theorem loadException_anchored (h : Legal m spurious (.loadException t count) m' push spawned) :
    StackOk Anchored m' (push ++ rest) := by
  have hstep := h.step
  rw [exec, if_pos h.inLifetime] at hstep
  cases hstep
  split <;> exact ⟨⟨hkept, trivial⟩, hrest⟩

theorem findTerminal_anchored (h : Legal m spurious (.findTerminal t count) m' push spawned) :
    StackOk Anchored m' (push ++ rest) := by
  have hexec : completing t count (.exec t) = 1 := completing_exec
  unfold completing at hexec
  obtain ⟨ht, hphase, -⟩ := h.runs (t := t) (by simp [Instr.tokens, hexec])
  have hstep := h.step
  rw [exec, if_pos h.inLifetime] at hstep
  simp only [Exec.findTerminal] at hstep
  split at hstep
  · rename_i c hcontrol
    cases hstep
    refine ⟨⟨hkept, ?_⟩, hrest⟩
    -- a task that has not finished has an open list, and the scan finds a payload in it
    obtain ⟨l, hlist⟩ := (h.mem.node t ht).opened (by simp [hphase])
    rw [localControl, hlist] at hcontrol
    obtain ⟨a, hfind, hc⟩ := Option.map_eq_some_iff.mp hcontrol
    exact ⟨l, a, hlist, List.mem_of_find?_eq_some hfind,
      of_decide_eq_true (List.find?_some (p := fun a => decide ((m.arc a).kind = .exceptionSignal))
        hfind), hc⟩
  · cases hstep
    exact ⟨⟨hkept, trivial⟩, hrest⟩

theorem retainTerminal_anchored {c : ℕ}
    (h : Legal m spurious (.retainTerminal t c count) m' push spawned) :
    StackOk Anchored m' (push ++ rest) := by
  have hstep := h.step
  rw [exec, if_pos h.inLifetime] at hstep
  simp only [Exec.retainTerminal] at hstep
  split at hstep
  · cases hstep
    exact ⟨⟨hkept, trivial⟩, hrest⟩
  · cases hstep

theorem closeList_anchored {canThrow : Bool} {terminal : Option ℕ}
    (h : Legal m spurious (.closeList t canThrow terminal count) m' push spawned) :
    StackOk Anchored m' (push ++ rest) := by
  obtain ⟨ht, -, -⟩ := h.runs closeList_exec
  have hstep := h.step
  rw [exec, if_pos h.inLifetime] at hstep
  simp only [Exec.closeList] at hstep
  have hhead : (Exec.closedHead terminal).isDone = true := by
    cases terminal <;> rfl
  have hdone : ∀ x : Node V, x.head = Exec.closedHead terminal → (m.setNode t x).Completed t := by
    intro x hx
    refine ⟨ht, ?_⟩
    rw [Mem.node_setNode_self, hx]
    exact hhead
  split at hstep
  · cases hstep
    exact ⟨⟨hkept, hdone _ rfl⟩, hrest⟩
  · cases hstep
    split <;> exact ⟨⟨hkept, hdone _ rfl⟩, hrest⟩
  · cases hstep

theorem loadFailureFlag_anchored {r : List ℕ}
    (h : Legal m spurious (.loadFailureFlag t r count) m' push spawned) (hdone : m'.Completed t) :
    StackOk Anchored m' (push ++ rest) := by
  have hstep := h.step
  rw [exec, if_pos h.inLifetime] at hstep
  cases hstep
  exact ⟨⟨hkept, hdone⟩, hrest⟩

omit hrest [Inhabited V] in
/-- A failure is published from a closed task, for a task whose prerequisite is removed below. -/
theorem publish_over {failed : Bool} {n p : ℕ} {l : List (Instr V)} (hclosed : m'.Closed t)
    (hn : Kept m' n l) (hl : StackOk Anchored m' (l ++ rest)) :
    StackOk Anchored m' ((if failed then [Instr.publish n t p] else []) ++ (l ++ rest)) := by
  have ht : Kept m' t (l ++ rest) := (hkept t List.mem_cons_self).append
  have hn' : Kept m' n (l ++ rest) := by
    obtain ⟨x, hx, hkeeps⟩ := hn
    exact ⟨x, List.mem_append_left _ hx, hkeeps⟩
  cases failed with
  | false => exact hl
  | true => exact ⟨⟨kept_two hn' ht, hclosed⟩, hl⟩

theorem notifyArcs_anchored {canThrow failed : Bool} {r : List ℕ}
    (h : Legal m spurious (.notifyArcs t canThrow failed r count) m' push spawned)
    (hdone : m'.Completed t) : StackOk Anchored m' (push ++ rest) := by
  have hnext : ∀ (r : List ℕ) (count : List ℤ),
      StackOk Anchored m' (.notifyArcs t canThrow failed r count :: rest) :=
    fun _ _ => ⟨⟨hkept, hdone⟩, hrest⟩
  have hspent : ∀ (a : ℕ) (r : List ℕ) (count : List ℤ),
      StackOk Anchored m' (.deleteArc a :: .notifyArcs t canThrow failed r count :: rest) :=
    fun a r count => ⟨⟨kept_none, trivial⟩, hnext r count⟩
  have hpre : ∀ (n : ℕ) (l : List (Instr V)), Kept m' n (.removePrerequisite n 1 :: l) :=
    fun n l => .head (keeps_removePrerequisite one_pos)
  have hremoved : ∀ (n : ℕ) (j : Instr V),
      Kept m' n ([.removePrerequisite n 1, j] ++ rest) := fun n j => hpre n (j :: rest)
  have hstep := h.step
  rw [exec, if_pos h.inLifetime] at hstep
  cases r with
  | nil =>
    cases hstep
    exact ⟨⟨hkept, hdone⟩, hrest⟩
  | cons a r =>
    simp only [Exec.notifyArcs] at hstep
    split at hstep
    · split at hstep
      · cases hstep
        exact hspent a r count
      · cases hstep
    · cases hstep
      exact ⟨⟨kept_none, trivial⟩, hspent a r count⟩
    · split at hstep
      · cases hstep
        rw [List.append_assoc]
        exact publish_over hkept hdone.closed (hpre _ _) ⟨⟨kept_none, trivial⟩, hspent a r count⟩
      · cases hstep
        rw [List.append_assoc, List.append_assoc]
        refine ⟨⟨kept_one ?_, ?_⟩, ?_⟩
        · exact (hremoved _ _).append
        · exact (held_removePrerequisite _ _).append
        · exact publish_over hkept hdone.closed (hpre _ _) ⟨⟨kept_none, trivial⟩, hnext _ _⟩
    · cases hstep
      rw [List.append_assoc]
      exact publish_over hkept hdone.closed (hpre _ _) ⟨⟨kept_none, trivial⟩, hspent a r count⟩
    · cases hstep
    · cases hstep

theorem outLoad_anchored {i refs : ℕ}
    (h : Legal m spurious (.outLoad t i count refs) m' push spawned) (hdone : m'.Completed t) :
    StackOk Anchored m' (push ++ rest) := by
  have hstep := h.step
  rw [exec, if_pos h.inLifetime, Exec.outLoad] at hstep
  split at hstep
  · split at hstep <;> cases hstep <;> exact ⟨⟨hkept, hdone⟩, hrest⟩
  · cases hstep
    exact ⟨⟨hkept, hdone⟩, hrest⟩

theorem outCas_anchored {i refs : ℕ}
    (h : Legal m spurious (.outCas t i count refs) m' push spawned) (hdone : m'.Completed t) :
    StackOk Anchored m' (push ++ rest) := by
  have hstep := h.step
  rw [exec, if_pos h.inLifetime] at hstep
  simp only [Exec.outCas_eq] at hstep
  split at hstep <;> cases hstep <;> exact ⟨⟨hkept, hdone⟩, hrest⟩

theorem outSub_anchored {i refs : ℕ}
    (h : Legal m spurious (.outSub t i count refs) m' push spawned) (hdone : m'.Completed t) :
    StackOk Anchored m' (push ++ rest) := by
  have hstep := h.step
  rw [exec, if_pos h.inLifetime] at hstep
  simp only [Exec.outSub_eq] at hstep
  split at hstep
  · cases hstep
  · cases hstep
    split <;> exact ⟨⟨hkept, hdone⟩, hrest⟩

theorem outNotify_anchored {i refs : ℕ}
    (h : Legal m spurious (.outNotify t i count refs) m' push spawned) (hdone : m'.Completed t) :
    StackOk Anchored m' (push ++ rest) := by
  have hstep := h.step
  rw [exec, if_pos h.inLifetime] at hstep
  simp only [Exec.outNotify] at hstep
  split at hstep
  · cases hstep
  · rename_i calls k hcalls
    cases hstep
    rw [List.append_assoc]
    exact stackOk_free (free_notifyCalls hcalls) ⟨⟨hkept, hdone⟩, hrest⟩

theorem wakeup_anchored {refs : ℕ} (h : Legal m spurious (.wakeup t refs) m' push spawned) :
    StackOk Anchored m' (push ++ rest) := by
  have hstep := h.step
  rw [exec, if_pos h.inLifetime] at hstep
  cases hstep
  refine ⟨⟨fun q hq => ?_, trivial⟩, hrest⟩
  simp only [Instr.needs] at hq
  split at hq
  · exact hkept q hq
  · cases hq

end Completion

end Legal

end Oox
