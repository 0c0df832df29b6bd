import Oox.Lifetime.AnchorPushes

/-!
# Every step leaves its stack anchored, continued

The calls that add arcs, run tasks, publish failures, set up arguments and issue operations; the
theorem that collects all instructions; and the invariant of every run.
-/

set_option autoImplicit false

namespace Oox

open Library

variable {V : Type} [Inhabited V]

namespace Legal

variable {m m' : Mem V} {spurious : Bool} {ins : Instr V} {push rest : List (Instr V)}
variable {spawned : List (List (Instr V))}

/-! ## add_arc -/

theorem addArc_anchored {n a : ℕ} {site : AddSite V}
    (h : Legal m spurious (.addArc n a site) m' push spawned)
    (hkept : ∀ q ∈ site.needs n, Kept m' q rest) (haims : site.Aims m rest n)
    (hrest : StackOk Anchored m' rest) : StackOk Anchored m' (push ++ rest) := by
  have hok : site.Ok m n a := h.ok
  have hcov := h.covered
  have hmem := h.mem
  have hstep := h.step
  rw [exec, if_pos h.inLifetime, Exec.addArc] at hstep
  split at hstep
  · cases hstep
    exact ⟨⟨hkept, haims⟩, hrest⟩
  · rename_i hclosed
    cases site with
    | assign f p =>
      cases hstep
      exact ⟨⟨hkept, trivial⟩, hrest⟩
    | assignTo f p => exact hok.elim
    | thrown =>
      cases hstep
      exact ⟨⟨kept_none, trivial⟩, ⟨hkept, trivial⟩, hrest⟩
    | signal =>
      cases hstep
      exact ⟨⟨kept_none, trivial⟩, ⟨hkept, trivial⟩, hrest⟩
    | forward t =>
      obtain ⟨ht, hphase⟩ := forwarding_of_site hcov
      have hlt := (hmem.inner_var (.inr hphase) ht).2
      have hn := ((hmem.var _ hlt).slot n haims).1
      have htask : (m.var (m.node t).inner).currentTask = some n := haims
      cases hstep
      refine ⟨(free_release (by decide)).anchored, ⟨kept_none, trivial⟩, ?_⟩
      split
      · refine ⟨⟨hkept, n, ?_, hn, fun l => ?_⟩, hrest⟩
        · simp [Mem.spend, htask]
        · have hsame : (((m.setNode t { m.node t with phase := .running }).spend a).node n).head =
              (m.node n).head := by
            rw [Mem.spend, Mem.node_setArc, Mem.node_setNode]
            split
            · rename_i heq
              rw [heq]
            · rfl
          rw [hsame]
          exact hclosed l
      · exact ⟨⟨hkept, trivial⟩, hrest⟩
    | _ => cases hstep

theorem addArcCas_anchored {n a : ℕ} {seen : List ℕ} {site : AddSite V}
    (h : Legal m spurious (.addArcCas n a seen site) m' push spawned)
    (hkept : ∀ q ∈ site.needs n, Kept m' q rest) (haims : site.Aims m rest n)
    (hrest : StackOk Anchored m' rest) : StackOk Anchored m' (push ++ rest) := by
  have hok : site.Ok m n a := h.ok
  have hstep := h.step
  rw [exec, if_pos h.inLifetime, Exec.addArcCas] at hstep
  split at hstep
  · cases site with
    | assign f p =>
      cases hstep
      exact ⟨⟨hkept, trivial⟩, hrest⟩
    | assignTo f p => exact hok.elim
    | ownBack f =>
      cases hstep
      exact ⟨⟨hkept, trivial⟩, hrest⟩
    | thrown =>
      cases hstep
      exact ⟨⟨hkept, trivial⟩, hrest⟩
    | signal =>
      cases hstep
      exact ⟨⟨hkept, trivial⟩, hrest⟩
    | _ =>
      cases hstep
      exact hrest
  · cases hstep
    exact ⟨⟨hkept, haims⟩, hrest⟩

/-! ## Prerequisites and failures -/

theorem removePrerequisite_anchored {n k : ℕ}
    (h : Legal m spurious (.removePrerequisite n k) m' push spawned)
    (hrest : StackOk Anchored m' rest) : StackOk Anchored m' (push ++ rest) := by
  have hguard : Keeps m' n (.release n 1 : Instr V) :=
    .of_pin (k := .life n) rfl (by simp [Instr.tokens])
  have hstep := h.step
  rw [exec, if_pos h.inLifetime] at hstep
  simp only [Exec.removePrerequisite_eq] at hstep
  split at hstep
  · cases hstep
  · split at hstep
    · cases hstep
      split
      · exact ⟨⟨kept_one (.head hguard), trivial⟩, (free_release (by decide)).anchored, hrest⟩
      · exact ⟨⟨kept_none, trivial⟩, hrest⟩
    · cases hstep
      exact hrest

theorem publish_anchored {n source p : ℕ}
    (h : Legal m spurious (.publish n source p) m' push spawned)
    (hkept : ∀ q ∈ [n, source], Kept m' q rest) (haims : m.Closed source)
    (hrest : StackOk Anchored m' rest) : StackOk Anchored m' (push ++ rest) := by
  have hn := kept_one (hkept n List.mem_cons_self)
  have hstep := h.step
  rw [exec, if_pos h.inLifetime] at hstep
  simp only [Exec.publish_eq] at hstep
  repeat' split at hstep
  all_goals
    cases hstep
    first | exact ⟨⟨hn, trivial⟩, hrest⟩ | exact ⟨⟨hkept, haims⟩, hrest⟩ | exact hrest

theorem publishControl_anchored {n source : ℕ}
    (h : Legal m spurious (.publishControl n source) m' push spawned)
    (hkept : ∀ q ∈ [n, source], Kept m' q rest) (haims : m.Closed source)
    (hrest : StackOk Anchored m' rest) : StackOk Anchored m' (push ++ rest) := by
  have hn := kept_one (hkept n List.mem_cons_self)
  have hstep := h.step
  rw [exec, if_pos h.inLifetime, Exec.publishControl] at hstep
  split at hstep
  · rename_i c hcontrol
    cases hstep
    refine ⟨⟨hn, ?_⟩, hrest⟩
    unfold localControl at hcontrol
    split at hcontrol
    · rename_i a hhead
      exact ⟨source, a, hkept source (by simp), haims.lt, hhead, Option.some.inj hcontrol⟩
    · rename_i l hhead
      exact absurd hhead (haims.head l)
    · cases hcontrol
  · cases hstep
    exact ⟨⟨hn, trivial⟩, hrest⟩

section Marks

variable {n : ℕ} (hkept : ∀ q ∈ [n], Kept m' q rest) (hrest : StackOk Anchored m' rest)

include hkept hrest

theorem retainSignal_anchored {c : ℕ}
    (h : Legal m spurious (.retainSignal n c) m' push spawned) :
    StackOk Anchored m' (push ++ rest) := by
  have hstep := h.step
  rw [exec, if_pos h.inLifetime] at hstep
  simp only [Exec.retainSignal] at hstep
  split at hstep
  · cases hstep
    exact ⟨⟨hkept, trivial⟩, hrest⟩
  · cases hstep

theorem mark_anchored {b : FailureBit} (h : Legal m spurious (.mark n b) m' push spawned) :
    StackOk Anchored m' (push ++ rest) := by
  have hstep := h.step
  rw [exec, if_pos h.inLifetime] at hstep
  cases hstep
  split
  · exact hrest
  · exact ⟨⟨hkept, trivial⟩, hrest⟩

theorem markLoad_anchored {b : FailureBit}
    (h : Legal m spurious (.markLoad n b) m' push spawned) :
    StackOk Anchored m' (push ++ rest) := by
  have hstep := h.step
  rw [exec, if_pos h.inLifetime] at hstep
  cases hstep
  exact ⟨⟨hkept, trivial⟩, hrest⟩

theorem markCheck_anchored {b : FailureBit} {word : StartCount}
    (h : Legal m spurious (.markCheck n b word) m' push spawned) :
    StackOk Anchored m' (push ++ rest) := by
  have hstep := h.step
  rw [exec, if_pos h.inLifetime] at hstep
  cases hstep
  split
  · exact hrest
  · exact ⟨⟨hkept, trivial⟩, hrest⟩

theorem markCas_anchored {b : FailureBit} {word : StartCount}
    (h : Legal m spurious (.markCas n b word) m' push spawned) :
    StackOk Anchored m' (push ++ rest) := by
  have hstep := h.step
  rw [exec, if_pos h.inLifetime] at hstep
  simp only [Exec.markCas] at hstep
  split at hstep
  · cases hstep
    exact hrest
  · cases hstep
    exact ⟨⟨hkept, trivial⟩, hrest⟩

/-! ## Waiting -/

theorem waitHead_anchored (h : Legal m spurious (.waitHead n) m' push spawned) :
    StackOk Anchored m' (push ++ rest) := by
  have hstep := h.step
  rw [exec, if_pos h.inLifetime] at hstep
  cases hstep
  split
  · exact hrest
  · exact ⟨⟨hkept, trivial⟩, hrest⟩

theorem waitBlock_anchored (h : Legal m spurious (.waitBlock n) m' push spawned)
    (hwoken : n < m.nodes.size → (m.node n).woken = true → m.Completed n) :
    StackOk Anchored m' (push ++ rest) := by
  have hlt := h.mem.lt_of_live (h.live (n := n) List.mem_cons_self)
  have hstep := h.step
  rw [exec, if_pos h.inLifetime, Exec.waitBlock] at hstep
  split at hstep
  · rename_i hset
    cases hstep
    exact ⟨⟨hkept, hwoken hlt hset⟩, hrest⟩
  · cases hstep

omit hkept in
theorem waitDone_anchored (h : Legal m spurious (.waitDone n) m' push spawned) :
    StackOk Anchored m' (push ++ rest) := by
  have hstep := h.step
  rw [exec, if_pos h.inLifetime, Exec.waitDone] at hstep
  split at hstep
  · cases hstep
    exact hrest
  · cases hstep

end Marks

/-! ## execute -/

section Execution

variable {t : ℕ} (hkept : ∀ q ∈ [t], Kept m' q rest) (hrest : StackOk Anchored m' rest)

include hkept hrest

theorem execute_anchored (h : Legal m spurious (.execute t) m' push spawned) :
    StackOk Anchored m' (push ++ rest) := by
  have hstep := h.step
  rw [exec, if_pos h.inLifetime] at hstep
  simp only [Exec.execute] at hstep
  repeat' split at hstep
  all_goals
    cases hstep
    exact ⟨⟨hkept, trivial⟩, hrest⟩

theorem invoke_anchored (h : Legal m spurious (.invoke t) m' push spawned) :
    StackOk Anchored m' (push ++ rest) := by
  have hstep := h.step
  rw [exec, if_pos h.inLifetime] at hstep
  simp only [Exec.invoke] at hstep
  split at hstep
  · cases hstep
  · cases hstep
    exact ⟨⟨hkept, trivial⟩, hrest⟩

theorem finish_anchored {env : List ℕ} {vals : List V} {cells : List StoragePtr}
    (h : Legal m spurious (.finish t env vals cells) m' push spawned) :
    StackOk Anchored m' (push ++ rest) := by
  have hthrown : ∀ q ∈ [t], Kept m' q (.storeCountdown t true [] :: rest) :=
    fun q hq => (hkept q hq).below
  have hstep := h.step
  rw [exec, if_pos h.inLifetime] at hstep
  simp only [Exec.finish] at hstep
  split at hstep
  · split at hstep
    · cases hstep
      exact ⟨⟨hthrown, trivial⟩, ⟨hkept, trivial⟩, hrest⟩
    · cases hstep
  · split at hstep
    · split at hstep
      · cases hstep
      · cases hstep
        exact ⟨⟨hkept, trivial⟩, hrest⟩
    · cases hstep
      exact ⟨⟨hkept, trivial⟩, hrest⟩
    · split at hstep
      · cases hstep
      · split at hstep
        · cases hstep
        · split at hstep
          · rename_i hsome
            obtain ⟨n, htask⟩ := Option.isSome_iff_exists.mp hsome.1
            cases hstep
            refine ⟨⟨hkept, n, ?_⟩, hrest⟩
            simp only [Mem.node_setVar, Mem.node_setNode_self, Mem.var_setVar_self]
            exact htask
          · cases hstep

theorem storeStart_anchored (h : Legal m spurious (.storeStart t) m' push spawned)
    (haims : (Instr.storeStart t : Instr V).Aims m rest) :
    StackOk Anchored m' (push ++ rest) := by
  obtain ⟨n, htask⟩ := haims
  have hstep := h.step
  rw [exec, if_pos h.inLifetime] at hstep
  cases hstep
  refine ⟨⟨hkept, n, ?_⟩, hrest⟩
  simp only [Mem.node_setNode_self, Mem.var_setNode]
  exact htask

theorem addLife_anchored (h : Legal m spurious (.addLife t) m' push spawned) :
    StackOk Anchored m' (push ++ rest) := by
  have hstep := h.step
  rw [exec, if_pos h.inLifetime] at hstep
  simp only [Exec.addLife] at hstep
  split at hstep
  · cases hstep
  · rename_i n htask
    cases hstep
    refine ⟨⟨hkept, ?_⟩, hrest⟩
    show (Mem.var _ (Mem.node _ t).inner).currentTask = some n
    simp only [Mem.node_newArc, Mem.var_newArc, Mem.node_setNode_self, Mem.var_setNode]
    exact htask

theorem forwardFailure_anchored (h : Legal m spurious (.forwardFailure t) m' push spawned)
    (haims : (Instr.forwardFailure t : Instr V).Aims m rest) :
    StackOk Anchored m' (push ++ rest) := by
  obtain ⟨n, htask, hclosed⟩ := haims
  have hstep := h.step
  rw [exec, if_pos h.inLifetime, Exec.forwardFailure, htask] at hstep
  cases hstep
  have hinner : Keeps m n (.storeCountdown t true [] : Instr V) :=
    .of_inner (t := t) (.inl (by simp [Instr.tokens, running, counters, one, arms])) htask
  split
  · exact ⟨⟨kept_two (hkept t List.mem_cons_self).below (.head hinner), hclosed⟩,
      ⟨hkept, trivial⟩, hrest⟩
  · exact ⟨⟨hkept, trivial⟩, hrest⟩

end Execution

/-! ## run -/

section Setup

variable {f : Frame V} (hkept : ∀ q ∈ f.after.task, Kept m' q rest)
variable (hrest : StackOk Anchored m' rest)

include hkept hrest

theorem setup_anchored (h : Legal m spurious (.setup f) m' push spawned) :
    StackOk Anchored m' (push ++ rest) := by
  have hstep := h.step
  rw [exec, if_pos h.inLifetime] at hstep
  simp only [Exec.setup] at hstep
  repeat' split at hstep
  all_goals first
    | (cases hstep; done)
    | (cases hstep; exact ⟨⟨hkept, trivial⟩, hrest⟩)
    | (cases hstep; exact ⟨⟨kept_none, trivial⟩, ⟨hkept, trivial⟩, hrest⟩)

theorem assignHead_anchored {n p a : ℕ}
    (h : Legal m spurious (.assignHead f n p a) m' push spawned) :
    StackOk Anchored m' (push ++ rest) := by
  have hstep := h.step
  rw [exec, if_pos h.inLifetime, Exec.assignHead] at hstep
  split at hstep <;> cases hstep <;> exact ⟨⟨hkept, trivial⟩, hrest⟩

theorem assignFailure_anchored {n p a : ℕ}
    (h : Legal m spurious (.assignFailure f n p a) m' push spawned) :
    StackOk Anchored m' (push ++ rest) := by
  have hok : AssignOk m f n p a ∧ ∀ l, (m.node n).head ≠ .list l := h.ok
  obtain ⟨v, hv, htask, -⟩ := hok.1.source
  have hle : ∀ k, f.tokens (f.count + 1) k ≤ (Instr.assignIncrement f n p a).tokens k := by
    intro k
    have hone := one_nonneg (.arc a n) k
    simp only [Instr.tokens]
    omega
  obtain ⟨-, hvar⟩ := h.var_of_env (fun w hw => (Frame.le_tokens_var hw).trans (hle _)) hv
  have hn := (hvar.slot n htask).1
  have hstep := h.step
  rw [exec, if_pos h.inLifetime] at hstep
  cases hstep
  have htaskKept : Keeps m f.task (.assignIncrement f n p a) :=
    .of_pin (k := .setup f.task) rfl
      (Int.lt_of_lt_of_le one_pos (Frame.le_tokens_setup.trans (hle _)))
  have hsource : Keeps m n (.assignIncrement f n p a) := keeps_frame (hle _) hv htask
  split
  · exact ⟨⟨kept_two (.head htaskKept) (.head hsource), hn, hok.2⟩, ⟨hkept, trivial⟩, hrest⟩
  · exact ⟨⟨hkept, trivial⟩, hrest⟩

theorem assignIncrement_anchored {n p a : ℕ}
    (h : Legal m spurious (.assignIncrement f n p a) m' push spawned) :
    StackOk Anchored m' (push ++ rest) := by
  have hstep := h.step
  rw [exec, if_pos h.inLifetime] at hstep
  simp only [Exec.assignIncrement_eq] at hstep
  split at hstep
  · cases hstep
    exact ⟨⟨hkept, trivial⟩, hrest⟩
  · cases hstep

theorem bind_anchored (h : Legal m spurious (.bind f) m' push spawned) :
    StackOk Anchored m' (push ++ rest) := by
  have hstep := h.step
  rw [exec, if_pos h.inLifetime] at hstep
  cases hstep
  exact ⟨⟨kept_none, trivial⟩, ⟨hkept, trivial⟩, hrest⟩

theorem moveResult_anchored {r : Var} (h : Legal m spurious (.moveResult f r) m' push spawned) :
    StackOk Anchored m' (push ++ rest) := by
  have hnext : StackOk Anchored m' (.runOps f.env f.ops f.after :: rest) :=
    ⟨⟨hkept, trivial⟩, hrest⟩
  have hstep := h.step
  rw [exec, if_pos h.inLifetime] at hstep
  simp only [Exec.moveResult] at hstep
  repeat' split at hstep
  all_goals first
    | (cases hstep; done)
    | (cases hstep
       rw [List.append_assoc]
       exact stackOk_free (free_releaseVar _) hnext)

end Setup

theorem redirect_anchored {n q t p a : ℕ}
    (h : Legal m spurious (.redirect n q t p a) m' push spawned)
    (hrest : StackOk Anchored m' rest) : StackOk Anchored m' (push ++ rest) := by
  have hstep := h.step
  rw [exec, if_pos h.inLifetime] at hstep
  cases hstep
  exact ⟨⟨kept_none, trivial⟩, hrest⟩

theorem moveArcs_anchored {n q t p : ℕ} {r : List ℕ}
    (h : Legal m spurious (.moveArcs n q t p r) m' push spawned)
    (hrest : StackOk Anchored m' rest) : StackOk Anchored m' (push ++ rest) := by
  have hstep := h.step
  rw [exec, if_pos h.inLifetime] at hstep
  cases r with
  | nil =>
    cases hstep
    exact ⟨⟨kept_none, trivial⟩, hrest⟩
  | cons a r =>
    cases hstep
    have hpre : 0 < (Instr.moveArcs n q t p r : Instr V).tokens (.pre t) := by
      have hlisted := listedTokens_nonneg n r (.pre t)
      have hcap := one_nonneg (.cap n q) (.pre t)
      simp only [Instr.tokens, one_self]
      omega
    exact ⟨⟨kept_one (.head (.of_pin (k := .pre t) rfl hpre)), _, List.mem_cons_self, hpre⟩,
      ⟨kept_none, trivial⟩, hrest⟩

/-! ## The issuing thread -/

omit [Inhabited V] in
theorem assignVar_anchored {m₁ : Mem V} {v : ℕ} {r : Var} {next : List (Instr V)}
    (h : Exec.assignVar m₁ v r next = .next m' push spawned)
    (hnext : StackOk Anchored m' (next ++ rest)) : StackOk Anchored m' (push ++ rest) := by
  unfold Exec.assignVar at h
  dsimp only at h
  split at h
  · cases h
  · cases h
    rw [List.append_assoc]
    exact stackOk_free (free_releaseVar _) hnext

omit [Inhabited V] in
/-- A var of the thread keeps its task for the operation that uses it. -/
theorem keeps_runOps {env : List ℕ} {ops : List (Op V)} {after : After V} {v n : ℕ}
    (hv : v ∈ env) (htask : (m.var v).currentTask = some n) :
    Keeps m n (.runOps env ops after) := by
  refine .of_var (v := v) ?_ htask
  have hone := one_le_varTokens hv
  have hafter := after.tokens_nonneg (.var v)
  simp only [Instr.tokens]
  omega

theorem runOps_anchored {env : List ℕ} {ops : List (Op V)} {after : After V}
    (h : Legal m spurious (.runOps env ops after) m' push spawned)
    (hkept : ∀ q ∈ after.task, Kept m' q rest) (hrest : StackOk Anchored m' rest) :
    StackOk Anchored m' (push ++ rest) := by
  have hnext : ∀ ops, StackOk Anchored m' (.runOps env ops after :: rest) :=
    fun _ => ⟨⟨hkept, trivial⟩, hrest⟩
  have htame := h.tame
  have hstep := h.step
  rw [exec, if_pos h.inLifetime] at hstep
  rcases ops with _ | ⟨op, ops⟩
  · cases after with
    | exit =>
      cases hstep
      exact hrest
    | body t vals cells =>
      cases hstep
      exact ⟨⟨hkept, trivial⟩, hrest⟩
  · cases op with
    | run dst args canThrow kind code =>
      cases hstep
      exact ⟨⟨hkept, trivial⟩, hrest⟩
    | move dst src =>
      simp only [Exec.runOps] at hstep
      split at hstep
      · split at hstep
        · cases hstep
        · split at hstep
          · cases hstep
          · exact assignVar_anchored hstep (hnext ops)
      · cases hstep
    | toNode dst src => exact htame.elim
    | moveNode dst src => exact htame.elim
    | cancel x =>
      simp only [Exec.runOps] at hstep
      split at hstep
      · cases hstep
      · rename_i v henv
        have hv : v ∈ env := List.mem_of_getElem? henv
        split at hstep
        · cases hstep
          exact hnext ops
        · rename_i n htask
          split at hstep
          · cases hstep
            exact hnext ops
          · cases hstep
            exact ⟨⟨kept_one (.head (keeps_runOps hv htask)), trivial⟩, hnext ops⟩
    | wait x =>
      simp only [Exec.runOps] at hstep
      split at hstep
      · cases hstep
      · rename_i v henv
        have hv : v ∈ env := List.mem_of_getElem? henv
        split at hstep
        · cases hstep
        · rename_i n htask
          cases hstep
          exact ⟨⟨kept_one (.below (.head (keeps_runOps hv htask))), trivial⟩,
            ⟨kept_none, trivial⟩, hnext ops⟩
    | get x =>
      simp only [Exec.runOps] at hstep
      split at hstep
      · cases hstep
      · rename_i v henv
        have hv : v ∈ env := List.mem_of_getElem? henv
        split at hstep
        · cases hstep
        · rename_i n htask
          cases hstep
          exact ⟨⟨kept_one (.below (.head (keeps_runOps hv htask))), trivial⟩,
            ⟨kept_none, trivial⟩, hnext ops⟩
    | _ =>
      simp only [Exec.runOps] at hstep
      repeat' split at hstep
      all_goals first
        | exact assignVar_anchored hstep (hnext ops)
        | (cases hstep; exact hnext ops)
        | cases hstep

/-! ## All instructions -/

/-- What a step pushes stands on what is below it. -/
theorem anchored (h : Legal m spurious ins m' push spawned)
    (hwoken : ∀ n < m.nodes.size, (m.node n).woken = true → m.Completed n)
    (hkept : ∀ q ∈ ins.needs, Kept m' q rest) (haims : ins.Aims m rest)
    (hrest : StackOk Anchored m' rest) : StackOk Anchored m' (push ++ rest) := by
  cases ins with
  | release n k => exact h.release_anchored hkept hrest
  | releaseSub n k => exact h.releaseSub_anchored hrest
  | destroy n => exact h.destroy_anchored hrest
  | freeNode n => exact h.freeNode_anchored hrest
  | deleteArc a => exact h.deleteArc_anchored hrest
  | releaseControl c => exact h.releaseControl_anchored hrest
  | addArc n a site => exact h.addArc_anchored hkept haims hrest
  | addArcCas n a seen site => exact h.addArcCas_anchored hkept haims hrest
  | removeBackArc n p => exact h.removeBackArc_anchored hrest
  | notifyNextWriter n p => exact h.notifyNextWriter_anchored hrest
  | setNextWriter n p d => exact h.setNextWriter_anchored hrest
  | storeCountdown t canThrow count => exact storeCountdown_anchored hkept hrest h
  | loadException t count => exact loadException_anchored hkept hrest h
  | findTerminal t count => exact findTerminal_anchored hkept hrest h
  | retainTerminal t c count => exact retainTerminal_anchored hkept hrest h
  | closeList t canThrow terminal count => exact closeList_anchored hkept hrest h
  | loadFailureFlag t r count =>
    exact loadFailureFlag_anchored hkept hrest h (h.completed_stable haims)
  | notifyArcs t canThrow failed r count =>
    exact notifyArcs_anchored hkept hrest h (h.completed_stable haims)
  | outLoad t i count refs =>
    exact outLoad_anchored hkept hrest h (h.completed_stable haims)
  | outCas t i count refs => exact outCas_anchored hkept hrest h (h.completed_stable haims)
  | outSub t i count refs => exact outSub_anchored hkept hrest h (h.completed_stable haims)
  | outNotify t i count refs =>
    exact outNotify_anchored hkept hrest h (h.completed_stable haims)
  | wakeup t refs => exact wakeup_anchored hkept hrest h
  | removePrerequisite n k => exact h.removePrerequisite_anchored hrest
  | spawn n =>
    have hstep := h.step
    rw [exec, if_pos h.inLifetime] at hstep
    cases hstep
    exact hrest
  | publish n source p => exact h.publish_anchored hkept haims hrest
  | publishControl n source => exact h.publishControl_anchored hkept haims hrest
  | retainSignal n c => exact retainSignal_anchored hkept hrest h
  | mark n b => exact mark_anchored hkept hrest h
  | markLoad n b => exact markLoad_anchored hkept hrest h
  | markCheck n b word => exact markCheck_anchored hkept hrest h
  | markCas n b word => exact markCas_anchored hkept hrest h
  | execute t => exact execute_anchored hkept hrest h
  | invoke t => exact invoke_anchored hkept hrest h
  | finish t env vals cells => exact finish_anchored hkept hrest h
  | storeStart t => exact storeStart_anchored hkept hrest h haims
  | addLife t => exact addLife_anchored hkept hrest h
  | forwardFailure t => exact forwardFailure_anchored hkept hrest h haims
  | setup f => exact setup_anchored hkept hrest h
  | assignHead f n p a => exact assignHead_anchored hkept hrest h
  | assignFailure f n p a => exact assignFailure_anchored hkept hrest h
  | assignIncrement f n p a => exact assignIncrement_anchored hkept hrest h
  | redirect n q t p a => exact h.redirect_anchored hrest
  | moveArcs n q t p r => exact h.moveArcs_anchored hrest
  | bind f => exact bind_anchored hkept hrest h
  | moveResult f r => exact moveResult_anchored hkept hrest h
  | runOps env ops after => exact h.runOps_anchored hkept hrest
  | waitHead n => exact waitHead_anchored hkept hrest h
  | waitBlock n => exact waitBlock_anchored hkept hrest h (hwoken n)
  | waitDone n => exact waitDone_anchored hrest h
  | waitStatus v =>
    have hstep := h.step
    rw [exec, if_pos h.inLifetime] at hstep
    cases hstep
    exact hrest
  | waitRead v =>
    have hstep := h.step
    rw [exec, if_pos h.inLifetime, Exec.waitRead] at hstep
    split at hstep
    · cases hstep
    · cases hstep
      exact hrest

/-- A new thread stands on its own. -/
theorem spawned_anchored (h : Legal m spurious ins m' push spawned) :
    ∀ l ∈ spawned, StackOk Anchored m' l := by
  intro l hl
  rcases exec_spawned h.step l hl with ⟨n, rfl⟩ | ⟨env, ops, rfl⟩
  · have hguard : Keeps m' n (.release n 1 : Instr V) :=
      .of_pin (k := .life n) rfl (by simp [Instr.tokens])
    exact ⟨⟨kept_one (.head hguard), trivial⟩, (free_release (by decide)).anchored, trivial⟩
  · exact ⟨⟨kept_none, trivial⟩, trivial⟩

end Legal

/-! ## Runs -/

/-- Only a completed task wakes its waiters. -/
theorem Legal.woken {m m' : Mem V} {spurious : Bool} {ins : Instr V} {push rest : List (Instr V)}
    {spawned : List (List (Instr V))} (h : Legal m spurious ins m' push spawned)
    (hwoken : ∀ n < m.nodes.size, (m.node n).woken = true → m.Completed n)
    (haims : ins.Aims m rest) {n : ℕ} (hlt : n < m'.nodes.size)
    (hn : (m'.node n).woken = true) : m'.Completed n := by
  by_cases hold : n < m.nodes.size
  · apply h.completed_stable
    by_cases hwake : ∃ refs, ins = .wakeup n refs
    · obtain ⟨refs, rfl⟩ := hwake
      exact haims
    · apply hwoken n hold
      have hstep := h.step
      by_cases hother : ∃ t refs, ins = .wakeup t refs
      · obtain ⟨t, refs, rfl⟩ := hother
        have hne : n ≠ t := by
          rintro rfl
          exact hwake ⟨refs, rfl⟩
        rw [exec, if_pos h.inLifetime] at hstep
        cases hstep
        rwa [Mem.node_setNode_of_ne _ _ hne] at hn
      · rw [exec_woken hstep (fun t refs heq => hother ⟨t, refs, heq⟩) hold] at hn
        exact hn
  · -- a new node has woken nobody
    have hbirth := (h.changes.newNode n (by omega) hlt).2
    have hfalse : (m'.node n).woken = false := by
      unfold NodeBirth at hbirth
      split at hbirth
      · rw [hbirth]
        rfl
      · rw [hbirth]
        rfl
      · rw [hbirth]
        rfl
      · rw [hbirth]
        rfl
      · exact hbirth.elim
    rw [hfalse] at hn
    cases hn

/-- A sound configuration in which only completed tasks have woken their waiters, and whose
stacks keep what their instructions need. -/
structure Safe (c : State V) : Prop where
  sound : Sound c
  woken : ∀ n < c.mem.nodes.size, (c.mem.node n).woken = true → c.mem.Completed n
  anchored : ∀ l ∈ c.threads, StackOk Anchored c.mem l

namespace Safe

variable {c c' : State V} {e : Turn}

theorem step (h : Safe c) (he : Admitted c e) (hstep : c.step exec e = some c') : Safe c' := by
  obtain ⟨ins, rest, push, spawned, htop, hexec, hthreads⟩ := Config.step_cases hstep
  have hlegal := h.sound.legal he htop hexec
  have hbacked := Balanced.backed h.sound.law
  have hpos := h.sound.holdings he.bounded
  have hmem : ins :: rest ∈ c.threads := List.mem_of_getElem? htop
  obtain ⟨hself, hbelow⟩ := h.anchored _ hmem
  refine ⟨h.sound.step he hstep, fun n hlt hn => hlegal.woken h.woken hself.aims hlt hn,
    stacks_step hbacked hpos h.anchored htop hthreads ?_ ?_ ?_⟩
  · exact fun other rest' hok hwith => hlegal.anchored_stable hwith hok
  · intro hrest
    refine hlegal.anchored h.woken (fun q hq => ?_) hself.aims hrest
    exact hlegal.kept_stable (fun x hx => together_of_mem hbacked hpos hmem hx)
      (hself.kept q hq)
  · exact hlegal.spawned_anchored

theorem start (locals : ℕ) (ops : List (Op V)) : Safe (initial locals ops) where
  sound := .start locals ops
  woken n hlt hn := by
    simp [initial, Mem.initial, Heap.empty] at hlt
  anchored l hl := by
    rw [List.mem_singleton.mp hl]
    exact ⟨⟨kept_none, trivial⟩, trivial⟩

/-- Every configuration that admitted steps reach is safe. -/
theorem of_reach {locals : ℕ} {ops : List (Op V)}
    (h : Reach exec Admitted (initial locals ops) c) : Safe c :=
  h.invariant (start locals ops) fun _ _ _ hsafe he hstep => hsafe.step he hstep

end Safe

end Oox
