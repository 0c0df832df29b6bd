import Oox.Lifetime.Pins

/-!
# How far a task has come

The right to run a task passes from instruction to instruction: from `spawn` to the start of
`execute`, through the body's own operations, to the completion of the task. At each of these
stages the instruction that holds the right knows whether the body ran.
-/

set_option autoImplicit false

namespace Oox

open Library

variable {V : Type}

/-! ## Stages -/

inductive Stage where
  /-- dispatched; a forwarding task is dispatched again when the var it returned is complete. -/
  | entering
  /-- `execute` let the body run. -/
  | calling
  /-- the body runs. -/
  | inside
  /-- the body returned a var. -/
  | returned
  /-- the task completes. -/
  | ending
  deriving DecidableEq

def After.stage : After V → Option (ℕ × Stage)
  | .exit => none
  | .body t _ _ => some (t, .inside)

def AddSite.stage : AddSite V → Option (ℕ × Stage)
  | .assign f _ => f.after.stage
  | .assignTo f _ => f.after.stage
  | .ownBack f => f.after.stage
  | .forward t => some (t, .returned)
  | _ => none

/-- The task whose run an instruction continues. -/
def Instr.stage : Instr V → Option (ℕ × Stage)
  | .addArc _ _ site => site.stage
  | .addArcCas _ _ _ site => site.stage
  | .storeCountdown t _ _ => some (t, .ending)
  | .loadException t _ => some (t, .ending)
  | .findTerminal t _ => some (t, .ending)
  | .retainTerminal t _ _ => some (t, .ending)
  | .closeList t _ _ _ => some (t, .ending)
  | .spawn n => some (n, .entering)
  | .execute t => some (t, .entering)
  | .invoke t => some (t, .calling)
  | .finish t _ _ _ => some (t, .inside)
  | .storeStart t => some (t, .returned)
  | .addLife t => some (t, .returned)
  | .forwardFailure t => some (t, .returned)
  | .setup f => f.after.stage
  | .assignHead f _ _ _ => f.after.stage
  | .assignFailure f _ _ _ => f.after.stage
  | .assignIncrement f _ _ _ => f.after.stage
  | .bind f => f.after.stage
  | .moveResult f _ => f.after.stage
  | .runOps _ _ after => after.stage
  | _ => none

/-- What is known of the task at a stage. -/
def Stage.Ok (x : Node V) : Stage → Prop
  | .entering => x.runs = 0 ∨ x.innerSet = true
  | .calling => x.runs = 0
  | .inside => x.runs = 1
  | .returned => x.innerSet = true
  | .ending => x.runs = 1 ∨ x.startCount.failed = true

def Instr.Staged (m : Mem V) (ins : Instr V) : Prop :=
  ∀ t s, ins.stage = some (t, s) → s.Ok (m.node t)

theorem Instr.staged_none {m : Mem V} {ins : Instr V} (h : ins.stage = none) : ins.Staged m := by
  intro t s hstage
  rw [h] at hstage
  cases hstage

theorem Instr.staged_some {m : Mem V} {ins : Instr V} {t : ℕ} {s : Stage}
    (h : ins.stage = some (t, s)) (hs : s.Ok (m.node t)) : ins.Staged m := by
  intro t' s' hstage
  rw [h] at hstage
  cases hstage
  exact hs

/-- How often a task ran and completed, by its phase. -/
structure NodeOnce (x : Node V) : Prop where
  waits : x.phase = .setup ∨ x.phase = .waiting ∨ x.phase = .suspended → 0 < x.startCount.count
  fresh : x.phase = .setup ∨ x.phase = .waiting → x.runs = 0
  offered : x.phase = .forwarding ∨ x.phase = .suspended → x.innerSet = true
  returned : x.innerSet = true → x.runs = 1
  runs : x.runs ≤ 1
  closes : x.closes = if x.kind = .task ∧ x.phase = .finished then 1 else 0
  skipped : x.kind = .task → x.phase = .finished → x.runs = 1 ∨ x.startCount.failed = true

/-! ## The right to run -/

theorem After.tokens_stage {after : After V} {t : ℕ} {s : Stage}
    (h : after.stage = some (t, s)) : 1 ≤ after.tokens (.exec t) := by
  cases after with
  | exit => cases h
  | body t' vals cells =>
    cases h
    simp [After.tokens, running, one, arms]

/-- An instruction at a stage holds the right to run or to complete the task. -/
theorem Instr.tokens_stage {m : Mem V} {ins : Instr V} (hok : ins.Ok m) {t : ℕ} {s : Stage}
    (h : ins.stage = some (t, s)) : 1 ≤ ins.tokens (.exec t) ∨ 1 ≤ ins.tokens (.forward t) := by
  have hcount : ∀ (i : ℕ) (count : List ℤ), counters t i count (.exec t) = 0 := fun i count =>
    counters_eq_zero (by simp) (by simp)
  have hframe : ∀ {f : Frame V} {c : ℕ}, f.Ok m c → f.after.stage = some (t, s) →
      1 ≤ f.tokens c (.exec t) := fun hf hs =>
    (After.tokens_stage hs).trans (Frame.after_le_tokens (by have := hf.1; omega) _)
  have hsite : ∀ {n a : ℕ} {site : AddSite V}, site.Ok m n a → site.stage = some (t, s) →
      1 ≤ site.tokens n a (.exec t) ∨ 1 ≤ site.tokens n a (.forward t) := by
    intro n a site hs hstage
    cases site with
    | assign f p =>
      have hle := hframe hs.frame hstage
      left
      simpa [AddSite.tokens, one] using hle
    | assignTo f p => exact hs.elim
    | ownBack f =>
      have hle := hframe hs.2 hstage
      left
      simpa [AddSite.tokens, one] using hle
    | forward t' =>
      cases hstage
      right
      simp [AddSite.tokens, one, arms]
    | _ => cases hstage
  have hassign : ∀ {f : Frame V} {n p a : ℕ}, AssignOk m f n p a →
      f.after.stage = some (t, s) → 1 ≤ one (.arc a n) (.exec t) + f.tokens (f.count + 1) (.exec t) := by
    intro f n p a hs hstage
    have hle := hframe hs.frame hstage
    simpa [one] using hle
  cases ins with
  | addArc n a site => exact hsite hok h
  | addArcCas n a seen site => exact hsite hok h
  | addLife t' =>
    cases h
    right
    simp [Instr.tokens, one, arms]
  | setup f => exact .inl (hframe hok h)
  | bind f => exact .inl (hframe hok.2 h)
  | assignHead f n p a => exact .inl (hassign hok.1 h)
  | assignFailure f n p a => exact .inl (hassign hok.1 h)
  | assignIncrement f n p a => exact .inl (hassign hok.1 h)
  | moveResult f r =>
    have hle := After.tokens_stage h
    have hvars := varTokens_nonneg f.env (.exec t)
    have howns := r.owns_nonneg (.exec t)
    left
    simp only [Instr.tokens]
    omega
  | runOps env ops after =>
    have hle := After.tokens_stage h
    have hvars := varTokens_nonneg env (.exec t)
    left
    simp only [Instr.tokens]
    omega
  | finish t' env vals cells =>
    cases h
    have hvars := varTokens_nonneg env (.exec t)
    left
    simp only [Instr.tokens, running, one_self, arms]
    omega
  | closeList t' canThrow terminal count =>
    cases h
    left
    simp only [Instr.tokens, running, one_self, arms, hcount]
    cases terminal <;> simp [one]
  | storeCountdown t' canThrow count | loadException t' count | findTerminal t' count
  | retainTerminal t' c count =>
    cases h
    left
    simp [Instr.tokens, running, one, arms, hcount]
  | spawn n | execute t' | invoke t' | storeStart t' | forwardFailure t' =>
    cases h
    left
    simp [Instr.tokens, running, one, arms]
  | _ => cases h

/-! ## What the thread of a task relies on -/

/-- The step leaves what the thread of a task relies on. -/
structure Carries (x x' : Node V) : Prop where
  runs : x'.runs = x.runs
  innerSet : x.innerSet = true → x'.innerSet = true
  failed : x.startCount.failed = true → x'.startCount.failed = true

theorem Stage.Ok.carried {x x' : Node V} {s : Stage} (h : s.Ok x) (hx : Carries x x') :
    s.Ok x' := by
  cases s with
  | entering => exact h.imp (fun hruns => hx.runs.trans hruns) hx.innerSet
  | calling => exact hx.runs.trans h
  | inside => exact hx.runs.trans h
  | returned => exact hx.innerSet h
  | ending => exact h.imp (fun hruns => hx.runs.trans hruns) hx.failed

/-- The instructions that change what the thread of task `t` relies on. -/
def Instr.alters (t : ℕ) : Instr V → Prop
  | .invoke t' => t = t'
  | .finish t' _ _ _ => t = t'
  | .storeStart t' => t = t'
  | _ => False

theorem Instr.alters_tokens {ins : Instr V} {t : ℕ} (h : ins.alters t) :
    1 ≤ ins.tokens (.exec t) := by
  cases ins with
  | invoke t' =>
    obtain rfl := h
    simp [Instr.tokens, running, arms]
  | finish t' env vals cells =>
    obtain rfl := h
    have hvars := varTokens_nonneg env (.exec t)
    simp only [Instr.tokens, running, one_self, arms]
    omega
  | storeStart t' =>
    obtain rfl := h
    simp [Instr.tokens, running, arms]
  | _ => exact h.elim

variable [Inhabited V]

namespace Legal

variable {m m' : Mem V} {spurious : Bool} {ins j : Instr V} {push : List (Instr V)}
variable {spawned : List (List (Instr V))} {n t : ℕ}

/-- A failure bit stays until the task offers itself as a consumer of the var it returned. -/
theorem failed_stays (h : Legal m spurious ins m' push spawned) (hn : n < m.nodes.size)
    (hins : ¬ ins.alters n) (hfailed : (m.node n).startCount.failed = true) :
    (m'.node n).startCount.failed = true := by
  rcases (h.changes.node n hn).startCount with heq | hchange
  · rw [heq, hfailed]
  · cases ins with
    | removePrerequisite n' k =>
      obtain ⟨-, -, hw⟩ := hchange
      rw [hw]
      exact hfailed
    | markCas n' b word =>
      obtain ⟨-, -, hw⟩ := hchange
      rw [hw]
      cases b <;> simp [StartCount.mark, StartCount.failed]
    | storeStart t => exact absurd hchange.1 hins
    | _ => exact hchange.elim

/-- A node whose task has not finished is not being destroyed. -/
theorem not_destroyed (h : Legal m spurious (.destroy n) m' push spawned)
    (hphase : (m.node n).phase ≠ .finished) : False := by
  have hdel := h.covered (.del n)
  simp only [Instr.tokens, one_self] at hdel
  obtain ⟨hn, hstatus, -⟩ := owed_del (n := n) (m := m) (by omega)
  have hlive := h.mem.live_of_phase (h.balance_le _) hn hphase
  rw [hstatus] at hlive
  cases hlive

theorem carries (h : Legal m spurious ins m' push spawned) (hn : n < m.nodes.size)
    (hphase : (m.node n).phase ≠ .finished) (hins : ¬ ins.alters n) :
    Carries (m.node n) (m'.node n) where
  runs := by
    rcases (h.changes.node n hn).run with hsame | hchange
    · exact hsame.1
    · cases ins with
      | execute t => exact hchange.2.2.1
      | invoke t => exact absurd hchange.1 hins
      | finish t env vals cells => exact hchange.2.1
      | closeList t canThrow terminal count => exact hchange.2.2.1
      | _ => exact hchange.elim
  innerSet hset := by
    rcases (h.changes.node n hn).innerSet with heq | hchange
    · rw [heq, hset]
    · cases ins with
      | finish t env vals cells => exact hchange.2.1
      | destroy n' =>
        obtain ⟨rfl, -⟩ := hchange
        exact (h.not_destroyed hphase).elim
      | _ => exact hchange.elim
  failed := h.failed_stays hn hins

/-- The thread of a task keeps what it knows of the task over the steps of others. -/
theorem staged_stable (h : Legal m spurious ins m' push spawned) (hwith : With m ins j)
    (hok : j.Ok m) (hj : j.Staged m) : j.Staged m' := by
  intro t s hstage
  have hexec : ∀ k, 1 ≤ j.tokens k → 0 < -balance m k := fun k hk => by
    have hsum := hwith k
    have hpos := h.nonneg k
    omega
  obtain ⟨ht, hphase, hnot⟩ : t < m.nodes.size ∧ (m.node t).phase ≠ .finished ∧
      ¬ ins.alters t := by
    rcases Instr.tokens_stage hok hstage with hrun | hforward
    · obtain ⟨ht, hphase, -⟩ := owed_exec (hexec _ hrun)
      refine ⟨ht, by simp [hphase], fun halters => ?_⟩
      have hzero := h.not_held hwith hrun fun hpos => (owed_exec hpos).2.2
      have hone := Instr.alters_tokens halters
      omega
    · obtain ⟨ht, hphase, -⟩ := owed_forward (hexec _ hforward)
      refine ⟨ht, by simp [hphase], fun halters => ?_⟩
      have hone := Instr.alters_tokens halters
      have hcov := h.covered (.exec t)
      have hrunning := (owed_exec (n := t) (m := m) (by omega)).2.1
      rw [hphase] at hrunning
      cases hrunning
  exact (hj t s hstage).carried (h.carries ht hphase hnot)

end Legal

end Oox
