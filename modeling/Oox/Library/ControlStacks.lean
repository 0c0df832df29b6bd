import Mathlib.Data.List.Basic
import Mathlib.Logic.Relation

/-!
# Threads as control stacks over a shared memory

A thread is a list of instructions, innermost call first. One step pops the top
instruction of one thread, applies its effect to the shared memory and pushes
what the instruction still has to do; it may also start new threads. The module
says nothing about what memory and instructions are.
-/

set_option autoImplicit false

namespace Library

/-- What one instruction does: continue in a new memory, wait, or fail. -/
inductive Outcome (Mem Instr Fault : Type) where
  | next (mem : Mem) (push : List Instr) (spawned : List (List Instr))
  | blocked
  | fault (cause : Fault)

/-- The memory an instruction leaves, if it does not fail. -/
def Outcome.Leaves {Mem Instr Fault : Type} (P : Mem → Prop) : Outcome Mem Instr Fault → Prop
  | .next mem _ _ => P mem
  | _ => True

theorem Outcome.Leaves.of_next {Mem Instr Fault : Type} {P : Mem → Prop}
    {o : Outcome Mem Instr Fault} (h : o.Leaves P) {mem : Mem} {push : List Instr}
    {spawned : List (List Instr)} (hnext : o = .next mem push spawned) : P mem := by
  subst hnext
  exact h

/-- A memory and the control stacks of all threads. -/
structure Config (Mem Instr : Type) where
  mem : Mem
  threads : List (List Instr)

/-- One scheduling decision: the thread to run, and a choice its instruction may consult. -/
structure Turn where
  thread : ℕ
  choice : Bool
  deriving DecidableEq, Repr

variable {Mem Instr Fault : Type}

/-- Run the top instruction of the chosen thread. -/
def Config.step (exec : Mem → Bool → Instr → Outcome Mem Instr Fault)
    (c : Config Mem Instr) (e : Turn) : Option (Config Mem Instr) :=
  match c.threads[e.thread]? with
  | some (ins :: rest) =>
    match exec c.mem e.choice ins with
    | .next mem push spawned =>
      some ⟨mem, c.threads.set e.thread (push ++ rest) ++ spawned⟩
    | _ => none
  | _ => none

/-- Run a whole schedule. -/
def Config.run (exec : Mem → Bool → Instr → Outcome Mem Instr Fault)
    (c : Config Mem Instr) : List Turn → Option (Config Mem Instr)
  | [] => some c
  | e :: es => (c.step exec e).bind fun c' => Config.run exec c' es

/-- Run a whole schedule, as long as every turn passes a check. -/
def Config.runIf (exec : Mem → Bool → Instr → Outcome Mem Instr Fault)
    (check : Config Mem Instr → Turn → Bool) (c : Config Mem Instr) :
    List Turn → Option (Config Mem Instr)
  | [] => some c
  | e :: es =>
    if check c e then (c.step exec e).bind fun c' => Config.runIf exec check c' es else none

/-- A schedule that runs the named threads for so many steps each. -/
def rounds (l : List (ℕ × ℕ)) : List Turn := l.flatMap fun x => List.replicate x.2 ⟨x.1, false⟩

/-- The configurations reachable from `c₀` by steps that `allowed` admits. -/
inductive Reach (exec : Mem → Bool → Instr → Outcome Mem Instr Fault)
    (allowed : Config Mem Instr → Turn → Prop) (c₀ : Config Mem Instr) :
    Config Mem Instr → Prop
  | start : Reach exec allowed c₀ c₀
  | step {c c' : Config Mem Instr} (e : Turn) : Reach exec allowed c₀ c →
      allowed c e → c.step exec e = some c' → Reach exec allowed c₀ c'

variable {exec : Mem → Bool → Instr → Outcome Mem Instr Fault}
variable {allowed : Config Mem Instr → Turn → Prop}

/-- What a step does: one stack is replaced, and new ones are added. -/
theorem Config.step_cases {c c' : Config Mem Instr} {e : Turn} (h : c.step exec e = some c') :
    ∃ ins rest push spawned, c.threads[e.thread]? = some (ins :: rest) ∧
      exec c.mem e.choice ins = .next c'.mem push spawned ∧
      c'.threads = c.threads.set e.thread (push ++ rest) ++ spawned := by
  unfold Config.step at h
  split at h
  · rename_i ins rest htop
    split at h
    · rename_i mem push spawned hexec
      obtain rfl := Option.some.inj h
      exact ⟨ins, rest, push, spawned, htop, hexec, rfl⟩
    · cases h
  · cases h

/-- An instruction that is not run stays on its stack. -/
theorem Config.stays {c c' : Config Mem Instr} {i : ℕ} {ins x : Instr} {l rest push : List Instr}
    {spawned : List (List Instr)} (htop : c.threads[i]? = some (ins :: rest))
    (hthreads : c'.threads = c.threads.set i (push ++ rest) ++ spawned) (hl : l ∈ c.threads)
    (hx : x ∈ l) : x = ins ∨ ∃ l' ∈ c'.threads, x ∈ l' := by
  obtain ⟨j, hj⟩ := List.getElem?_of_mem hl
  by_cases hij : i = j
  · subst hij
    obtain rfl := Option.some.inj (hj.symm.trans htop)
    rcases List.mem_cons.mp hx with rfl | hrest
    · exact .inl rfl
    · refine .inr ⟨push ++ rest, ?_, List.mem_append_right _ hrest⟩
      rw [hthreads]
      exact List.mem_append_left _ (List.mem_set (List.getElem?_eq_some_iff.mp htop).1 _)
  · refine .inr ⟨l, ?_, hx⟩
    rw [hthreads]
    apply List.mem_append_left
    apply List.mem_of_getElem? (i := j)
    rw [List.getElem?_set_ne hij, hj]

/-- What an instruction pushes is on a stack. -/
theorem Config.pushed {c c' : Config Mem Instr} {i : ℕ} {ins : Instr} {rest push : List Instr}
    {spawned : List (List Instr)} (htop : c.threads[i]? = some (ins :: rest))
    (hthreads : c'.threads = c.threads.set i (push ++ rest) ++ spawned) :
    push ++ rest ∈ c'.threads := by
  rw [hthreads]
  exact List.mem_append_left _ (List.mem_set (List.getElem?_eq_some_iff.mp htop).1 _)

/-- The chosen thread's top instruction can run, and the step is taken. -/
theorem Config.step_of_next {c : Config Mem Instr} {e : Turn} {ins : Instr} {rest : List Instr}
    {m' : Mem} {push : List Instr} {spawned : List (List Instr)}
    (htop : c.threads[e.thread]? = some (ins :: rest))
    (hexec : exec c.mem e.choice ins = .next m' push spawned) :
    c.step exec e = some ⟨m', c.threads.set e.thread (push ++ rest) ++ spawned⟩ := by
  unfold Config.step
  rw [htop]
  dsimp only
  rw [hexec]

namespace Reach

variable {c₀ c₁ c₂ : Config Mem Instr}

theorem trans (h : Reach exec allowed c₀ c₁) (h' : Reach exec allowed c₁ c₂) :
    Reach exec allowed c₀ c₂ := by
  induction h' with
  | start => exact h
  | step e _ hallowed hstep ih => exact ih.step e hallowed hstep

/-- A schedule leads to a reachable configuration when every step is allowed. -/
theorem of_run {es : List Turn} (h : c₀.run exec es = some c₁)
    (hallowed : ∀ c e, allowed c e) : Reach exec allowed c₀ c₁ := by
  induction es generalizing c₀ with
  | nil =>
    obtain rfl := Option.some.inj h
    exact .start
  | cons e es ih =>
    obtain ⟨c, hstep, hrun⟩ := Option.bind_eq_some_iff.mp h
    exact (Reach.start.step e (hallowed c₀ e) hstep).trans (ih hrun)

/-- An invariant that every allowed step keeps holds in every reachable configuration. -/
theorem invariant {I : Config Mem Instr → Prop} (h : Reach exec allowed c₀ c₁)
    (hstart : I c₀)
    (hstep : ∀ c c' e, I c → allowed c e → c.step exec e = some c' → I c') : I c₁ := by
  induction h with
  | start => exact hstart
  | step e _ hallowed h ih => exact hstep _ _ e ih hallowed h

/-- What is reachable here has a reachable image there, when each step has a run for its image. -/
theorem map {Mem' Instr' Fault' : Type} {exec' : Mem' → Bool → Instr' → Outcome Mem' Instr' Fault'}
    {allowed' : Config Mem' Instr' → Turn → Prop} (f : Config Mem Instr → Config Mem' Instr')
    (h : Reach exec allowed c₀ c₁)
    (hstep : ∀ c c' e, Reach exec allowed c₀ c → allowed c e → c.step exec e = some c' →
      Reach exec' allowed' (f c) (f c')) : Reach exec' allowed' (f c₀) (f c₁) := by
  induction h with
  | start => exact .start
  | step e hreach hallowed h ih => exact ih.trans (hstep _ _ e hreach hallowed h)

/-- A weaker condition on steps reaches more. -/
theorem mono {allowed' : Config Mem Instr → Turn → Prop} (h : Reach exec allowed c₀ c₁)
    (himp : ∀ c e, allowed c e → allowed' c e) : Reach exec allowed' c₀ c₁ :=
  h.map id fun c _ e _ hallowed hstep => Reach.start.step e (himp c e hallowed) hstep

/-- What a computed check finds at the end of a schedule is reachable. -/
theorem exists_of_run (exec : Mem → Bool → Instr → Outcome Mem Instr Fault)
    (c₀ : Config Mem Instr) (es : List Turn) (p : Config Mem Instr → Bool)
    (h : (c₀.run exec es).any p = true) :
    ∃ c, Reach exec (fun _ _ => True) c₀ c ∧ p c = true := by
  obtain ⟨c, hrun, hp⟩ := (Option.any_eq_true _ _).mp h
  exact ⟨c, of_run hrun fun _ _ => trivial, hp⟩

/-- A schedule whose turns pass the check leads to a reachable configuration. -/
theorem of_runIf {check : Config Mem Instr → Turn → Bool} {es : List Turn}
    (h : c₀.runIf exec check es = some c₁) : Reach exec (fun c e => check c e = true) c₀ c₁ := by
  induction es generalizing c₀ with
  | nil =>
    obtain rfl := Option.some.inj h
    exact .start
  | cons e es ih =>
    unfold Config.runIf at h
    split at h
    · rename_i hcheck
      obtain ⟨c, hstep, hrun⟩ := Option.bind_eq_some_iff.mp h
      have hone : Reach exec (fun c e => check c e = true) c₀ c := .step e .start hcheck hstep
      exact hone.trans (ih hrun)
    · cases h

/-- What a computed check finds at the end of a schedule that passes is reachable. -/
theorem exists_of_runIf (exec : Mem → Bool → Instr → Outcome Mem Instr Fault)
    (check : Config Mem Instr → Turn → Bool) (c₀ : Config Mem Instr) (es : List Turn)
    (p : Config Mem Instr → Bool) (h : (c₀.runIf exec check es).any p = true) :
    ∃ c, Reach exec (fun c e => check c e = true) c₀ c ∧ p c = true := by
  obtain ⟨c, hrun, hp⟩ := (Option.any_eq_true _ _).mp h
  exact ⟨c, of_runIf hrun, hp⟩

end Reach

/-! ## Runs up to the order of the threads -/

/-- A run leads to memory `m` and, in some order, to the stacks `ls`. -/
def RunsTo (exec : Mem → Bool → Instr → Outcome Mem Instr Fault) (c₀ : Config Mem Instr)
    (m : Mem) (ls : List (List Instr)) : Prop :=
  ∃ c, Reach exec (fun _ _ => True) c₀ c ∧ c.mem = m ∧ c.threads.Perm ls

namespace RunsTo

variable {c₀ : Config Mem Instr} {m m' : Mem} {ls ls' : List (List Instr)}

theorem start (exec : Mem → Bool → Instr → Outcome Mem Instr Fault) (c₀ : Config Mem Instr) :
    RunsTo exec c₀ c₀.mem c₀.threads :=
  ⟨c₀, .start, rfl, .refl _⟩

theorem perm (h : RunsTo exec c₀ m ls) (hperm : ls.Perm ls') : RunsTo exec c₀ m ls' := by
  obtain ⟨c, hreach, hmem, hthreads⟩ := h
  exact ⟨c, hreach, hmem, hthreads.trans hperm⟩

/-- The last stack comes first. -/
theorem last {l : List Instr} (h : RunsTo exec c₀ m (ls ++ [l])) : RunsTo exec c₀ m (l :: ls) :=
  h.perm List.perm_append_comm

/-- The first two stacks change places. -/
theorem swap {l l' : List Instr} (h : RunsTo exec c₀ m (l :: l' :: ls)) :
    RunsTo exec c₀ m (l' :: l :: ls) :=
  h.perm (List.Perm.swap l' l ls)

/-- The first stack takes a step. -/
theorem step (h : RunsTo exec c₀ m ls) {choice : Bool} {ins : Instr} {rest : List Instr}
    {push : List Instr} {spawned : List (List Instr)}
    (hexec : exec m choice ins = .next m' push spawned) (hls : ls = (ins :: rest) :: ls') :
    RunsTo exec c₀ m' ((push ++ rest) :: (ls' ++ spawned)) := by
  obtain ⟨c, hreach, rfl, hthreads⟩ := h
  subst hls
  have hmem : ins :: rest ∈ c.threads := hthreads.mem_iff.mpr List.mem_cons_self
  obtain ⟨before, after, hsplit⟩ := List.append_of_mem hmem
  have hrest : (before ++ after).Perm ls' := by
    rw [hsplit] at hthreads
    exact (List.perm_middle.symm.trans hthreads).cons_inv
  have hstep : c.step exec ⟨before.length, choice⟩ =
      some ⟨m', before ++ (push ++ rest) :: after ++ spawned⟩ := by
    unfold Config.step
    rw [hsplit, List.getElem?_append_right (Nat.le_refl _), Nat.sub_self]
    dsimp only [List.getElem?_cons_zero]
    rw [hexec]
    simp
  refine ⟨_, hreach.step _ trivial hstep, rfl, ?_⟩
  refine (List.Perm.append_right spawned List.perm_middle).trans ?_
  exact (hrest.append_right spawned).cons (push ++ rest)

end RunsTo

end Library
