import Oox.Forwarding.Resolve

/-!
# What a task that takes a forwarded var consumes

The pointer `setup` stores for a forwarded var is followed once, so a task gets the value at
the end of the chain when one task forwarded it, and a var object in its place otherwise.
-/

set_option autoImplicit false

namespace Oox

open Library

variable {V : Type}

/-- The call of `oox::run` a thread is about to go on with. -/
def setupFrame (c : State V) (i : ℕ) : Option (Frame V) :=
  match c.threads[i]? with
  | some (.setup f :: _) => some f
  | _ => none

/-- Its thread is there. -/
theorem setupFrame_eq {c : State V} {i : ℕ} {f : Frame V} (h : setupFrame c i = some f) :
    ∃ rest, c.threads[i]? = some (.setup f :: rest) := by
  unfold setupFrame at h
  split at h
  · rename_i f' rest htop
    obtain rfl := Option.some.inj h
    exact ⟨rest, htop⟩
  · cases h

variable [Inhabited V]

/-- In the step `e` from `c` to `c'` the task of `f` takes the var object `v`. -/
structure Takes (c c' : State V) (e : Turn) (f : Frame V) (v : ℕ) (mode : AccessMode) : Prop where
  frame : setupFrame c e.thread = some f
  arg : ∃ x, f.args.head? = some (.var x mode) ∧ f.env[x]? = some v
  bound : (c.mem.var v).currentTask ≠ none
  step : c.step exec e = some c'

/-- `setup` records the pointer of the var it takes. -/
theorem setup_records {m m' : Mem V} {f : Frame V} {push : List (Instr V)}
    {spawned : List (List (Instr V))} {x v n : ℕ} {mode : AccessMode} {rest : List Arg}
    (hargs : f.args = .var x mode :: rest) (henv : f.env[x]? = some v)
    (htask : (m.var v).currentTask = some n)
    (h : Exec.setup m f = .next m' push spawned) :
    ⟨mode, Exec.argPtr (m.var v), (n, (m.var v).currentPort)⟩ ∈ (m'.node f.task).args := by
  unfold Exec.setup at h
  rw [hargs] at h
  simp only [henv, htask] at h
  split at h
  · split_ifs at h <;> cases h <;> simp
  · split_ifs at h
    cases h
    simp

/-- The argument is on record with the task. -/
theorem Takes.records {c c' : State V} {e : Turn} {f : Frame V} {v : ℕ} {mode : AccessMode}
    (h : Takes c c' e f v mode) :
    (c.mem.node f.task).status = .live ∧ ∃ arg ∈ (c'.mem.node f.task).args,
      arg.mode = mode ∧ arg.ptr = Exec.argPtr (c.mem.var v) := by
  obtain ⟨x, hhead, henv⟩ := h.arg
  obtain ⟨rest, hargs⟩ : ∃ rest, f.args = .var x mode :: rest := by
    cases hf : f.args with
    | nil =>
      rw [hf] at hhead
      cases hhead
    | cons arg rest =>
      rw [hf] at hhead
      obtain rfl := Option.some.inj hhead
      exact ⟨rest, rfl⟩
  obtain ⟨n, htask⟩ := Option.ne_none_iff_exists'.mp h.bound
  obtain ⟨more, htop⟩ := setupFrame_eq h.frame
  obtain ⟨ins, rest', push, spawned, htop', hexec, -⟩ := Config.step_cases h.step
  rw [htop] at htop'
  obtain ⟨rfl, -⟩ := List.cons.inj (Option.some.inj htop')
  have hlive := (sees_of_exec hexec).live f.task List.mem_cons_self
  unfold exec at hexec
  split at hexec
  · exact ⟨hlive, _, setup_records hargs henv htask hexec, rfl, rfl⟩
  · cases hexec

/-- A task that takes a forwarded var consumes the value its chain of forwarding tasks ends
in, the one `wait_and_get` reaches, exactly when the chain has one task. The argument is the one
whose pointer `setup` took from the var. -/
theorem consumes_innermost_iff {allowed : State V → Turn → Prop} {locals : ℕ} {ops : List (Op V)}
    {c c' c'' : State V} {e : Turn} {f : Frame V} {v o n r : ℕ} {mode : AccessMode}
    (hreach : Reach exec allowed (initial locals ops) c) (htakes : Takes c c' e f v mode)
    (hlater : Reach exec allowed c' c'') (hfwd : (c.mem.var v).isForwarded = true)
    (howner : (c.mem.var v).owner = some o) (hchain : Forwards c''.mem n o r) :
    (waitAndGet c''.mem (c.mem.var v) = storageValue c''.mem (.result r) ∨
      ∃ status, waitAndGet c''.mem (c.mem.var v) = .thrown status) ∧
    ∃ arg ∈ (c''.mem.node f.task).args, arg.mode = mode ∧
      arg.ptr = Exec.argPtr (c.mem.var v) ∧
      (Exec.resolve c''.mem arg.ptr = .result r ↔ n = 1) := by
  have hshape := (shapely_of_reach hreach).mem
  obtain ⟨hlive, arg, harg, hmode, hptr⟩ := htakes.records
  obtain ⟨ins, _, _, _, _, hexec, _⟩ := Config.step_cases htakes.step
  have hf' := (exec_frozen e.choice ins).of_next hexec
  have hf := hf'.trans (frozen_of_reach hlater)
  have hshape' : Shaped c''.mem :=
    (((shapely_of_reach hreach).step htakes.step).reach hlater).mem
  have hu := hshape.var v
  refine ⟨hchain.waitAndGet hshape' (hu.frozen hf) hfwd howner, arg, ?_, hmode, hptr, ?_⟩
  · have hlt := (hshape.lt _ hlive).trans_le hf'.nodes_le
    exact ((frozen_of_reach hlater).node _ hlt).args.subset harg
  · obtain ⟨k, rfl, -, hleads⟩ := hchain
    rw [hptr, resolve_forwarded hu hf hfwd howner, hleads.storage_iff hshape']
    omega

/-! ## Depth one and depth two -/

/-- A body that returns `7`. -/
def sevenBody : Body ℕ := { result := fun _ => 7 }

/-- A body that returns the var of a task it starts. -/
def wrapBody (kind : ResultKind) (code : Body ℕ) : Body ℕ :=
  { locals := 1, ops := fun _ => [.run (some 0) [] false kind code], result := fun _ => 0 }

/-- Run a forwarding task, then a task that reads its var. -/
def readForwarded (code : Body ℕ) : List (Op ℕ) :=
  [.run (some 0) [] false .var code, .run none [.var 0 .readOnly] false .value sevenBody]

/-- The first thread is about to take var object `0`, which task `0` forwards, to read it. -/
def takesForwarded (p : Mem ℕ → Bool) (c : State ℕ) : Bool :=
  (setupFrame c 0).any fun f => (c.step exec ⟨0, false⟩).any fun c' =>
    decide (f.args.head? = some (.var 0 .readOnly) ∧ f.env[0]? = some 0 ∧
      (c.mem.var 0).currentTask ≠ none ∧ (c.mem.var 0).isForwarded = true ∧
      (c.mem.var 0).owner = some 0) && p c'.mem

/-- The check finds a step that takes the var. -/
theorem exists_of_takesForwarded {p : Mem ℕ → Bool} {c : State ℕ}
    (h : takesForwarded p c = true) : ∃ c' f, Takes c c' ⟨0, false⟩ f 0 .readOnly ∧
      (c.mem.var 0).isForwarded = true ∧ (c.mem.var 0).owner = some 0 ∧ p c'.mem = true := by
  obtain ⟨f, hf, h⟩ := (Option.any_eq_true _ _).mp h
  obtain ⟨c', hstep, h⟩ := (Option.any_eq_true _ _).mp h
  rw [Bool.and_eq_true, decide_eq_true_iff] at h
  obtain ⟨⟨hhead, henv, hbound, hfwd, howner⟩, hp⟩ := h
  exact ⟨c', f, ⟨hf, ⟨0, hhead, henv⟩, hbound, hstep⟩, hfwd, howner, hp⟩

/-- A forwarded var of depth one. -/
theorem consumes_innermost_iff_once : ∃ (c c' : State ℕ) (f : Frame ℕ),
    Reach exec (fun _ _ => True) (initial 1 (readForwarded (wrapBody .value sevenBody))) c ∧
    Takes c c' ⟨0, false⟩ f 0 .readOnly ∧ Forwards c'.mem 1 0 1 ∧
    ∃ arg ∈ (c'.mem.node f.task).args, Exec.resolve c'.mem arg.ptr = .result 1 := by
  obtain ⟨c, hreach, hc⟩ := Reach.exists_of_run exec
    (initial 1 (readForwarded (wrapBody .value sevenBody)))
    (rounds [(0, 5), (1, 7), (2, 16), (1, 21), (0, 2)])
    (takesForwarded fun m => decide ((m.node 0).innerSet = true ∧
      (m.var (m.node 0).inner).isForwarded = false ∧
      (m.var (m.node 0).inner).storage = .result 1)) (by decide)
  obtain ⟨c', f, htakes, hfwd, howner, hp⟩ := exists_of_takesForwarded hc
  obtain ⟨hset, hplain, hstorage⟩ := of_decide_eq_true hp
  have hchain : Forwards c'.mem 1 0 1 := ⟨0, rfl, hset, .value hplain hstorage⟩
  obtain ⟨-, arg, harg, -, -, hiff⟩ :=
    consumes_innermost_iff hreach htakes .start hfwd howner hchain
  exact ⟨c, c', f, hreach, htakes, hchain, arg, harg, hiff.mpr rfl⟩

/-- A forwarded var of depth two: the task gets the var object between the two. -/
theorem consumes_var_object_at_depth_two : ∃ (c c' : State ℕ) (f : Frame ℕ),
    Reach exec (fun _ _ => True)
      (initial 1 (readForwarded (wrapBody .var (wrapBody .value sevenBody)))) c ∧
    Takes c c' ⟨0, false⟩ f 0 .readOnly ∧ Forwards c'.mem 2 0 2 ∧
    (c'.mem.node 0).head.isDone = true ∧
    ∀ arg ∈ (c'.mem.node f.task).args, Exec.resolve c'.mem arg.ptr ≠ .result 2 := by
  obtain ⟨c, hreach, hc⟩ := Reach.exists_of_run exec
    (initial 1 (readForwarded (wrapBody .var (wrapBody .value sevenBody))))
    (rounds [(0, 5), (1, 7), (2, 7), (3, 16), (2, 21), (1, 21), (0, 2)])
    (fun c => takesForwarded (fun m => decide ((m.node 0).innerSet = true ∧
      (m.var (m.node 0).inner).isForwarded = true ∧
      (m.var (m.node 0).inner).owner = some 1 ∧ (m.node 1).innerSet = true ∧
      (m.var (m.node 1).inner).isForwarded = false ∧
      (m.var (m.node 1).inner).storage = .result 2 ∧ (m.node 0).head.isDone = true)) c &&
      (setupFrame c 0).any fun f => (c.step exec ⟨0, false⟩).any fun c' =>
        (c'.mem.node f.task).args.all fun arg => Exec.resolve c'.mem arg.ptr ≠ .result 2)
    (by decide)
  rw [Bool.and_eq_true] at hc
  obtain ⟨c', f, htakes, -, -, hp⟩ := exists_of_takesForwarded hc.1
  obtain ⟨hset, hfwd, howner, hset', hplain, hstorage, hdone⟩ := of_decide_eq_true hp
  have hargs := hc.2
  rw [htakes.frame, Option.any_some, htakes.step, Option.any_some, List.all_eq_true] at hargs
  exact ⟨c, c', f, hreach, htakes,
    ⟨1, rfl, hset, .through hfwd howner hset' (.value hplain hstorage)⟩, hdone,
    fun arg harg => of_decide_eq_true (hargs arg harg)⟩

end Oox
