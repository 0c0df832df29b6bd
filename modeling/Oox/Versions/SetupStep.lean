import Oox.Versions.Storage

/-!
# The steps of an argument's setup

`oox_var_args::setup` takes one of six ways: it is done, passes over a plain argument, gives an
empty var a default value first, registers a reader, or registers a writer of a var that is
deferred or not. One inversion lemma says what each of them does to the memory, to the caller's
frame and to the stack.
-/

set_option autoImplicit false

namespace Oox

open Library

variable {V : Type}

/-- Task `t` records an argument. -/
def Mem.record (m : Mem V) (t : ℕ) (arg : VarArg) : Mem V :=
  m.setNode t { m.node t with args := (m.node t).args ++ [arg] }

/-- The argument that is recorded for var `u`, which names version `(n, u.currentPort)`. -/
def argOf (u : Var) (n : ℕ) (mode : AccessMode) : VarArg :=
  { mode := mode, ptr := Exec.argPtr u, version := (n, u.currentPort) }

/-- The arc of a reader of var `u`. -/
def readerArc (u : Var) (n t : ℕ) : Arc :=
  { kind := .flowBack, node := t, port := u.currentPort, alive := true, role := .waiting, site := n,
    reads := some (t, (n, u.currentPort)) }

/-- The redirect descriptor for output port `p` of task `t`. -/
def redirectArc (n t p : ℕ) : Arc :=
  { kind := .flowOnly, node := t, port := p, alive := true, role := .descriptor, site := n }

/-- Var `u` after output port `p` of task `t` took its version over. -/
def Var.takenBy (u : Var) (t p : ℕ) : Var :=
  { u with currentTask := some t, currentPort := p, isDeferred := false }

/-- The frame after a writer was registered. -/
def Frame.afterWriter (f : Frame V) (rest : List Arg) : Frame V :=
  { f with args := rest, port := f.port + 1, count := f.count + 1 }

/-! ## Reading after a record -/

section Record

variable (m : Mem V) (t : ℕ) (arg : VarArg)

@[simp] theorem Mem.vars_record : (m.record t arg).vars = m.vars := rfl

@[simp] theorem Mem.var_record (v : ℕ) : (m.record t arg).var v = m.var v := rfl

@[simp] theorem Mem.arcs_record : (m.record t arg).arcs = m.arcs := rfl

@[simp] theorem Mem.arc_record (a : ℕ) : (m.record t arg).arc a = m.arc a := rfl

@[simp] theorem Mem.nodes_record_size : (m.record t arg).nodes.size = m.nodes.size := rfl

theorem Mem.node_record_self :
    (m.record t arg).node t = { m.node t with args := (m.node t).args ++ [arg] } :=
  Mem.node_setNode_self _ _ _

end Record

/-- A recorded writer is the last one. -/
theorem written_record {x : Node V} {arg : VarArg} (hmode : arg.mode.isWriter = true) :
    ({ x with args := x.args ++ [arg] } : Node V).written = x.written ++ [arg] := by
  simp [Node.written, hmode]

/-- A recorded reader changes no output. -/
theorem written_record_reader {x : Node V} {arg : VarArg} (hmode : arg.mode.isWriter = false) :
    ({ x with args := x.args ++ [arg] } : Node V).written = x.written := by
  simp [Node.written, hmode]

/-! ## The inversion lemma -/

variable [Inhabited V]

/-- What one step of `oox_var_args::setup` does. -/
inductive SetupStep (m : Mem V) (f : Frame V) : Mem V → List (Instr V) → Prop
  | done (hargs : f.args = []) : SetupStep m f m [.bind f]
  | plain {rest : List Arg} (hargs : f.args = .plain :: rest) :
    SetupStep m f m [.setup { f with args := rest }]
  | fresh {x v : ℕ} {mode : AccessMode} {rest : List Arg} (hargs : f.args = .var x mode :: rest)
    (hv : v ∈ f.env) (hempty : (m.var v).currentTask = none) (hown : (m.var v).Own) :
    SetupStep m f ((m.newNode (storageNode default)).setVar v
      (storageVar m.nodes.size false (m.var v).canThrow)) [.setup f]
  | read {x v n : ℕ} {mode : AccessMode} {rest : List Arg} (hargs : f.args = .var x mode :: rest)
    (hv : v ∈ f.env) (htask : (m.var v).currentTask = some n) (hmode : mode.isWriter = false)
    (hpolicy : (m.var v).canThrow = true → (m.node f.task).canThrow = true) :
    SetupStep m f
      ((m.record f.task (argOf (m.var v) n mode)).newArc (readerArc (m.var v) n f.task))
      [.addArc n m.arcs.size (.assign { f with args := rest } (m.var v).currentPort)]
  | write {x v n : ℕ} {mode : AccessMode} {rest : List Arg} (hargs : f.args = .var x mode :: rest)
    (hv : v ∈ f.env) (htask : (m.var v).currentTask = some n) (hmode : mode.isWriter = true)
    (hown : (m.var v).Own)
    (hpolicy : (m.node f.task).canThrow = true → (m.var v).canThrow = true)
    (hport : f.port ≤ Exec.maxPort) (hnow : (m.var v).isDeferred = false) :
    SetupStep m f
      ((m.record f.task (argOf (m.var v) n mode)).setVar v ((m.var v).takenBy f.task f.port))
      [.setNextWriter n (m.var v).currentPort (.node f.task), .setup (f.afterWriter rest)]
  | redirect {x v n : ℕ} {mode : AccessMode} {rest : List Arg}
    (hargs : f.args = .var x mode :: rest)
    (hv : v ∈ f.env) (htask : (m.var v).currentTask = some n) (hmode : mode.isWriter = true)
    (hown : (m.var v).Own)
    (hpolicy : (m.node f.task).canThrow = true → (m.var v).canThrow = true)
    (hport : f.port ≤ Exec.maxPort) (hdeferred : (m.var v).isDeferred = true) :
    SetupStep m f
      (((m.record f.task (argOf (m.var v) n mode)).setVar v
        ((m.var v).takenBy f.task f.port)).newArc (redirectArc n f.task f.port))
      [.redirect n (m.var v).currentPort f.task f.port m.arcs.size, .setup (f.afterWriter rest)]

theorem setup_step {m m' : Mem V} {f : Frame V} {push : List (Instr V)}
    {spawned : List (List (Instr V))} (h : Exec.setup m f = .next m' push spawned) :
    SetupStep m f m' push ∧ spawned = [] := by
  unfold Exec.setup at h
  split at h
  · rename_i hargs
    cases h
    exact ⟨.done hargs, rfl⟩
  · rename_i rest hargs
    cases h
    exact ⟨.plain hargs, rfl⟩
  · rename_i x mode rest hargs
    split at h
    · cases h
    · rename_i v hx
      have hv : v ∈ f.env := List.mem_of_getElem? hx
      dsimp only at h
      split at h
      · rename_i hempty
        split at h
        · cases h
        · rename_i hown
          cases h
          exact ⟨.fresh hargs hv hempty (Var.own_of_not hown), rfl⟩
      · rename_i n htask
        split at h
        · rename_i hmode
          split at h
          · cases h
          · rename_i hown
            split at h
            · cases h
            · rename_i hpolicy
              split at h
              · cases h
              · rename_i hport
                have hthrows : (m.node f.task).canThrow = true → (m.var v).canThrow = true := by
                  intro ht
                  by_contra hu
                  exact hpolicy ⟨ht, hu⟩
                split at h
                · rename_i hdeferred
                  cases h
                  exact ⟨.redirect hargs hv htask hmode (Var.own_of_not hown) hthrows (by omega)
                    hdeferred, rfl⟩
                · rename_i hnow
                  cases h
                  exact ⟨.write hargs hv htask hmode (Var.own_of_not hown) hthrows (by omega)
                    (by simpa using hnow), rfl⟩
        · rename_i hmode
          split at h
          · cases h
          · rename_i hpolicy
            cases h
            refine ⟨.read hargs hv htask (by simpa using hmode) fun hu => ?_, rfl⟩
            by_contra ht
            exact hpolicy ⟨hu, ht⟩

end Oox
