import Oox.Library.Heap
import Oox.Model.Program

/-!
# Nodes and the shared memory
-/

set_option autoImplicit false

namespace Oox

open Library

inductive NodeKind where
  /-- `storage_task` of a var with a value. -/
  | storage
  /-- `storage_task` of a deferred var. -/
  | deferred
  /-- `functional_task`. -/
  | task
  deriving DecidableEq, Repr

/-- Whether an object is in its lifetime. -/
inductive Status where
  | live
  /-- its destructor is running. -/
  | destroying
  | dead
  deriving DecidableEq, Repr

/-- Where a task is in its life; history only. -/
inductive Phase where
  /-- `run` is still setting it up. -/
  | setup
  /-- bound, with outstanding prerequisites. -/
  | waiting
  /-- dispatched. -/
  | running
  /-- `try_forward_result` is installing its arc. -/
  | forwarding
  /-- waiting for the producer of the var it returned. -/
  | suspended
  /-- its list is closed. -/
  | finished
  deriving DecidableEq, Repr

/-- A var argument of a task (`oox_var_args`): how it is taken and its `my_ptr`. -/
structure VarArg where
  mode : AccessMode
  ptr : ArgPtr
  -- history
  /-- the task and port of the var when the argument was set up. -/
  version : ℕ × ℕ
  deriving DecidableEq, Repr

/-- `task_node` with its output slots, functor and result (oox.h:764-836, 1238-1274,
1645-1787). -/
structure Node (V : Type) where
  kind : NodeKind
  slots : ℕ
  canThrow : Bool
  resultKind : ResultKind
  body : Body V
  lifeCount : ℤ
  startCount : StartCount
  head : Head
  out : ℕ → OutputNode
  /-- the `result_state`. -/
  result : Option V
  /-- the var object in the `result_state` of a forwarding task, and its `has_value`. -/
  inner : ℕ
  innerSet : Bool
  args : List VarArg
  /-- the backend's `wakeup` was called. -/
  woken : Bool
  -- history
  status : Status
  phase : Phase
  /-- the check at the start of `execute` let the body run. -/
  started : Bool
  /-- the values the body was given. -/
  given : List V
  /-- the local vars of the body after it returned. -/
  locals : List ℕ
  /-- how often the body was invoked, the list was closed, and a result was made and dropped. -/
  runs : ℕ
  closes : ℕ
  made : ℕ
  dropped : ℕ
  /-- `cancel` was called on it. -/
  cancelled : Bool

instance {V : Type} [Inhabited V] : Inhabited (Node V) where
  default :=
    { kind := .storage, slots := 0, canThrow := false, resultKind := .void,
      body := { result := fun _ => default }, lifeCount := 0, startCount := {},
      head := .list [], out := fun _ => {}, result := none, inner := 0, innerSet := false,
      args := [], woken := false, status := .dead, phase := .finished, started := false,
      given := [], locals := [], runs := 0, closes := 0, made := 0, dropped := 0, cancelled := false }

instance : Inhabited Arc := ⟨{}⟩
instance : Inhabited Var := ⟨{}⟩
instance : Inhabited Control := ⟨{}⟩

/-- Everything the threads share. -/
structure Mem (V : Type) where
  nodes : Heap (Node V)
  arcs : Heap Arc
  vars : Heap Var
  controls : Heap Control
  -- history
  /-- the local vars of the threads that ended. -/
  left : List ℕ

namespace Mem

variable {V : Type}

def node (m : Mem V) (n : ℕ) : Node V := m.nodes.cell n
def arc (m : Mem V) (a : ℕ) : Arc := m.arcs.cell a
def var (m : Mem V) (v : ℕ) : Var := m.vars.cell v
def control (m : Mem V) (c : ℕ) : Control := m.controls.cell c

def setNode (m : Mem V) (n : ℕ) (x : Node V) : Mem V := { m with nodes := m.nodes.set n x }
def setArc (m : Mem V) (a : ℕ) (x : Arc) : Mem V := { m with arcs := m.arcs.set a x }
def setVar (m : Mem V) (v : ℕ) (x : Var) : Mem V := { m with vars := m.vars.set v x }
def setControl (m : Mem V) (c : ℕ) (x : Control) : Mem V :=
  { m with controls := m.controls.set c x }

def newNode (m : Mem V) (x : Node V) : Mem V := { m with nodes := m.nodes.push x }
def newArc (m : Mem V) (x : Arc) : Mem V := { m with arcs := m.arcs.push x }
def newVar (m : Mem V) (x : Var) : Mem V := { m with vars := m.vars.push x }
def newControl (m : Mem V) (x : Control) : Mem V := { m with controls := m.controls.push x }

/-- Allocate `k` empty vars. -/
def newVars (m : Mem V) : ℕ → Mem V
  | 0 => m
  | k + 1 => (m.newVar {}).newVars k

/-- Overwrite one output slot. -/
def setOut (m : Mem V) (n : ℕ) (p : ℕ) (o : OutputNode) : Mem V :=
  m.setNode n { m.node n with out := fun q => if q = p then o else (m.node n).out q }

/-- The bytes of var object `v` are used as a value, one that is no larger than a pointer: what
is left in `current_task` points to no node. -/
def clobber (m : Mem V) (v : ℕ) : Mem V := m.setVar v { m.var v with wild := true }

/-- An arc is off its list and about to be deleted; history only. -/
def spend (m : Mem V) (a : ℕ) : Mem V := m.setArc a { m.arc a with role := .spent }

/-- The forwarding tasks that var object `v` lies in. -/
def holders (m : Mem V) (v : ℕ) : List ℕ :=
  (List.range m.nodes.size).filter fun t => (m.node t).kind = .task ∧ (m.node t).inner = v

theorem mem_holders {m : Mem V} {v t : ℕ} : t ∈ m.holders v ↔
    t < m.nodes.size ∧ (m.node t).kind = .task ∧ (m.node t).inner = v := by
  simp [holders]

/-! ## Reading after an update -/

section Reading

variable (m : Mem V)

theorem node_setNode (i j : ℕ) (x : Node V) :
    (m.setNode i x).node j = if j = i then x else m.node j := rfl

@[simp] theorem node_setNode_self (i : ℕ) (x : Node V) : (m.setNode i x).node i = x :=
  Heap.cell_set_self _ _ _

theorem node_setNode_of_ne {i j : ℕ} (x : Node V) (hne : j ≠ i) : (m.setNode i x).node j = m.node j :=
  Heap.cell_set_of_ne _ _ hne

theorem node_newNode (j : ℕ) (x : Node V) :
    (m.newNode x).node j = if j = m.nodes.size then x else m.node j := rfl

@[simp] theorem nodes_setNode_size (i : ℕ) (x : Node V) : (m.setNode i x).nodes.size = m.nodes.size := rfl

@[simp] theorem nodes_newNode_size (x : Node V) : (m.newNode x).nodes.size = m.nodes.size + 1 := rfl

@[simp] theorem arc_setNode (i : ℕ) (x : Node V) (j : ℕ) : (m.setNode i x).arc j = m.arc j := rfl

@[simp] theorem arcs_setNode (i : ℕ) (x : Node V) : (m.setNode i x).arcs = m.arcs := rfl

@[simp] theorem arc_newNode (x : Node V) (j : ℕ) : (m.newNode x).arc j = m.arc j := rfl

@[simp] theorem arcs_newNode (x : Node V) : (m.newNode x).arcs = m.arcs := rfl

@[simp] theorem var_setNode (i : ℕ) (x : Node V) (j : ℕ) : (m.setNode i x).var j = m.var j := rfl

@[simp] theorem vars_setNode (i : ℕ) (x : Node V) : (m.setNode i x).vars = m.vars := rfl

@[simp] theorem var_newNode (x : Node V) (j : ℕ) : (m.newNode x).var j = m.var j := rfl

@[simp] theorem vars_newNode (x : Node V) : (m.newNode x).vars = m.vars := rfl

@[simp] theorem control_setNode (i : ℕ) (x : Node V) (j : ℕ) : (m.setNode i x).control j = m.control j := rfl

@[simp] theorem controls_setNode (i : ℕ) (x : Node V) : (m.setNode i x).controls = m.controls := rfl

@[simp] theorem control_newNode (x : Node V) (j : ℕ) : (m.newNode x).control j = m.control j := rfl

@[simp] theorem controls_newNode (x : Node V) : (m.newNode x).controls = m.controls := rfl

@[simp] theorem left_setNode (i : ℕ) (x : Node V) : (m.setNode i x).left = m.left := rfl

@[simp] theorem left_newNode (x : Node V) : (m.newNode x).left = m.left := rfl

theorem arc_setArc (i j : ℕ) (x : Arc) :
    (m.setArc i x).arc j = if j = i then x else m.arc j := rfl

@[simp] theorem arc_setArc_self (i : ℕ) (x : Arc) : (m.setArc i x).arc i = x :=
  Heap.cell_set_self _ _ _

theorem arc_newArc (j : ℕ) (x : Arc) :
    (m.newArc x).arc j = if j = m.arcs.size then x else m.arc j := rfl

@[simp] theorem arcs_setArc_size (i : ℕ) (x : Arc) : (m.setArc i x).arcs.size = m.arcs.size := rfl

@[simp] theorem arcs_newArc_size (x : Arc) : (m.newArc x).arcs.size = m.arcs.size + 1 := rfl

@[simp] theorem node_setArc (i : ℕ) (x : Arc) (j : ℕ) : (m.setArc i x).node j = m.node j := rfl

@[simp] theorem nodes_setArc (i : ℕ) (x : Arc) : (m.setArc i x).nodes = m.nodes := rfl

@[simp] theorem node_newArc (x : Arc) (j : ℕ) : (m.newArc x).node j = m.node j := rfl

@[simp] theorem nodes_newArc (x : Arc) : (m.newArc x).nodes = m.nodes := rfl

@[simp] theorem var_setArc (i : ℕ) (x : Arc) (j : ℕ) : (m.setArc i x).var j = m.var j := rfl

@[simp] theorem vars_setArc (i : ℕ) (x : Arc) : (m.setArc i x).vars = m.vars := rfl

@[simp] theorem var_newArc (x : Arc) (j : ℕ) : (m.newArc x).var j = m.var j := rfl

@[simp] theorem vars_newArc (x : Arc) : (m.newArc x).vars = m.vars := rfl

@[simp] theorem control_setArc (i : ℕ) (x : Arc) (j : ℕ) : (m.setArc i x).control j = m.control j := rfl

@[simp] theorem controls_setArc (i : ℕ) (x : Arc) : (m.setArc i x).controls = m.controls := rfl

@[simp] theorem control_newArc (x : Arc) (j : ℕ) : (m.newArc x).control j = m.control j := rfl

@[simp] theorem controls_newArc (x : Arc) : (m.newArc x).controls = m.controls := rfl

@[simp] theorem left_setArc (i : ℕ) (x : Arc) : (m.setArc i x).left = m.left := rfl

@[simp] theorem left_newArc (x : Arc) : (m.newArc x).left = m.left := rfl

theorem var_setVar (i j : ℕ) (x : Var) :
    (m.setVar i x).var j = if j = i then x else m.var j := rfl

@[simp] theorem var_setVar_self (i : ℕ) (x : Var) : (m.setVar i x).var i = x :=
  Heap.cell_set_self _ _ _

theorem var_setVar_of_ne {i j : ℕ} (x : Var) (hne : j ≠ i) : (m.setVar i x).var j = m.var j :=
  Heap.cell_set_of_ne _ _ hne

theorem var_newVar (j : ℕ) (x : Var) :
    (m.newVar x).var j = if j = m.vars.size then x else m.var j := rfl

@[simp] theorem vars_setVar_size (i : ℕ) (x : Var) : (m.setVar i x).vars.size = m.vars.size := rfl

@[simp] theorem vars_newVar_size (x : Var) : (m.newVar x).vars.size = m.vars.size + 1 := rfl

@[simp] theorem node_setVar (i : ℕ) (x : Var) (j : ℕ) : (m.setVar i x).node j = m.node j := rfl

@[simp] theorem nodes_setVar (i : ℕ) (x : Var) : (m.setVar i x).nodes = m.nodes := rfl

@[simp] theorem node_newVar (x : Var) (j : ℕ) : (m.newVar x).node j = m.node j := rfl

@[simp] theorem nodes_newVar (x : Var) : (m.newVar x).nodes = m.nodes := rfl

@[simp] theorem arc_setVar (i : ℕ) (x : Var) (j : ℕ) : (m.setVar i x).arc j = m.arc j := rfl

@[simp] theorem arcs_setVar (i : ℕ) (x : Var) : (m.setVar i x).arcs = m.arcs := rfl

@[simp] theorem arc_newVar (x : Var) (j : ℕ) : (m.newVar x).arc j = m.arc j := rfl

@[simp] theorem arcs_newVar (x : Var) : (m.newVar x).arcs = m.arcs := rfl

@[simp] theorem control_setVar (i : ℕ) (x : Var) (j : ℕ) : (m.setVar i x).control j = m.control j := rfl

@[simp] theorem controls_setVar (i : ℕ) (x : Var) : (m.setVar i x).controls = m.controls := rfl

@[simp] theorem control_newVar (x : Var) (j : ℕ) : (m.newVar x).control j = m.control j := rfl

@[simp] theorem controls_newVar (x : Var) : (m.newVar x).controls = m.controls := rfl

@[simp] theorem left_setVar (i : ℕ) (x : Var) : (m.setVar i x).left = m.left := rfl

@[simp] theorem left_newVar (x : Var) : (m.newVar x).left = m.left := rfl

theorem control_setControl (i j : ℕ) (x : Control) :
    (m.setControl i x).control j = if j = i then x else m.control j := rfl

@[simp] theorem control_setControl_self (i : ℕ) (x : Control) : (m.setControl i x).control i = x :=
  Heap.cell_set_self _ _ _

theorem control_newControl (j : ℕ) (x : Control) :
    (m.newControl x).control j = if j = m.controls.size then x else m.control j := rfl

@[simp] theorem controls_setControl_size (i : ℕ) (x : Control) : (m.setControl i x).controls.size = m.controls.size := rfl

@[simp] theorem controls_newControl_size (x : Control) : (m.newControl x).controls.size = m.controls.size + 1 := rfl

@[simp] theorem node_setControl (i : ℕ) (x : Control) (j : ℕ) : (m.setControl i x).node j = m.node j := rfl

@[simp] theorem nodes_setControl (i : ℕ) (x : Control) : (m.setControl i x).nodes = m.nodes := rfl

@[simp] theorem node_newControl (x : Control) (j : ℕ) : (m.newControl x).node j = m.node j := rfl

@[simp] theorem nodes_newControl (x : Control) : (m.newControl x).nodes = m.nodes := rfl

@[simp] theorem arc_setControl (i : ℕ) (x : Control) (j : ℕ) : (m.setControl i x).arc j = m.arc j := rfl

@[simp] theorem arcs_setControl (i : ℕ) (x : Control) : (m.setControl i x).arcs = m.arcs := rfl

@[simp] theorem arc_newControl (x : Control) (j : ℕ) : (m.newControl x).arc j = m.arc j := rfl

@[simp] theorem arcs_newControl (x : Control) : (m.newControl x).arcs = m.arcs := rfl

@[simp] theorem var_setControl (i : ℕ) (x : Control) (j : ℕ) : (m.setControl i x).var j = m.var j := rfl

@[simp] theorem vars_setControl (i : ℕ) (x : Control) : (m.setControl i x).vars = m.vars := rfl

@[simp] theorem var_newControl (x : Control) (j : ℕ) : (m.newControl x).var j = m.var j := rfl

@[simp] theorem vars_newControl (x : Control) : (m.newControl x).vars = m.vars := rfl

@[simp] theorem left_setControl (i : ℕ) (x : Control) : (m.setControl i x).left = m.left := rfl

@[simp] theorem left_newControl (x : Control) : (m.newControl x).left = m.left := rfl

@[simp] theorem nodes_newVars (k : ℕ) : (m.newVars k).nodes = m.nodes := by
  induction k generalizing m with
  | zero => rfl
  | succ k ih => exact ih _

@[simp] theorem arcs_newVars (k : ℕ) : (m.newVars k).arcs = m.arcs := by
  induction k generalizing m with
  | zero => rfl
  | succ k ih => exact ih _

@[simp] theorem controls_newVars (k : ℕ) : (m.newVars k).controls = m.controls := by
  induction k generalizing m with
  | zero => rfl
  | succ k ih => exact ih _

@[simp] theorem vars_newVars_size (k : ℕ) : (m.newVars k).vars.size = m.vars.size + k := by
  induction k generalizing m with
  | zero => rfl
  | succ k ih =>
    show ((m.newVar {}).newVars k).vars.size = m.vars.size + (k + 1)
    rw [ih, vars_newVar_size]
    omega

theorem var_newVars (k v : ℕ) : (m.newVars k).var v =
    if m.vars.size ≤ v ∧ v < m.vars.size + k then {} else m.var v := by
  induction k generalizing m with
  | zero =>
    rw [if_neg (by omega)]
    rfl
  | succ k ih =>
    show ((m.newVar {}).newVars k).var v = _
    rw [ih, vars_newVar_size, var_newVar]
    split_ifs <;> first | rfl | omega

end Reading

end Mem

/-- The memory before the program starts. -/
def Mem.initial (V : Type) [Inhabited V] : Mem V :=
  ⟨Heap.empty, Heap.empty, Heap.empty, Heap.empty, []⟩

/-- The node of `allocate_new` (oox.h:1436-1444) after its value was emplaced: ready and done,
with one reference for the slot and one for the owner. -/
def storageNode {V : Type} [Inhabited V] (v : V) : Node V :=
  { (default : Node V) with
    kind := .storage, slots := 1, lifeCount := 2, head := .done, status := .live,
    out := fun _ => { nextWriter := .ready, armed := true, handed := true }
    result := some v, made := 1 }

/-- The node of `allocate_deferred` (oox.h:1446-1455): ready for a writer, not for readers. -/
def deferredNode {V : Type} [Inhabited V] : Node V :=
  { (default : Node V) with
    kind := .deferred, slots := 1, lifeCount := 2, head := .list [], status := .live,
    out := fun _ => { nextWriter := .ready, armed := true, handed := true } }

/-- The var that `allocate_new` and `allocate_deferred` bind to storage node `n`. -/
def storageVar (n : ℕ) (isDeferred canThrow : Bool) : Var :=
  { currentTask := some n, storage := .result n, owner := some n, isDeferred := isDeferred,
    canThrow := canThrow }

/-- A freshly allocated task: `run` stored `start_count_mask` in its `start_count`. -/
def taskNode {V : Type} [Inhabited V] (args : List Arg) (canThrow : Bool) (kind : ResultKind)
    (code : Body V) (inner : ℕ) : Node V :=
  { (default : Node V) with
    kind := .task, slots := writeNodesCount args, canThrow := canThrow, resultKind := kind,
    body := code, startCount := { count := startCountMask }, status := .live, phase := .setup,
    inner := inner }

/-- The lifetime `gen_oox::bind_to` sets (oox.h:1789-1814): the pending execute, the slots
and, unless the result is void, the owner. -/
def bindLifetime {V : Type} (x : Node V) : ℤ :=
  match x.resultKind with
  | .void => 1 + x.slots
  | _ => 1 + x.slots + 1

/-- The var `gen_oox::bind_to` returns for task `t`. -/
def resultVar {V : Type} (x : Node V) (t : ℕ) : Var :=
  match x.resultKind with
  | .value =>
    { currentTask := some t, storage := .result t, owner := some t, canThrow := x.canThrow }
  | .void => { currentTask := some t, storage := .task t, canThrow := x.canThrow }
  | .var =>
    { currentTask := some t, storage := .varObject x.inner, owner := some t, isForwarded := true,
      canThrow := x.canThrow }

end Oox
