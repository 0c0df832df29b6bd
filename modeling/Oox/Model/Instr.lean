import Oox.Model.Memory

/-!
# Instructions

One constructor per atomic operation of the functions of `oox/oox.h`, with the local
variables the rest of the call needs. What a call still has to do after the operation is
pushed on the thread's control stack.
-/

set_option autoImplicit false

namespace Oox

/-- What follows the last operation of a thread or of a body. -/
inductive After (V : Type) where
  | exit
  /-- the body of `t` returns to `execute`: the values it was given and the storages of the
  arguments it writes. -/
  | body (t : ℕ) (vals : List V) (cells : List StoragePtr)

/-- A call of `oox::run` in progress (oox.h:1851-1877): the task, the next output port, the
prerequisites counted so far, the arguments left, and the caller. -/
structure Frame (V : Type) where
  task : ℕ
  port : ℕ
  count : ℕ
  args : List Arg
  dst : Option ℕ
  env : List ℕ
  ops : List (Op V)
  after : After V

/-- The call sites of `add_arc`; each says how the caller continues. -/
inductive AddSite (V : Type) where
  /-- `assign_prerequisite`, with the port of the version read. -/
  | assign (f : Frame V) (p : ℕ)
  /-- `assign_prerequisite` after a deferred redirect. -/
  | assignTo (f : Frame V) (p : ℕ)
  /-- `assign_prerequisite`, late consumer: the back arc in the task's own list. -/
  | ownBack (f : Frame V)
  /-- `do_notify_arcs`: the back arc in the consumer's list. -/
  | back
  /-- `oox_var_base::set_next_writer`: an arc of a deferred var moved to the writer. -/
  | moved
  /-- `store_exception_control` for the task's own exception. -/
  | thrown
  /-- `publish_failure_from`. -/
  | signal
  /-- `try_forward_result` of task `t`. -/
  | forward (t : ℕ)

inductive Instr (V : Type) where
  -- task::release, life_release and the destructor
  | release (n : ℕ) (k : ℕ)
  | releaseSub (n : ℕ) (k : ℕ)
  | destroy (n : ℕ)
  | freeNode (n : ℕ)
  | deleteArc (a : ℕ)
  | releaseControl (c : ℕ)
  -- arc_list::add_arc
  | addArc (n : ℕ) (a : ℕ) (site : AddSite V)
  | addArcCas (n : ℕ) (a : ℕ) (seen : List ℕ) (site : AddSite V)
  -- output slots
  | removeBackArc (n : ℕ) (p : ℕ)
  | notifyNextWriter (n : ℕ) (p : ℕ)
  | setNextWriter (n : ℕ) (p : ℕ) (d : NextWriter)
  -- notify_successors<slots, canThrow>; `count` is its array of counters
  | storeCountdown (t : ℕ) (canThrow : Bool) (count : List ℤ)
  | loadException (t : ℕ) (count : List ℤ)
  | findTerminal (t : ℕ) (count : List ℤ)
  | retainTerminal (t : ℕ) (c : ℕ) (count : List ℤ)
  | closeList (t : ℕ) (canThrow : Bool) (terminal : Option ℕ) (count : List ℤ)
  | loadFailureFlag (t : ℕ) (r : List ℕ) (count : List ℤ)
  | notifyArcs (t : ℕ) (canThrow failed : Bool) (r : List ℕ) (count : List ℤ)
  | outLoad (t : ℕ) (i : ℕ) (count : List ℤ) (refs : ℕ)
  | outCas (t : ℕ) (i : ℕ) (count : List ℤ) (refs : ℕ)
  | outSub (t : ℕ) (i : ℕ) (count : List ℤ) (refs : ℕ)
  | outNotify (t : ℕ) (i : ℕ) (count : List ℤ) (refs : ℕ)
  | wakeup (t : ℕ) (refs : ℕ)
  -- remove_prerequisite
  | removePrerequisite (n : ℕ) (k : ℕ)
  | spawn (n : ℕ)
  -- publish_failure_from and mark_failure
  | publish (n source : ℕ) (p : ℕ)
  | publishControl (n source : ℕ)
  | retainSignal (n : ℕ) (c : ℕ)
  | mark (n : ℕ) (b : FailureBit)
  | markLoad (n : ℕ) (b : FailureBit)
  | markCheck (n : ℕ) (b : FailureBit) (word : StartCount)
  | markCas (n : ℕ) (b : FailureBit) (word : StartCount)
  -- functional_task::execute
  | execute (t : ℕ)
  | invoke (t : ℕ)
  | finish (t : ℕ) (env : List ℕ) (vals : List V) (cells : List StoragePtr)
  | storeStart (t : ℕ)
  | addLife (t : ℕ)
  | forwardFailure (t : ℕ)
  -- run and the setup of its arguments
  | setup (f : Frame V)
  | assignHead (f : Frame V) (n : ℕ) (p : ℕ) (a : ℕ)
  | assignFailure (f : Frame V) (n : ℕ) (p : ℕ) (a : ℕ)
  | assignIncrement (f : Frame V) (n : ℕ) (p : ℕ) (a : ℕ)
  | redirect (n : ℕ) (q : ℕ) (t : ℕ) (p : ℕ) (a : ℕ)
  | moveArcs (n : ℕ) (q : ℕ) (t : ℕ) (p : ℕ) (r : List ℕ)
  | bind (f : Frame V)
  | moveResult (f : Frame V) (r : Var)
  -- the issuing thread
  | runOps (env : List ℕ) (ops : List (Op V)) (after : After V)
  | waitHead (n : ℕ)
  | waitBlock (n : ℕ)
  | waitDone (n : ℕ)
  | waitStatus (v : ℕ)
  | waitRead (v : ℕ)

/-- How a step can fail. -/
inductive Fault where
  /-- a node, arc, payload or value is used after its deletion or deleted twice, or bytes that
  are no pointer are followed. -/
  | useAfterFree
  /-- a debug assertion of the source fails. -/
  | assertion
  /-- `consume` finds no storage ("null result_state storage"). -/
  | nullStorage
  /-- `consume` finds no value ("read from empty result_state"). -/
  | emptyRead
  /-- a var object is read as if it were a `result_state`. -/
  | wrongObject
  /-- a null pointer is used. -/
  | nullPointer
  /-- a `noexcept` body throws. -/
  | terminate
  /-- a var that another thread reads is changed. -/
  | race
  /-- the program names a var it does not have. -/
  | unbound
  /-- the program does not compile: a policy forbids it, or it reads the value of a node. -/
  | illTyped
  deriving DecidableEq, Repr

/-- `oox_var_base::release` of a var object. -/
def releaseVar {V : Type} (u : Var) : List (Instr V) :=
  match u.currentTask with
  | none => []
  | some n => [.setNextWriter n u.currentPort u.endMarker]

end Oox
