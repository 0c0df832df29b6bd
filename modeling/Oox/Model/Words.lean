import Mathlib.Algebra.BigOperators.Group.List.Basic
import Mathlib.Data.Int.Basic
import Mathlib.Data.List.Basic

/-!
# The words of the runtime

The tagged pointers, packed counters and small records of `oox/oox.h`. A pointer
is the index of the object it points to (`n`, `t` for nodes, `a` for arcs, `v` for vars, `c`
for exception controls; `p`, `q` are ports), so a tagged word is an inductive type with one
constructor per tag. Fields under `-- history` are written by steps and
read by none: they record what happened, for the statements of the analysis.
-/

set_option autoImplicit false

namespace Oox

/-- `std::numeric_limits<int>::max()/2`, the bias of a countdown while its task completes. -/
def countdownBias : ℤ := 2147483647 / 2

/-- `task_node::start_count_mask`. -/
def startCountMask : ℕ := 2 ^ 27 - 1

/-- `output_node::next_writer` (oox.h:621-627). -/
inductive NextWriter where
  | null
  /-- `next_writer_ready_marker`: the value is there, the countdown holds one extra unit. -/
  | ready
  /-- `next_writer_no_owner_marker`: the end of the chain, no storage owner. -/
  | noOwner
  /-- `encode_next_writer_owner`: the end of the chain, with the node that owns the storage. -/
  | owner (n : ℕ)
  /-- the node that overwrites the value. -/
  | node (n : ℕ)
  deriving DecidableEq, Repr

/-- `output_node` (oox.h:620-630). -/
structure OutputNode where
  nextWriter : NextWriter := .null
  countdown : ℤ := 1
  -- history
  /-- the bias was stored (for a storage node: from the start). -/
  armed : Bool := false
  /-- the producer took its own count back (for a storage node: from the start). -/
  handed : Bool := false
  /-- how often `notify_next_writer` was called for the slot. -/
  notified : ℕ := 0
  deriving DecidableEq, Repr

/-- `arc::kinds` (oox.h:634-643). -/
inductive ArcKind where
  | flowOnly
  | backOnly
  | flowBack
  | flowCopy
  | forwardCopy
  | exceptionSignal
  deriving DecidableEq, Repr

/-- What an arc object stands for at the moment; the code knows it from where the arc is. -/
inductive ArcRole where
  /-- a prerequisite of `node` that was not delivered yet. -/
  | waiting
  /-- one unit of the countdown of slot `port` of `node`. -/
  | charged
  /-- the prerequisite a forwarding task offers to the task of the var it returned. -/
  | offered
  /-- a deferred redirect descriptor. -/
  | descriptor
  /-- an exception payload, in flight or terminal. -/
  | payload
  /-- taken off its list, about to be deleted. -/
  | spent
  deriving DecidableEq, Repr

/-- `arc` (oox.h:632-669). `next` is the order of the list the arc is in. -/
structure Arc where
  kind : ArcKind := .flowBack
  node : ℕ := 0
  control : ℕ := 0
  port : ℕ := 0
  alive : Bool := false
  -- history
  role : ArcRole := .spent
  /-- the node whose list the arc is in or made for. -/
  site : ℕ := 0
  /-- the reader and the version an arc of `assign_prerequisite` was made for. -/
  reads : Option (ℕ × (ℕ × ℕ)) := none
  accepted : ℕ := 0
  handled : ℕ := 0
  deriving DecidableEq, Repr

/-- `arc_list::head` (oox.h:738-744): an open list (`[]` is the null pointer) or a tagged word. -/
inductive Head where
  | list (arcs : List ℕ)
  /-- `task_done_marker`. -/
  | done
  /-- `tagged_terminal_exception_arc`. -/
  | terminal (a : ℕ)
  /-- `encode_deferred_redirect_arc`. -/
  | redirect (a : ℕ)
  deriving DecidableEq, Repr

/-- `is_done_arc_head`. -/
def Head.isDone : Head → Bool
  | .done => true
  | .terminal _ => true
  | _ => false

/-- The failure bits of `start_count`. -/
inductive FailureBit where
  | dependencyCancelled
  | userCancelled
  | exception
  deriving DecidableEq, Repr

/-- `task_node::start_count` (oox.h:764-780), unpacked. -/
structure StartCount where
  count : ℕ := 0
  dependencyCancelled : Bool := false
  userCancelled : Bool := false
  exception : Bool := false
  failureFlag : Bool := false
  deriving DecidableEq, Repr

namespace StartCount

/-- `word & start_failure_bits_mask` is nonzero. -/
def failed (w : StartCount) : Bool :=
  w.dependencyCancelled || w.userCancelled || w.exception

/-- `has_non_user_start_failure`, the bits that make `remove_prerequisite` skip the task. -/
def skips (w : StartCount) : Bool :=
  w.dependencyCancelled || w.exception

/-- `word | start_failure_flag | failure_bit`. -/
def mark (w : StartCount) : FailureBit → StartCount
  | .dependencyCancelled => { w with dependencyCancelled := true, failureFlag := true }
  | .userCancelled => { w with userCancelled := true, failureFlag := true }
  | .exception => { w with exception := true, failureFlag := true }

@[simp] theorem mark_count (w : StartCount) (b : FailureBit) : (w.mark b).count = w.count := by
  cases b <;> rfl

end StartCount

/-- `exception_control_struct` (oox.h:147-155); the payload is the task whose body threw. -/
structure Control where
  refCount : ℤ := 0
  thrower : ℕ := 0
  alive : Bool := false
  deriving DecidableEq, Repr

/-- A storage pointer: where `oox_var_base::storage_ptr` points. -/
inductive StoragePtr where
  | null
  /-- the `result_state<T>` of a node. -/
  | result (n : ℕ)
  /-- a var object: the value held in the `result_state<var<T>>` of a forwarding task. -/
  | varObject (v : ℕ)
  /-- the task itself (`gen_oox<void>::bind_to`). -/
  | task (n : ℕ)
  deriving DecidableEq, Repr

/-- `oox_var_base` (oox.h:1276-1297). `owner` is `storage_ptr - storage_offset` when
`storage_offset` is not zero. -/
structure Var where
  currentTask : Option ℕ := none
  storage : StoragePtr := .null
  owner : Option ℕ := none
  currentPort : ℕ := 0
  isForwarded : Bool := false
  isDeferred : Bool := false
  /-- the policy in the var's type `var<T, CanThrow>`. -/
  canThrow : Bool := true
  /-- a body took the bytes of `current_task` for its value: they are no pointer to a node. -/
  wild : Bool := false
  -- history
  /-- a copy of another thread's var, taken to read it. -/
  borrowed : Bool := false
  /-- read by other threads: nothing may change it any more. -/
  shared : Bool := false
  deriving DecidableEq, Repr

/-- The word `oox_var_base::release` stores (oox.h:1353-1358). -/
def Var.endMarker (v : Var) : NextWriter :=
  match v.owner with
  | some n => .owner n
  | none => .noOwner

/-- `my_ptr` of an argument (oox.h:1585-1589): the storage itself, or the address of the
`storage_ptr` field of the var a forwarding task will return. -/
inductive ArgPtr where
  | plain (p : StoragePtr)
  | forwarded (v : ℕ)
  deriving DecidableEq, Repr

end Oox
