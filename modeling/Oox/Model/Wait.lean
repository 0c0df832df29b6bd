import Oox.Model.Instr

/-!
# What a waiting thread reads

The functions a thread of the user calls once the task of a var is complete: the failure
report, `var::get` and `wait_and_get`. They only read the memory.
-/

set_option autoImplicit false

namespace Oox

variable {V : Type}

/-- `local_exception_control_handle` (oox.h:942-957): the load of `head` and the scan. -/
def localControl (m : Mem V) (n : ℕ) : Option ℕ :=
  match (m.node n).head with
  | .terminal a => some (m.arc a).control
  | .list l => (l.find? fun a => (m.arc a).kind = .exceptionSignal).map fun a => (m.arc a).control
  | _ => none

/-- `wait_status`, and the rethrown exception of the task named. -/
inductive WaitStatus where
  | ready
  | userCancelled
  | dependencyCancelled
  | exception (thrower : ℕ)
  deriving DecidableEq, Repr

/-- `failure_wait_status` and `throw_failure_for_port` (oox.h:876-890, 1880-1908): both sort
the failures of a task alike, one returns what the other throws. -/
def failureWaitStatus (m : Mem V) (n : ℕ) (port : ℕ) : WaitStatus :=
  let word := (m.node n).startCount
  if word.failed = false then .ready
  else if port > 0 then .dependencyCancelled
  else if word.exception then
    match localControl m n with
    | some c => .exception (m.control c).thrower
    | none => .dependencyCancelled
  else if word.userCancelled then .userCancelled
  else .dependencyCancelled

/-- What reading a var ends in. -/
inductive Reading (V : Type) where
  | value (v : V)
  | thrown (status : WaitStatus)
  | fault (cause : Fault)
  deriving DecidableEq, Repr

/-- `value()` of the `result_state` a storage pointer is taken for. -/
def storageValue (m : Mem V) : StoragePtr → Reading V
  | .null => .fault .nullStorage
  | .result n =>
    if (m.node n).status ≠ .live then .fault .useAfterFree
    else
      match (m.node n).result with
      | some v => .value v
      | none => .fault .emptyRead
  | .varObject _ => .fault .wrongObject
  | .task _ => .fault .illTyped

/-- The failure check of a var whose type has policy `canThrow`. -/
def varStatus (m : Mem V) (canThrow : Bool) (u : Var) : WaitStatus :=
  match u.currentTask with
  | some n => if canThrow then failureWaitStatus m n u.currentPort else .ready
  | none => .ready

/-- `var::get` (oox.h:1471-1481), after its wait. -/
def get (m : Mem V) (u : Var) : Reading V :=
  match varStatus m u.canThrow u with
  | .ready => storageValue m u.storage
  | status => .thrown status

/-- `wait_and_get` (oox.h:1941-1965), after its wait: the loop over forwarded vars, at most
`fuel` of them. -/
def followForwarded (m : Mem V) (canThrow : Bool) : ℕ → Var → Reading V
  | 0, _ => .fault .assertion
  | fuel + 1, u =>
    match varStatus m canThrow u with
    | .ready =>
      if u.isForwarded then
        match u.storage with
        | .varObject v => followForwarded m canThrow fuel (m.var v)
        | .null => .fault .nullStorage
        | _ => .fault .assertion
      else storageValue m u.storage
    | status => .thrown status

/-- `wait_and_get`; a chain of forwarded vars is no longer than there are vars. -/
def waitAndGet (m : Mem V) (u : Var) : Reading V :=
  followForwarded m u.canThrow (m.vars.size + 1) u

end Oox
