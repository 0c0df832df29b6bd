import Oox.Library.Protocol
import Oox.Model.Words

/-!
# A forwarding task and the task of the var it returned

The body of a forwarding task returns a var of another task, which may still wait for its
prerequisites, run, be cancelled, or have completed (oox.h:1729-1782). The outcome of that task
reaches the forwarding task through the arc it adds (oox.h:1045-1165), or through
`publish_failure_from` when the arc comes too late. Other threads wait on both vars and read the
result of the forwarding task.
-/

set_option autoImplicit false

namespace Oox.Transparent

open Library

/-- The task of the returned var, and the forwarding task. -/
inductive Who where
  | inner
  | outer
  deriving DecidableEq, Repr

/-- How a version failed; `e` is the payload. A version that did not fail has the outcome
`none`. -/
inductive Failure where
  | exception (e : ℕ)
  | userCancelled
  | dependencyCancelled
  deriving DecidableEq, Repr

/-- The bit that `mark_failure` sets for it. -/
def Failure.bit : Failure → FailureBit
  | .exception _ => .exception
  | .userCancelled => .userCancelled
  | .dependencyCancelled => .dependencyCancelled

/-- What is on the list of a task: an `exception_signal`, or the arc of a task that waits for it
(for the task of the returned var this is the forwarding task). -/
inductive Entry where
  | signal (e : ℕ)
  | arc
  deriving DecidableEq, Repr

def Entry.payload? : Entry → Option ℕ
  | .signal e => some e
  | .arc => none

/-- `arc_list::head`. -/
inductive ListHead where
  | list (l : List Entry)
  | done
  | terminal (e : ℕ)
  deriving DecidableEq, Repr

/-- `is_done_arc_head`. -/
def ListHead.isDone : ListHead → Bool
  | .list _ => false
  | _ => true

/-- The head that `notify_successors` leaves: a terminal arc or `task_done_marker`. -/
def ListHead.closed : Option ℕ → ListHead
  | some e => .terminal e
  | none => .done

/-- The payloads on an open list. -/
def ListHead.signals : ListHead → List ℕ
  | .list l => l.filterMap Entry.payload?
  | _ => []

/-- The arcs on an open list. -/
def ListHead.arcs : ListHead → ℕ
  | .list l => l.count .arc
  | _ => 0

namespace ListHead

@[simp] theorem isDone_list (l : List Entry) : (list l).isDone = false := rfl

@[simp] theorem isDone_done : done.isDone = true := rfl

@[simp] theorem isDone_terminal (e : ℕ) : (terminal e).isDone = true := rfl

@[simp] theorem isDone_closed (terminal : Option ℕ) : (closed terminal).isDone = true := by
  cases terminal <;> rfl

@[simp] theorem arcs_closed (terminal : Option ℕ) : (closed terminal).arcs = 0 := by
  cases terminal <;> rfl

@[simp] theorem signals_nil : (list []).signals = [] := rfl

@[simp] theorem signals_signal (e : ℕ) (l : List Entry) :
    (list (.signal e :: l)).signals = e :: (list l).signals := rfl

@[simp] theorem signals_arc (l : List Entry) : (list (.arc :: l)).signals = (list l).signals := rfl

@[simp] theorem arcs_list (l : List Entry) : (list l).arcs = l.count .arc := rfl

@[simp] theorem arcs_done : done.arcs = 0 := rfl

@[simp] theorem arcs_terminal (e : ℕ) : (terminal e).arcs = 0 := rfl

end ListHead

structure Task where
  head : ListHead := .list []
  word : StartCount := {}
  deriving DecidableEq, Repr

/-- `local_exception_control_handle`: the terminal arc, or the first signal on the list. -/
def Task.handle (x : Task) : Option ℕ :=
  match x.head with
  | .terminal e => some e
  | h => h.signals.head?

/-- `throw_failure_for_port`, and the tail of `failure_wait_status`. -/
def Task.failureForPort (x : Task) (port : ℕ) : Failure :=
  if port ≠ 0 then .dependencyCancelled
  else if x.word.exception then
    match x.handle with
    | some e => .exception e
    | none => .dependencyCancelled
  else if x.word.userCancelled then .userCancelled
  else .dependencyCancelled

/-- `failure_wait_status`. -/
def Task.failureWaitStatus (x : Task) (port : ℕ) : Option Failure :=
  if x.word.failed then some (x.failureForPort port) else none

/-- What `publish_failure_from` publishes. -/
def Task.publishedFailure (x : Task) (port : ℕ) : Option Failure :=
  if port ≠ 0 then some .dependencyCancelled
  else if x.word.exception then
    match x.handle with
    | some e => some (.exception e)
    | none => some .dependencyCancelled
  else if x.word.userCancelled then some .userCancelled
  else if x.word.dependencyCancelled then some .dependencyCancelled
  else none

/-- What the task of the returned var does when its prerequisites have succeeded. -/
inductive Body where
  | returns
  | throws (e : ℕ)
  /-- it forwards in turn, and comes too late to add its arc. -/
  | refused (f : Option Failure)
  /-- it forwards in turn, and the task it waits for publishes to it. -/
  | accepted (f : Option Failure)
  deriving DecidableEq, Repr

structure Mem where
  /-- the output port of the returned var. -/
  port : ℕ
  inner : Task
  outer : Task := {}
  /-- what `execute` of the task of the returned var does next. -/
  body : Body
  /-- `result_base::has_value` of the forwarding task. -/
  hasValue : Bool := false
  -- history
  /-- the prerequisites the task of the returned var waits for, and how many of them have put a
  payload on its list and not yet marked it. -/
  waiting : ℕ
  unmarked : ℕ := 0
  /-- the task of the returned var looks for failures no more. -/
  running : Bool := false
  /-- how many waits and reads of the forwarding task's var there are, and what they observed. -/
  users : ℕ
  observed : List (Option Failure) := []
  /-- what waits on the returned var reported. -/
  reported : List (Option Failure) := []
  deriving DecidableEq, Repr

def Mem.task (m : Mem) : Who → Task
  | .inner => m.inner
  | .outer => m.outer

def Mem.set (m : Mem) (t : Who) (x : Task) : Mem :=
  match t with
  | .inner => { m with inner := x }
  | .outer => { m with outer := x }

def Mem.setHead (m : Mem) (t : Who) (h : ListHead) : Mem := m.set t { m.task t with head := h }

def Mem.setWord (m : Mem) (t : Who) (w : StartCount) : Mem := m.set t { m.task t with word := w }

@[simp] theorem Mem.task_inner (m : Mem) : m.task .inner = m.inner := rfl

@[simp] theorem Mem.task_outer (m : Mem) : m.task .outer = m.outer := rfl

@[simp] theorem Mem.setHead_inner (m : Mem) (h : ListHead) :
    m.setHead .inner h = { m with inner := { m.inner with head := h } } := rfl

@[simp] theorem Mem.setHead_outer (m : Mem) (h : ListHead) :
    m.setHead .outer h = { m with outer := { m.outer with head := h } } := rfl

@[simp] theorem Mem.setWord_inner (m : Mem) (w : StartCount) :
    m.setWord .inner w = { m with inner := { m.inner with word := w } } := rfl

@[simp] theorem Mem.setWord_outer (m : Mem) (w : StartCount) :
    m.setWord .outer w = { m with outer := { m.outer with word := w } } := rfl

/-- The port of the var of a task. -/
def Mem.portOf (m : Mem) : Who → ℕ
  | .inner => m.port
  | .outer => 0

/-- What follows a published failure: `remove_prerequisite`, or `notify_successors`. -/
inductive After where
  | remove
  | complete
  deriving DecidableEq, Repr

inductive Instr where
  -- a failure reaches a task
  | publish (t : Who) (f : Option Failure) (next : After)
  | mark (t : Who) (b : FailureBit) (next : After)
  | publishFrom (next : After)
  -- a task starts
  | removePrerequisite (t : Who)
  | execute (t : Who)
  -- try_forward_result
  | forward
  | offerArc
  | checkFailure
  -- notify_successors
  | complete (t : Who) (canThrow : Bool)
  | closeList (t : Who) (canThrow : Bool) (terminal : Option ℕ)
  | notifyLoad (t : Who) (canThrow : Bool) (l : List Entry)
  | notifyArcs (t : Who) (canThrow failed : Bool) (l : List Entry)
  -- cancel of the returned var
  | cancel
  | cancelMark
  -- a reader of the forwarding task's result
  | consume
  | lateCheck
  | consumerFailure
  -- wait_for_all_status
  | wait (t : Who)
  | hasFailure (t : Who)
  | failureBits (t : Who)
  deriving DecidableEq, Repr

def After.instr (t : Who) : After → Instr
  | .remove => .removePrerequisite t
  | .complete => .complete t true

inductive Fault where
  /-- a debug assertion fails, or a list is closed twice. -/
  | assertion
  /-- a payload marker is used as the arc of a successor. -/
  | payload
  deriving DecidableEq, Repr

abbrev State := Config Mem Instr
abbrev Step := Outcome Mem Instr Fault

/-- Continue on the same thread. -/
abbrev goto (m : Mem) (push : List Instr) : Step := .next m push []

/-- A wait or read of the forwarding task's var observed an outcome. -/
def Mem.observe (m : Mem) (o : Option Failure) : Mem := { m with observed := o :: m.observed }

/-- What a wait on a var reported. -/
def Mem.report (m : Mem) (t : Who) (o : Option Failure) : Mem :=
  match t with
  | .inner => { m with reported := o :: m.reported }
  | .outer => m.observe o

/-! ## Failures -/

/-- `publish_failure_from` and `try_set_exception`, up to `mark_failure`: the payload of an
exception goes on the list first. -/
def publish (m : Mem) (t : Who) (f : Option Failure) (next : After) : Step :=
  match f with
  | none => goto m [next.instr t]
  | some (.exception e) =>
    let u := if t = .inner ∧ next = .remove then m.unmarked + 1 else m.unmarked
    match (m.task t).head with
    | .list l => goto { m.setHead t (.list (.signal e :: l)) with unmarked := u }
        [.mark t .exception next]
    | _ => goto { m with unmarked := u } [.mark t .exception next]
  | some f => goto m [.mark t f.bit next]

/-- `mark_failure`. -/
def mark (m : Mem) (t : Who) (b : FailureBit) (next : After) : Step :=
  let u := if t = .inner ∧ next = .remove ∧ b = .exception then m.unmarked - 1 else m.unmarked
  if (m.task t).head.isDone then goto { m with unmarked := u } [next.instr t]
  else goto { m.setWord t ((m.task t).word.mark b) with unmarked := u } [next.instr t]

/-- `publish_failure_from` of the forwarding task: what it reads from the task of the returned
var. The port is 0. -/
def publishFrom (m : Mem) (next : After) : Step :=
  goto m [.publish .outer (m.inner.publishedFailure 0) next]

/-! ## Starting and running -/

/-- `remove_prerequisite`. -/
def removePrerequisite (m : Mem) (t : Who) : Step :=
  let w := (m.task t).word
  let updated := { w with count := w.count - 1 }
  let m' := { m.setWord t updated with waiting := if t = .inner then m.waiting - 1 else m.waiting }
  if w.count < 1 then .fault .assertion
  else if w.count = 1 then
    if updated.skips then goto m' [.complete t true] else .next m' [] [[.execute t]]
  else goto m' []

/-- `execute` of the task of the returned var. A task that forwards stores 1 into
`start_count`. -/
def executeInner (m : Mem) : Step :=
  if m.inner.word.failed then goto m [.complete .inner true]
  else
    match m.body with
    | .returns => goto { m with running := true } [.complete .inner false]
    | .throws e => goto m [.publish .inner (some (.exception e)) .complete]
    | .refused none =>
      goto { m.setWord .inner { count := 1 } with running := true } [.complete .inner false]
    | .refused (some f) =>
      goto (m.setWord .inner { count := 1 }) [.publish .inner (some f) .complete]
    | .accepted f =>
      .next { m.setWord .inner { count := 1 } with waiting := 1, body := .returns } []
        [[.publish .inner f .remove]]

/-- `execute` of the forwarding task. The first time the body runs and returns the var. -/
def executeOuter (m : Mem) : Step :=
  if m.outer.word.failed then goto m [.complete .outer true]
  else if m.hasValue then goto m [.complete .outer false]
  else goto { m with hasValue := true } [.forward]

def execute (m : Mem) : Who → Step
  | .inner => executeInner m
  | .outer => executeOuter m

/-- `try_forward_result`: 1 is stored into `start_count`. -/
def forward (m : Mem) : Step := goto (m.setWord .outer { count := 1 }) [.offerArc]

/-- `try_forward_result`: `add_arc`. -/
def offerArc (m : Mem) : Step :=
  match m.inner.head with
  | .list l => goto (m.setHead .inner (.list (.arc :: l))) []
  | _ => goto m [.checkFailure]

/-- `execute` of the forwarding task, when the arc was rejected. -/
def checkFailure (m : Mem) : Step :=
  goto m [if m.inner.word.failed then .publishFrom .complete else .complete .outer false]

/-! ## notify_successors -/

/-- The terminal arc. -/
def complete (m : Mem) (t : Who) (canThrow : Bool) : Step :=
  let x := m.task t
  goto m [.closeList t canThrow (if canThrow && x.word.exception then x.handle else none)]

/-- `head.exchange(terminal)`. -/
def closeList (m : Mem) (t : Who) (canThrow : Bool) (terminal : Option ℕ) : Step :=
  match (m.task t).head with
  | .list [] => goto (m.setHead t (.closed terminal)) []
  | .list l => goto (m.setHead t (.closed terminal)) [.notifyLoad t canThrow l]
  | _ => .fault .assertion

/-- `do_notify_arcs`: the load of `producer_failed`. -/
def notifyLoad (m : Mem) (t : Who) (canThrow : Bool) (l : List Entry) : Step :=
  goto m [.notifyArcs t canThrow (canThrow && (m.task t).word.failureFlag) l]

/-- A round of `do_notify_arcs`. -/
def notifyArcs (m : Mem) (t : Who) (canThrow failed : Bool) : List Entry → Step
  | [] => goto m []
  | .signal _ :: r =>
    if canThrow then goto m [.notifyArcs t canThrow failed r] else .fault .payload
  | .arc :: r =>
    match t with
    | .inner => goto m
        [if failed then .publishFrom .remove else .removePrerequisite .outer,
          .notifyArcs .inner canThrow failed r]
    | .outer =>
      if failed then goto m [.consumerFailure, .notifyArcs .outer canThrow failed r]
      else goto (m.observe none) [.notifyArcs .outer canThrow failed r]

/-! ## Other threads -/

/-- `cancel` of the returned var: `mark_failure` checks the list, -/
def cancel (m : Mem) : Step :=
  if m.inner.head.isDone then goto m [] else goto m [.cancelMark]

/-- and sets the bit. -/
def cancelMark (m : Mem) : Step := goto (m.setWord .inner (m.inner.word.mark .userCancelled)) []

/-- `assign_prerequisite` of a task that reads the forwarding task's result. -/
def consume (m : Mem) : Step :=
  match m.outer.head with
  | .list l => goto (m.setHead .outer (.list (.arc :: l))) []
  | _ => goto m [.lateCheck]

/-- `has_failure`, when the task has completed. -/
def lateCheck (m : Mem) : Step :=
  if m.outer.word.failed then goto m [.consumerFailure] else goto (m.observe none) []

/-- `publish_failure_from` of a reader. -/
def consumerFailure (m : Mem) : Step := goto (m.observe (m.outer.publishedFailure 0)) []

/-- `oox_var_base::wait`. -/
def wait (m : Mem) (t : Who) : Step :=
  if (m.task t).head.isDone then goto m [.hasFailure t] else .blocked

/-- `failure_wait_status`: `has_failure`. -/
def hasFailure (m : Mem) (t : Who) : Step :=
  if (m.task t).word.failed then goto m [.failureBits t] else goto (m.report t none) []

/-- `failure_wait_status`: the port and the failure bits. -/
def failureBits (m : Mem) (t : Who) : Step :=
  goto (m.report t (some ((m.task t).failureForPort (m.portOf t)))) []

def exec (m : Mem) (_choice : Bool) : Instr → Step
  | .publish t f next => publish m t f next
  | .mark t b next => mark m t b next
  | .publishFrom next => publishFrom m next
  | .removePrerequisite t => removePrerequisite m t
  | .execute t => execute m t
  | .forward => forward m
  | .offerArc => offerArc m
  | .checkFailure => checkFailure m
  | .complete t canThrow => complete m t canThrow
  | .closeList t canThrow terminal => closeList m t canThrow terminal
  | .notifyLoad t canThrow l => notifyLoad m t canThrow l
  | .notifyArcs t canThrow failed l => notifyArcs m t canThrow failed l
  | .cancel => cancel m
  | .cancelMark => cancelMark m
  | .consume => consume m
  | .lateCheck => lateCheck m
  | .consumerFailure => consumerFailure m
  | .wait t => wait m t
  | .hasFailure t => hasFailure m t
  | .failureBits t => failureBits m t

/-! ## The program -/

/-- What another thread does. -/
inductive Use where
  /-- wait on the var of a task. -/
  | wait (t : Who)
  /-- run a task that reads the forwarding task's result. -/
  | consume
  /-- cancel the returned var. -/
  | cancel
  deriving DecidableEq, Repr

def Use.instr : Use → Instr
  | .wait t => .wait t
  | .consume => .consume
  | .cancel => .cancel

/-- Whether it observes the outcome of the forwarding task. -/
def Use.observes : Use → Bool
  | .wait .outer => true
  | .consume => true
  | _ => false

/-- The forwarding task is about to run. The task of the returned var waits for its
prerequisites, each with what it will publish, and for `run` to publish it. -/
def start (port : ℕ) (prerequisites : List (Option Failure)) (body : Body)
    (users : List (List Use)) : State where
  mem :=
    { port := port
      inner := { word := { count := prerequisites.length + 1 } }
      body := body
      waiting := prerequisites.length + 1
      users := (users.map fun l => l.countP Use.observes).sum }
  threads := [.execute .outer] :: [.removePrerequisite .inner] ::
    (prerequisites.map fun f => [.publish .inner f .remove]) ++
    users.map fun l => l.map Use.instr

end Oox.Transparent
