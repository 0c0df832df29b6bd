import Oox.Forwarding.Mirror

/-!
# A task and those who ask for its outcome

One throwing task: its prerequisites publish what they have, then it runs or is skipped, closes
its list and notifies the consumers on it (oox.h:1045-1165, 1654-1677). Other threads register
consumers before or after that (oox.h:1002-1043), wait on the task (oox.h:1880-1939), and cancel it
(oox.h:910-928): `mark_failure` checks the list and sets its bit in two steps.
-/

set_option autoImplicit false

namespace Oox.Cancellation

open Library
open Transparent (Failure Entry ListHead Task Body)

structure Mem where
  task : Task
  /-- what `execute` does when no failure keeps the body from running. -/
  body : Body
  -- history
  /-- the prerequisites the task waits for, and how many of them have put a payload on its list
  and not yet marked it. -/
  waiting : ℕ
  unmarked : ℕ := 0
  /-- the task looks for failures no more. -/
  running : Bool := false
  /-- of each consumer that started, whether its body ran. -/
  ran : List Bool := []
  /-- what the waits on the task reported. -/
  reported : List (Option Failure) := []
  deriving DecidableEq, Repr

/-- The outcome that a wait on the result reports. -/
def Mem.outcome (m : Mem) : Option Failure := m.task.failureWaitStatus 0

def Mem.setHead (m : Mem) (h : ListHead) : Mem := { m with task := { m.task with head := h } }

def Mem.setWord (m : Mem) (w : StartCount) : Mem := { m with task := { m.task with word := w } }

/-- What follows a failure bit: `remove_prerequisite`, `notify_successors`, or the return of
`cancel`. -/
inductive After where
  | remove
  | complete
  | return
  deriving DecidableEq, Repr

inductive Instr where
  -- publish_failure_from, try_set_exception and mark_failure
  | publish (f : Option Failure) (next : After)
  | mark (b : FailureBit) (next : After)
  | markCas (b : FailureBit) (next : After)
  -- the task starts
  | removePrerequisite
  | execute
  | runBody
  -- notify_successors
  | complete (canThrow : Bool)
  | closeList (canThrow : Bool) (terminal : Option ℕ)
  | notifyLoad (canThrow : Bool) (l : List Entry)
  | notifyArcs (canThrow failed : Bool) (l : List Entry)
  -- a consumer of the result
  | consume
  | lateCheck
  | consumerFailure
  | consumerStart (w : StartCount)
  -- wait_for_all_status
  | wait
  | hasFailure
  | failureBits
  deriving DecidableEq, Repr

def After.push : After → List Instr
  | .remove => [.removePrerequisite]
  | .complete => [.complete true]
  | .return => []

inductive Fault where
  /-- a debug assertion fails, or a list is closed twice. -/
  | assertion
  /-- a payload marker is used as the arc of a successor. -/
  | payload
  deriving DecidableEq, Repr

abbrev State := Config Mem Instr
abbrev Step := Outcome Mem Instr Fault

/-- Continue on the same thread. -/
abbrev goto (m : Mem) (push : List Instr) : Step := .next m push []

/-! ## Failures -/

/-- `publish_failure_from` and `try_set_exception`, up to `mark_failure`: the payload of an
exception goes on the list first. -/
def publish (m : Mem) (f : Option Failure) (next : After) : Step :=
  match f with
  | none => goto m next.push
  | some (.exception e) =>
    let u := if next = .remove then m.unmarked + 1 else m.unmarked
    match m.task.head with
    | .list l => goto { m.setHead (.list (.signal e :: l)) with unmarked := u } [.mark .exception next]
    | _ => goto { m with unmarked := u } [.mark .exception next]
  | some f => goto m [.mark f.bit next]

/-- `mark_failure`: the check of `head`, with the word loaded. -/
def mark (m : Mem) (b : FailureBit) (next : After) : Step :=
  if m.task.head.isDone then goto m next.push else goto m [.markCas b next]

/-- `mark_failure`: the compare-exchange. When it fails the word is loaded again and `head` is
checked again. -/
def markCas (m : Mem) (fails : Bool) (b : FailureBit) (next : After) : Step :=
  if fails then goto m [.mark b next]
  else
    goto { m.setWord (m.task.word.mark b) with
      unmarked := if next = .remove ∧ b = .exception then m.unmarked - 1 else m.unmarked } next.push

/-! ## Starting and running -/

/-- `remove_prerequisite`. -/
def removePrerequisite (m : Mem) : Step :=
  let w := m.task.word
  let updated := { w with count := w.count - 1 }
  let m' := { m.setWord updated with waiting := m.waiting - 1 }
  if w.count < 1 then .fault .assertion
  else if w.count = 1 then
    if updated.skips then goto m' [.complete true] else .next m' [] [[.execute]]
  else goto m' []

/-- `execute`: the check for a failure. -/
def execute (m : Mem) : Step :=
  if m.task.word.failed then goto m [.complete true]
  else goto { m with running := m.body == .returns } [.runBody]

/-- `execute`: the body. A task that forwards stores 1 into `start_count`. -/
def runBody (m : Mem) : Step :=
  match m.body with
  | .returns => goto m [.complete false]
  | .throws e => goto m [.publish (some (.exception e)) .complete]
  | .refused none => goto { m.setWord { count := 1 } with running := true } [.complete false]
  | .refused (some f) => goto (m.setWord { count := 1 }) [.publish (some f) .complete]
  | .accepted f =>
    .next { m.setWord { count := 1 } with waiting := 1, body := .returns } []
      [[.publish f .remove]]

/-! ## notify_successors -/

/-- The terminal arc. -/
def complete (m : Mem) (canThrow : Bool) : Step :=
  goto m [.closeList canThrow (if canThrow && m.task.word.exception then m.task.handle else none)]

/-- `head.exchange(terminal)`. -/
def closeList (m : Mem) (canThrow : Bool) (terminal : Option ℕ) : Step :=
  match m.task.head with
  | .list [] => goto (m.setHead (.closed terminal)) []
  | .list l => goto (m.setHead (.closed terminal)) [.notifyLoad canThrow l]
  | _ => .fault .assertion

/-- `do_notify_arcs`: the load of `producer_failed`. -/
def notifyLoad (m : Mem) (canThrow : Bool) (l : List Entry) : Step :=
  goto m [.notifyArcs canThrow (canThrow && m.task.word.failureFlag) l]

/-- A round of `do_notify_arcs`. -/
def notifyArcs (m : Mem) (canThrow failed : Bool) : List Entry → Step
  | [] => goto m []
  | .signal _ :: r => if canThrow then goto m [.notifyArcs canThrow failed r] else .fault .payload
  | .arc :: r =>
    goto m [if failed then .consumerFailure else .consumerStart {}, .notifyArcs canThrow failed r]

/-! ## Consumers and waits -/

/-- `assign_prerequisite` of a consumer. -/
def consume (m : Mem) : Step :=
  match m.task.head with
  | .list l => goto (m.setHead (.list (.arc :: l))) []
  | _ => goto m [.lateCheck]

/-- `assign_prerequisite`, late consumer: `has_failure`. -/
def lateCheck (m : Mem) : Step :=
  goto m [if m.task.word.failed then .consumerFailure else .consumerStart {}]

/-- `publish_failure_from` of a consumer, and `mark_failure` on its own word. -/
def consumerFailure (m : Mem) : Step :=
  match m.task.publishedFailure 0 with
  | none => goto m [.consumerStart {}]
  | some f => goto m [.consumerStart (StartCount.mark {} f.bit)]

/-- The last prerequisite of a consumer is gone: its body runs unless its word has a failure
(`remove_prerequisite` and the check at the start of `execute`). -/
def consumerStart (m : Mem) (w : StartCount) : Step :=
  goto { m with ran := (!w.failed) :: m.ran } []

/-- `oox_var_base::wait`. -/
def wait (m : Mem) : Step := if m.task.head.isDone then goto m [.hasFailure] else .blocked

/-- What a wait reported. -/
def Mem.report (m : Mem) (o : Option Failure) : Mem := { m with reported := o :: m.reported }

/-- `failure_wait_status`: `has_failure`. -/
def hasFailure (m : Mem) : Step :=
  if m.task.word.failed then goto m [.failureBits] else goto (m.report none) []

/-- `failure_wait_status`: the failure bits. -/
def failureBits (m : Mem) : Step := goto (m.report (some (m.task.failureForPort 0))) []

def exec (m : Mem) (choice : Bool) : Instr → Step
  | .publish f next => publish m f next
  | .mark b next => mark m b next
  | .markCas b next => markCas m choice b next
  | .removePrerequisite => removePrerequisite m
  | .execute => execute m
  | .runBody => runBody m
  | .complete canThrow => complete m canThrow
  | .closeList canThrow terminal => closeList m canThrow terminal
  | .notifyLoad canThrow l => notifyLoad m canThrow l
  | .notifyArcs canThrow failed l => notifyArcs m canThrow failed l
  | .consume => consume m
  | .lateCheck => lateCheck m
  | .consumerFailure => consumerFailure m
  | .consumerStart w => consumerStart m w
  | .wait => wait m
  | .hasFailure => hasFailure m
  | .failureBits => failureBits m

/-! ## The program -/

/-- What another thread does. -/
inductive Use where
  | wait
  | consume
  | cancel
  deriving DecidableEq, Repr

def Use.instr : Use → Instr
  | .wait => .wait
  | .consume => .consume
  | .cancel => .mark .userCancelled .return

/-- The task waits for its prerequisites, each with what it will publish, and for `run` to
publish it. -/
def start (prerequisites : List (Option Failure)) (body : Body) (users : List (List Use)) :
    State where
  mem :=
    { task := { word := { count := prerequisites.length + 1 } }
      body := body
      waiting := prerequisites.length + 1 }
  threads := [.removePrerequisite] :: (prerequisites.map fun f => [.publish f .remove]) ++
    users.map fun l => l.map Use.instr

/-! ## Agreement of the observers -/

/-- Everybody who asked so far got one answer: either the task succeeded or it failed in one
way. -/
def Agreed (m : Mem) : Prop :=
  ((∀ b ∈ m.ran, b = true) ∧ ∀ o ∈ m.reported, o = none) ∨
    ∃ f, (∀ b ∈ m.ran, b = false) ∧ ∀ o ∈ m.reported, o = some f

/-! ## The condition -/

/-- The compare-exchange of `cancel` sets its bit only on a task that has an exception or a
cancellation already, or that has not closed its list and either has failed or will still look
for failures. -/
def admits (m : Mem) (choice : Bool) : Instr → Bool
  | .markCas _ .return => choice || m.task.word.exception || m.task.word.userCancelled ||
      (!m.task.head.isDone && (!m.running || m.task.word.failed))
  | _ => true

def admitted (c : State) (e : Turn) : Bool :=
  match c.threads[e.thread]? with
  | some (ins :: _) => admits c.mem e.choice ins
  | _ => true

end Oox.Cancellation
