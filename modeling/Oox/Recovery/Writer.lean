import Oox.Handover.Slot
import Oox.Library.Embedding

/-!
# Overwriting a failed version

The current version of a var has failed: its producer threw, was cancelled or was skipped, or a
forwarding task around it failed. A Read-Write task takes the var. Its prerequisite is the handover
of the failed version's slot, as in `Oox.Handover`, which does not look at failures; then the task
consumes the storage (oox.h:1591-1608), runs and completes. After it was set up, waits
(oox.h:1333-1345, 1880-1965) and readers (oox.h:1002-1043) use the var.
-/

set_option autoImplicit false

namespace Oox.Recovery

open Library

/-- The var whose version failed, and what is stored for it. -/
structure Version (V : Type) where
  /-- how many forwarding tasks there are around the producer. -/
  depth : ℕ
  /-- the outermost of them has got its body's var. -/
  returned : Bool
  /-- one of the tasks below the outermost failed. -/
  innerFailed : Bool
  /-- the last value stored before the producer ran. -/
  stored : Option V
  /-- the value the producer stored, if any. -/
  stores : Option V

namespace Version

variable {V : Type}

/-- The last stored value. -/
def last (v : Version V) : Option V := v.stores.or v.stored

/-- What a Read-Write task gets. -/
def input [Inhabited V] (v : Version V) : V := v.last.getD default

end Version

inductive Fault where
  /-- an assertion about the slot fails. -/
  | slot (cause : Handover.Fault)
  | assertion
  /-- the storage pointer of a var that was never constructed is read. -/
  | nullStorage
  /-- a var object is used as a `result_state`. -/
  | wrongObject
  | emptyRead
  deriving DecidableEq, Repr

/-- What `consume` finds in place of the innermost `result_state`: it follows the pointer that
`setup` stored once. -/
def Version.misdirected {V : Type} (v : Version V) : Option Fault :=
  if v.depth = 0 then none
  else if v.returned = false then some .nullStorage
  else if v.depth = 1 then none
  else some .wrongObject

/-- What a wait reports, or a reader gets. -/
inductive Observation (V : Type) where
  | failed
  | ready
  | value (x : V)
  deriving DecidableEq, Repr

structure Mem (V : Type) where
  /-- the slot of the failed version. -/
  slot : Handover.Mem
  /-- the innermost `result_state`. -/
  cell : Option V
  -- the task that overwrites the version
  word : StartCount
  /-- the readers' arcs on its list, and whether the list was closed. -/
  arcs : ℕ := 0
  closed : Bool := false
  -- history
  runs : ℕ := 0
  given : Option V := none
  /-- how many later uses of the var there are, and what they observed. -/
  total : ℕ
  observed : List (Observation V) := []

/-- The task has failed. -/
def Mem.failed {V : Type} (m : Mem V) : Bool := m.word.failed

/-- A use of the var after the task was set up. -/
inductive Use where
  /-- `wait_for_all`. -/
  | wait
  /-- `wait_and_get`. -/
  | get
  /-- `run` of a reader. -/
  | read
  deriving DecidableEq, Repr

inductive Instr where
  /-- the slot of the failed version. -/
  | slot (ins : Handover.Instr)
  /-- what the producer stores before it completes. -/
  | produce
  -- the task
  | removePrerequisite
  | execute
  | invoke
  | finish
  | closeList
  | notifyArcs (n : ℕ) (failed : Bool)
  -- later uses
  | later (uses : List (List Use))
  | register
  | hasFailure
  | consume (failed : Bool)
  | wait (get : Bool)
  | status (get : Bool)
  | follow
  deriving DecidableEq, Repr

def Use.instr : Use → Instr
  | .wait => .wait false
  | .get => .wait true
  | .read => .register

section Exec

variable {V : Type} [Inhabited V]

abbrev State (V : Type) := Config (Mem V) Instr
abbrev Step (V : Type) := Outcome (Mem V) Instr Fault

/-- Continue on the same thread. -/
abbrev goto (m : Mem V) (push : List Instr) : Step V := .next m push []

/-- An operation on the slot; `notify_next_writer` calls `remove_prerequisite` of the task. -/
def slotStep (m : Mem V) (choice : Bool) (ins : Handover.Instr) : Step V :=
  match Handover.exec m.slot choice ins with
  | .next s push spawned =>
    .next { m with slot := s }
      (push.map .slot ++ if ins = .notifyNextWriter then [.removePrerequisite] else [])
      (spawned.map fun l => l.map .slot)
  | .blocked => .blocked
  | .fault cause => .fault (.slot cause)

/-- The producer stores what it stores, and its task, or the outermost forwarding task, completes. -/
def produce (v : Version V) (m : Mem V) : Step V :=
  goto { m with cell := v.stores.or m.cell } [.slot .storeCountdown]

/-- `remove_prerequisite`. -/
def removePrerequisite (m : Mem V) : Step V :=
  match m.word.removePrerequisite 1 with
  | none => .fault .assertion
  | some (w, true) =>
    let m' := { m with word := w }
    if w.skips then goto m' [.closeList] else .next m' [] [[.execute]]
  | some (w, false) => goto { m with word := w } []

/-- `execute`: the check for a failure. -/
def execute (m : Mem V) : Step V := goto m [if m.failed then .closeList else .invoke]

/-- `consume` in Read-Write mode makes a default value if there is none; then the body runs. -/
def invoke (v : Version V) (m : Mem V) : Step V :=
  match v.misdirected with
  | some cause => .fault cause
  | none =>
    let x := m.cell.getD default
    goto { m with cell := some x, runs := m.runs + 1, given := some x } [.finish]

/-- The body writes its argument and returns or throws; then `set_exception` marks the task. -/
def finish (body : V → V × Bool) (m : Mem V) : Step V :=
  match m.given with
  | none => .fault .assertion
  | some x =>
    goto { m with
      cell := some (body x).1
      word := if (body x).2 then m.word.mark .exception else m.word } [.closeList]

/-- `head.exchange(terminal)`. -/
def closeList (m : Mem V) : Step V :=
  if m.closed then .fault .assertion
  else goto { m with arcs := 0, closed := true } [.notifyArcs m.arcs m.failed]

/-- A round of `do_notify_arcs`. -/
def notifyArcs (m : Mem V) (failed : Bool) : ℕ → Step V
  | 0 => goto m []
  | n + 1 => .next m [.notifyArcs n failed] [[.consume failed]]

/-- The var is used by other threads. -/
def later (m : Mem V) (uses : List (List Use)) : Step V :=
  .next m [] (uses.map fun l => l.map Use.instr)

/-- `assign_prerequisite` of a reader. -/
def register (m : Mem V) : Step V :=
  if m.closed then goto m [.hasFailure] else goto { m with arcs := m.arcs + 1 } []

/-- `assign_prerequisite`, late reader. -/
def hasFailure (m : Mem V) : Step V := goto m [.consume m.failed]

def Mem.observe (m : Mem V) (o : Observation V) : Mem V := { m with observed := o :: m.observed }

/-- A reader's last prerequisite is gone: it is skipped, or consumes its argument. -/
def consume (v : Version V) (m : Mem V) (failed : Bool) : Step V :=
  if failed then goto (m.observe .failed) []
  else
    match v.misdirected, m.cell with
    | some cause, _ => .fault cause
    | none, none => .fault .emptyRead
    | none, some x => goto (m.observe (.value x)) []

/-- `oox_var_base::wait`. -/
def wait (m : Mem V) (get : Bool) : Step V := if m.closed then goto m [.status get] else .blocked

/-- `failure_wait_status` of the var. -/
def status (m : Mem V) (get : Bool) : Step V :=
  if m.failed then goto (m.observe .failed) []
  else if get then goto m [.follow]
  else goto (m.observe .ready) []

/-- `wait_and_get` follows the forwarded vars and checks their tasks. -/
def follow (v : Version V) (m : Mem V) : Step V :=
  if 0 < v.depth ∧ v.returned = false then .fault .nullStorage
  else if 0 < v.depth ∧ v.innerFailed then goto (m.observe .failed) []
  else
    match m.cell with
    | none => .fault .emptyRead
    | some x => goto (m.observe (.value x)) []

def exec (v : Version V) (body : V → V × Bool) (m : Mem V) (choice : Bool) : Instr → Step V
  | .slot ins => slotStep m choice ins
  | .produce => produce v m
  | .removePrerequisite => removePrerequisite m
  | .execute => execute m
  | .invoke => invoke v m
  | .finish => finish body m
  | .closeList => closeList m
  | .notifyArcs n failed => notifyArcs m failed n
  | .later uses => later m uses
  | .register => register m
  | .hasFailure => hasFailure m
  | .consume failed => consume v m failed
  | .wait get => wait m get
  | .status get => status m get
  | .follow => follow v m

/-- Threads that register readers of the failed version, the producer, the thread that sets up the
task and lets the var be used, and the producers of the task's other inputs. -/
def start (v : Version V) (readers : List ℕ) (others : ℕ) (uses : List (List Use)) : State V where
  mem :=
    { slot := { total := readers.sum }
      cell := v.stored
      word := { count := others + 2 }
      total := (uses.map List.length).sum }
  threads :=
    [.produce] :: [.slot (.install (.writer 0)), .removePrerequisite, .later uses] ::
      (readers.map fun k => List.replicate k (.slot .register)) ++
        List.replicate others [.removePrerequisite]

end Exec

/-- The var is not forwarded, or forwarded once, by a task whose body returned its var, and the
version of that var did not fail. -/
def Version.Recoverable {V : Type} (v : Version V) : Prop :=
  v.depth = 0 ∨ v.depth = 1 ∧ v.returned = true ∧ v.innerFailed = false

/-- The storage of a recoverable var is where `consume` looks for it. -/
theorem Version.Recoverable.misdirected {V : Type} {v : Version V} (hv : v.Recoverable) : v.misdirected = none := by
  unfold Version.misdirected
  rcases hv with hzero | ⟨hone, hreturned, -⟩
  · rw [if_pos hzero]
  · simp [hone, hreturned]

/-- `wait_and_get` finds the forwarding task's result, and no failure below it. -/
theorem Version.Recoverable.followed {V : Type} {v : Version V} (hv : v.Recoverable) :
    ¬ (0 < v.depth ∧ v.returned = false) ∧ ¬ (0 < v.depth ∧ v.innerFailed = true) := by
  rcases hv with hzero | ⟨-, hreturned, hfine⟩
  · constructor
    · rintro ⟨hpos, -⟩
      omega
    · rintro ⟨hpos, -⟩
      omega
  · constructor
    · rintro ⟨-, hno⟩
      rw [hno] at hreturned
      cases hreturned
    · rintro ⟨-, hyes⟩
      rw [hyes] at hfine
      cases hfine

end Oox.Recovery
