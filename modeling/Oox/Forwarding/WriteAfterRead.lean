import Oox.Library.Protocol
import Oox.Model.Operations

/-!
# Writing a forwarded var

The body of a forwarding task registers readers of the current version of a local var and returns
the var (oox.h:1729-1782). A task that takes the forwarding task's var for writing waits for the slot of
the forwarding task only, while the readers hold off the next writer of the returned var's slot
(oox.h:1002-1043, 1045-1228). The two slots have nothing to do with each other.
-/

set_option autoImplicit false

namespace Oox.WriteAfterRead

open Library

/-- Where the current version of the local var comes from: it was constructed with a value, it is
the output of a task that completes at some time, or it is deferred and has no writer. -/
inductive Version where
  | value
  | task
  | deferred
  deriving DecidableEq, Repr

/-- The two tasks with an output slot. -/
inductive Producer where
  | inner
  | outer
  deriving DecidableEq, Repr

/-- The tasks that count their prerequisites. -/
inductive Consumer where
  | reader (i : ℕ)
  | outer
  | writer
  deriving DecidableEq, Repr

/-- An arc on the list of the returned var's task: `flow_back` of a reader, or the `flow_only`
arc of the forwarding task. -/
inductive Arc where
  | reader (i : ℕ)
  | forward
  deriving DecidableEq, Repr

structure Reader where
  /-- the prerequisite, and the protection while `run` sets the reader up. -/
  startCount : StartCount := { count := 2 }
  /-- the back arc to the returned var's slot is on the reader's own list. -/
  backArc : Bool := false
  completed : Bool := false
  deriving DecidableEq, Repr

structure Mem where
  /-- `head` of the returned var's task; `none` is `task_done_marker`. -/
  list : Option (List Arc)
  /-- the slots; a next writer `node 0` is the writer. -/
  inner : OutputNode
  outer : OutputNode := {}
  /-- `result_base::has_value` of the forwarding task. -/
  hasValue : Bool := false
  outerWord : StartCount := {}
  writerWord : StartCount
  readers : List Reader
  /-- the writer's body has started. -/
  started : Bool := false
  deriving DecidableEq, Repr

def Mem.slot (m : Mem) : Producer → OutputNode
  | .inner => m.inner
  | .outer => m.outer

def Mem.setSlot (m : Mem) (w : Producer) (o : OutputNode) : Mem :=
  match w with
  | .inner => { m with inner := o }
  | .outer => { m with outer := o }

def Mem.reader (m : Mem) (i : ℕ) : Reader := m.readers.getD i {}

def Mem.setReader (m : Mem) (i : ℕ) (r : Reader) : Mem := { m with readers := m.readers.set i r }

/-- `start_count` of a task. -/
def Mem.word (m : Mem) : Consumer → StartCount
  | .reader i => (m.reader i).startCount
  | .outer => m.outerWord
  | .writer => m.writerWord

def Mem.setWord (m : Mem) (t : Consumer) (w : StartCount) : Mem :=
  match t with
  | .reader i => m.setReader i { m.reader i with startCount := w }
  | .outer => { m with outerWord := w }
  | .writer => { m with writerWord := w }

inductive Instr where
  -- a task starts
  | removePrerequisite (t : Consumer) (n : ℕ)
  | execute
  | runReader (i : ℕ)
  | runWriter
  -- the body of the forwarding task
  | register (i : ℕ)
  | increment (i : ℕ)
  | ownBack (i : ℕ)
  | storeStart
  | offerArc
  -- notify_successors
  | complete (w : Producer)
  | closeList (w : Producer)
  | notifyArcs (l : List Arc) (count : ℤ)
  | outLoad (w : Producer) (count : ℤ)
  | outCas (w : Producer) (count : ℤ)
  | outSub (w : Producer) (count : ℤ)
  | removeBackArc (w : Producer)
  | notifyNextWriter (w : Producer)
  -- the writer is set up
  | setNextWriter
  /-- another input of the writer is produced. -/
  | produce (j : ℕ)
  deriving DecidableEq, Repr

inductive Fault where
  | assertion
  deriving DecidableEq, Repr

abbrev State := Config Mem Instr
abbrev Step := Outcome Mem Instr Fault

/-- Continue on the same thread. -/
abbrev goto (m : Mem) (push : List Instr) : Step := .next m push []

/-! ## The functions -/

/-- What `spawn` runs. -/
def Consumer.body : Consumer → Instr
  | .reader i => .runReader i
  | .outer => .execute
  | .writer => .runWriter

/-- `remove_prerequisite`, and `spawn` at zero; no task fails here. -/
def removePrerequisite (m : Mem) (t : Consumer) (n : ℕ) : Step :=
  match (m.word t).removePrerequisite n with
  | none => .fault .assertion
  | some (w, true) => .next (m.setWord t w) [] [[t.body]]
  | some (w, false) => goto (m.setWord t w) []

/-- `execute` of the forwarding task: the body with `k` readers, or the resumption. -/
def execute (m : Mem) : Step :=
  if m.hasValue then goto m [.complete .outer]
  else goto m ((List.range m.readers.length).map Instr.register ++ [Instr.storeStart, .offerArc])

/-- A reader's body and its completion, which handles its back arc. -/
def runReader (m : Mem) (i : ℕ) : Step :=
  goto (m.setReader i { m.reader i with completed := true })
    (if (m.reader i).backArc then [.removeBackArc .inner] else [])

def runWriter (m : Mem) : Step := goto { m with started := true } []

/-- `assign_prerequisite` of reader `i`: `add_arc`, and the publication of the reader. -/
def register (m : Mem) (i : ℕ) : Step :=
  match m.list with
  | some l =>
    goto { m with list := some (.reader i :: l) } [.removePrerequisite (.reader i) 1]
  | none => goto m [.increment i]

/-- `assign_prerequisite`, late reader: `++countdown`. -/
def increment (m : Mem) (i : ℕ) : Step :=
  match m.inner.increment with
  | some o => goto { m with inner := o } [.ownBack i]
  | none => .fault .assertion

/-- `assign_prerequisite`, late reader: the back arc, and the publication with no prerequisite. -/
def ownBack (m : Mem) (i : ℕ) : Step :=
  goto (m.setReader i { m.reader i with backArc := true }) [.removePrerequisite (.reader i) 2]

/-- `try_forward_result`: the result and `start_count.store(1)`. -/
def storeStart (m : Mem) : Step := goto { m with hasValue := true, outerWord := { count := 1 } } []

/-- `try_forward_result`: `add_arc`; without success `execute` goes on. -/
def offerArc (m : Mem) : Step :=
  match m.list with
  | some l => goto { m with list := some (.forward :: l) } []
  | none => goto m [.complete .outer]

/-- `notify_successors`: the store of the countdown. -/
def complete (m : Mem) (w : Producer) : Step :=
  goto (m.setSlot w (m.slot w).arm) [.closeList w]

/-- `notify_successors`: `head.exchange`. Nobody is on the list of the forwarding task. -/
def closeList (m : Mem) : Producer → Step
  | .outer => goto m [.outLoad .outer countdownBias]
  | .inner =>
    match m.list with
    | some l => goto { m with list := none } [.notifyArcs l countdownBias]
    | none => .fault .assertion

/-- A round of `do_notify_arcs`. -/
def notifyArcs (m : Mem) (count : ℤ) : List Arc → Step
  | [] => goto m [.outLoad .inner count]
  | .reader i :: l =>
    goto (m.setReader i { m.reader i with backArc := true })
      [.removePrerequisite (.reader i) 1, .notifyArcs l (count - 1)]
  | .forward :: l => goto m [.removePrerequisite .outer 1, .notifyArcs l count]

/-- `do_notify_out`: the load of `next_writer`. -/
def outLoad (m : Mem) (w : Producer) (count : ℤ) : Step :=
  goto m [if (m.slot w).nextWriter = .null then .outCas w count else .outSub w count]

/-- `do_notify_out`: the compare-exchange from null to the ready marker. -/
def outCas (m : Mem) (w : Producer) (count : ℤ) : Step :=
  match (m.slot w).offer with
  | some o => goto (m.setSlot w o) [.outSub w (count - 1)]
  | none => goto m [.outSub w count]

/-- `remove_back_arc(port, n)`. -/
def backArcs (m : Mem) (w : Producer) (n : ℤ) : Step :=
  match (m.slot w).removeBackArc n with
  | none => .fault .assertion
  | some o => goto (m.setSlot w o) (if o.countdown = 0 then [.notifyNextWriter w] else [])

/-- `notify_next_writer`. -/
def notifyNextWriter (m : Mem) (w : Producer) : Step :=
  match (m.slot w).nextWriter with
  | .node _ => goto m [.removePrerequisite .writer 1]
  | _ => .fault .assertion

/-- `set_next_writer` of the forwarding task's slot. -/
def setNextWriter (m : Mem) : Step :=
  match m.outer.setNextWriter (.node 0) with
  | none => .fault .assertion
  | some (o, ready) => goto { m with outer := o } (if ready then [.removeBackArc .outer] else [])

def exec (m : Mem) (_ : Bool) : Instr → Step
  | .removePrerequisite t n => removePrerequisite m t n
  | .execute => execute m
  | .runReader i => runReader m i
  | .runWriter => runWriter m
  | .register i => register m i
  | .increment i => increment m i
  | .ownBack i => ownBack m i
  | .storeStart => storeStart m
  | .offerArc => offerArc m
  | .complete w => complete m w
  | .closeList w => closeList m w
  | .notifyArcs l count => notifyArcs m count l
  | .outLoad w count => outLoad m w count
  | .outCas w count => outCas m w count
  | .outSub w count => backArcs m w count
  | .removeBackArc w => backArcs m w 1
  | .notifyNextWriter w => notifyNextWriter m w
  | .setNextWriter => setNextWriter m
  | .produce _ => goto m [.removePrerequisite .writer 1]

/-! ## The program -/

/-- `head` of the returned var's task when the body begins. -/
def Version.list : Version → Option (List Arc)
  | .value => none
  | _ => some []

/-- Its slot for the var. A var that was constructed has an owner and no producer. -/
def Version.slot : Version → OutputNode
  | .task => {}
  | _ => { nextWriter := .ready }

/-- The thread that completes its task. -/
def Version.thread : Version → List Instr
  | .task => [.complete .inner]
  | _ => []

/-- The forwarding task registers `k` readers and returns the var; a writer with `others` further
inputs to wait for is set up and published; everything else completes when it likes. -/
def start (version : Version) (k others : ℕ) : State where
  mem :=
    { list := version.list
      inner := version.slot
      writerWord := { count := 2 + others }
      readers := List.replicate k {} }
  threads :=
    [.setNextWriter, .removePrerequisite .writer 1] :: [.execute] :: version.thread ::
      (List.range others).map fun j => [.produce j]

/-- The writer's body starts after all readers have completed. -/
def Ordered (m : Mem) : Prop := m.started = true → ∀ r ∈ m.readers, r.completed = true

end Oox.WriteAfterRead
