import Oox.Library.Protocol
import Oox.Model.Operations

/-!
# The first writer of a deferred var

Readers of a deferred var register with its node while `run` sets up the first Read-Write task
and hands the readers over to it (oox.h:1002-1043, 1299-1324), and while that task is published,
runs and completes (oox.h:1045-1186, 1644-1670). What a reader does once it is dispatched is not
part of this.
-/

set_option autoImplicit false

namespace Oox.Deferred

open Library

/-- A task of the protocol: the writer or a reader. -/
inductive Who where
  | writer
  | reader (r : ℕ)
  deriving DecidableEq, Repr

/-- An arc that `assign_prerequisite` made. -/
structure ReaderArc where
  reader : ℕ
  port : ℕ
  deriving DecidableEq, Repr

/-- What is on the list of the writer: a reader's arc or an `exception_signal`. -/
inductive Entry where
  | arc (a : ReaderArc)
  | signal
  deriving DecidableEq, Repr

def Entry.arc? : Entry → Option ReaderArc
  | .arc a => some a
  | .signal => none

structure Mem where
  /-- the output slots of the writer, and the one it has for the var. -/
  slots : ℕ
  port : ℕ
  /-- how many readers there are. -/
  readers : ℕ
  /-- `head` of the deferred node, until it is exchanged for the redirect. -/
  deferred : Option (List ReaderArc) := some []
  /-- slot 0 of the deferred node; a next writer `node 0` is the writer. -/
  slot : OutputNode := { nextWriter := .ready }
  /-- `head` of the writer, until it is exchanged for a done or terminal marker. -/
  head : Option (List Entry) := some []
  /-- `start_count` of the tasks. -/
  word : Who → StartCount
  /-- the writer's slots, and the local counters of its `notify_successors`. The countdowns are
  `int`s in the code; a reader adds at most one unit to the bias, so that the two agree as long as
  there are fewer than `2 ^ 30` readers. -/
  out : ℕ → OutputNode := fun _ => {}
  count : ℕ → ℤ := fun _ => 0
  /-- the back arcs in the lists of the readers. -/
  back : List ReaderArc := []
  -- history
  /-- how often a reader became dependent on the writer. -/
  depends : ℕ → ℕ := fun _ => 0
  /-- how often the completion of the writer was passed on to a reader, and whether with a
  failure. -/
  settled : ℕ → ℕ := fun _ => 0
  received : ℕ → Bool := fun _ => false
  /-- how often the count of a task reached zero. -/
  dispatched : Who → ℕ := fun _ => 0
  /-- how often the writer finished `notify_successors`. -/
  finished : ℕ := 0

/-- `guard` is what `protect_count` keeps in the count of a task while `run` sets it up. -/
abbrev guard : ℕ := startCountMask

inductive Instr where
  -- oox_var_base::set_next_writer
  | redirect
  | moveArcs (r : List ReaderArc)
  | setNextWriter
  | removeBackArc
  -- remove_prerequisite
  | removePrerequisite (t : Who) (n : ℕ)
  /-- another prerequisite of a task completes, and publishes a failure to it or not. -/
  | other (t : Who) (failure : Option FailureBit)
  -- the writer: execute and notify_successors
  | execute
  | storeCountdown (i : ℕ) (canThrow : Bool)
  | closeList (canThrow : Bool)
  | notifyLoad (l : List Entry) (canThrow : Bool)
  | notifyArcs (l : List Entry) (canThrow failed : Bool)
  | notifyReader (r : ℕ)
  | notifyOut (i : ℕ)
  -- a reader with `k` other prerequisites: assign_prerequisite
  | assign (r k : ℕ)
  | assignWriter (r k : ℕ)
  | lateCheck (r k : ℕ)
  | increment (r k : ℕ)
  | addBackArc (a : ReaderArc) (k : ℕ)
  /-- `publish_failure_from` the writer, by the writer or by the late reader. -/
  | publishFailure (a : ReaderArc) (late : Option ℕ)
  deriving DecidableEq, Repr

inductive Fault where
  /-- a debug assertion fails. -/
  | assertion
  /-- a payload marker is used as the arc of a successor. -/
  | payload
  deriving DecidableEq, Repr

abbrev State := Config Mem Instr
abbrev Step := Outcome Mem Instr Fault

/-- Continue on the same thread. -/
abbrev goto (m : Mem) (push : List Instr) : Step := .next m push []

/-- One more in a counter of the history. -/
def bump {α : Type} [DecidableEq α] (f : α → ℕ) (x : α) : α → ℕ :=
  fun y => if y = x then f y + 1 else f y

def Mem.setWord (m : Mem) (t : Who) (w : StartCount) : Mem :=
  { m with word := fun u => if u = t then w else m.word u }

/-! ## set_next_writer -/

/-- The exchange of the deferred node's `head` for the redirect. -/
def redirect (m : Mem) : Step :=
  goto { m with deferred := none } [.moveArcs (m.deferred.getD [])]

/-- A round of the loop that moves the arcs to the writer and retargets them. -/
def moveArcs (m : Mem) : List ReaderArc → Step
  | [] => goto m []
  | a :: r =>
    match m.head with
    | some l =>
      goto { m with
        head := some (.arc { a with port := m.port } :: l)
        depends := bump m.depends a.reader } [.moveArcs r]
    | none => .fault .assertion

/-- `set_next_writer` of the deferred node's slot. -/
def setNextWriter (m : Mem) : Step :=
  match m.slot.setNextWriter (.node 0) with
  | none => .fault .assertion
  | some (o, ready) => goto { m with slot := o } (if ready then [.removeBackArc] else [])

/-- `remove_back_arc` of the deferred node's slot, with `notify_next_writer`. -/
def removeBackArc (m : Mem) : Step :=
  match m.slot.removeBackArc 1 with
  | none => .fault .assertion
  | some o =>
    let m' := { m with slot := o }
    if o.countdown = 0 then
      if o.nextWriter = .node 0 then goto m' [.removePrerequisite .writer 1]
      else .fault .assertion
    else goto m' []

/-! ## Starting a task -/

/-- The count of a task has reached zero: it is spawned, or skipped when it has failed. -/
def dispatch (m : Mem) (t : Who) (skips : Bool) : Step :=
  let m' := { m with dispatched := bump m.dispatched t }
  match t with
  | .reader _ => goto m' []
  | .writer => if skips then goto m' [.storeCountdown 0 true] else .next m' [] [[.execute]]

/-- `remove_prerequisite(n)`. -/
def removePrerequisite (m : Mem) (t : Who) (n : ℕ) : Step :=
  match (m.word t).removePrerequisite n with
  | none => .fault .assertion
  | some (w, true) => dispatch (m.setWord t w) t w.skips
  | some (w, false) => goto (m.setWord t w) []

/-- `publish_failure_from` another prerequisite: for an exception the payload goes on the
task's list first. -/
def other (m : Mem) (t : Who) (failure : Option FailureBit) : Step :=
  match failure with
  | none => goto m [.removePrerequisite t 1]
  | some b =>
    let m' := if t = .writer ∧ b = .exception then
      { m with head := m.head.map (.signal :: ·) } else m
    goto (m'.setWord t ((m.word t).mark b)) [.removePrerequisite t 1]

/-! ## The writer runs -/

/-- `execute`: `choice` says whether the body throws, and then `set_exception`. -/
def execute (m : Mem) (choice : Bool) : Step :=
  if (m.word .writer).failed then goto m [.storeCountdown 0 true]
  else if choice then
    goto ({ m with head := m.head.map (.signal :: ·) }.setWord .writer
      ((m.word .writer).mark .exception)) [.storeCountdown 0 true]
  else goto m [.storeCountdown 0 false]

/-- A round of the loop that stores the biased countdowns. -/
def storeCountdown (m : Mem) (i : ℕ) (canThrow : Bool) : Step :=
  if i < m.slots then
    goto { m with
      out := fun q => if q = i then (m.out i).arm else m.out q
      count := fun q => if q = i then countdownBias else m.count q }
      [.storeCountdown (i + 1) canThrow]
  else goto m [.closeList canThrow]

/-- `head.exchange(terminal)`. -/
def closeList (m : Mem) (canThrow : Bool) : Step :=
  match m.head with
  | some l => goto { m with head := none } [.notifyLoad l canThrow]
  | none => .fault .assertion

/-- `do_notify_arcs`: the load of `producer_failed`. -/
def notifyLoad (m : Mem) (l : List Entry) (canThrow : Bool) : Step :=
  goto m [.notifyArcs l canThrow (canThrow && (m.word .writer).failureFlag)]

/-- A round of `do_notify_arcs`. The arc becomes a back arc of the reader. -/
def notifyArcs (m : Mem) (canThrow failed : Bool) : List Entry → Step
  | [] => goto m [.notifyOut 0]
  | .signal :: r => if canThrow then goto m [.notifyArcs r canThrow failed] else .fault .payload
  | .arc a :: r =>
    goto { m with
      back := a :: m.back
      count := fun q => if q = a.port then m.count q - 1 else m.count q }
      [if failed then .publishFailure a none else .notifyReader a.reader,
        .notifyArcs r canThrow failed]

/-- `publish_failure_from` the writer and a port of it. -/
def publishFailure (m : Mem) (a : ReaderArc) (late : Option ℕ) : Step :=
  let next : Instr :=
    match late with
    | none => .notifyReader a.reader
    | some k => .increment a.reader k
  match (m.word .writer).published a.port with
  | none => goto m [next]
  | some b =>
    goto ({ m with received := fun r => if r = a.reader then true else m.received r }.setWord
      (.reader a.reader) ((m.word (.reader a.reader)).mark b)) [next]

/-- The `remove_prerequisite` of `do_notify_arcs`. -/
def notifyReader (m : Mem) (r : ℕ) : Step :=
  removePrerequisite { m with settled := bump m.settled r } (.reader r) 1

/-- `do_notify_out`: the var lives and has no next writer, so the slot gets the ready marker;
then `remove_back_arc`, and nobody to notify. -/
def notifyOut (m : Mem) (i : ℕ) : Step :=
  if i < m.slots then
    match (m.out i).offer.bind fun o => o.removeBackArc (m.count i - 1) with
    | none => .fault .assertion
    | some o =>
      if o.countdown = 0 then .fault .assertion
      else
        goto { m with out := fun q => if q = i then { o with handed := true } else m.out q }
          [.notifyOut (i + 1)]
  else goto { m with finished := m.finished + 1 } []

/-! ## assign_prerequisite -/

/-- `add_arc` on the deferred node. When it fails the redirect names the writer. -/
def assign (m : Mem) (r k : ℕ) : Step :=
  match m.deferred with
  | some l =>
    goto { m with deferred := some (⟨r, 0⟩ :: l) }
      [.removePrerequisite (.reader r) (guard - (k + 1))]
  | none => goto m [.assignWriter r k]

/-- `add_arc` on the writer. -/
def assignWriter (m : Mem) (r k : ℕ) : Step :=
  match m.head with
  | some l =>
    goto { m with head := some (.arc ⟨r, m.port⟩ :: l), depends := bump m.depends r }
      [.removePrerequisite (.reader r) (guard - (k + 1))]
  | none => goto m [.lateCheck r k]

/-- The writer is complete: `has_failure`. -/
def lateCheck (m : Mem) (r k : ℕ) : Step :=
  goto m [if (m.word .writer).failed then .publishFailure ⟨r, m.port⟩ (some k) else .increment r k]

/-- `++countdown` of the writer's slot and its assertion. -/
def increment (m : Mem) (r k : ℕ) : Step :=
  match (m.out m.port).increment with
  | some o =>
    goto { m with
      out := fun q => if q = m.port then o else m.out q
      depends := bump m.depends r
      settled := bump m.settled r }
      [.addBackArc ⟨r, m.port⟩ k]
  | none => .fault .assertion

/-- The reader adds its back arc to itself. -/
def addBackArc (m : Mem) (a : ReaderArc) (k : ℕ) : Step :=
  goto { m with back := a :: m.back } [.removePrerequisite (.reader a.reader) (guard - k)]

def exec (m : Mem) (choice : Bool) : Instr → Step
  | .redirect => redirect m
  | .moveArcs r => moveArcs m r
  | .setNextWriter => setNextWriter m
  | .removeBackArc => removeBackArc m
  | .removePrerequisite t n => removePrerequisite m t n
  | .other t failure => other m t failure
  | .execute => execute m choice
  | .storeCountdown i canThrow => storeCountdown m i canThrow
  | .closeList canThrow => closeList m canThrow
  | .notifyLoad l canThrow => notifyLoad m l canThrow
  | .notifyArcs l canThrow failed => notifyArcs m canThrow failed l
  | .notifyReader r => notifyReader m r
  | .notifyOut i => notifyOut m i
  | .assign r k => assign m r k
  | .assignWriter r k => assignWriter m r k
  | .lateCheck r k => lateCheck m r k
  | .increment r k => increment m r k
  | .addBackArc a k => addBackArc m a k
  | .publishFailure a late => publishFailure m a late

/-! ## The operations on words, written out -/

section Outcomes

variable (m : Mem)

/-- The deferred node's slot gets its next writer. -/
theorem setNextWriter_eq : setNextWriter m =
    (let m' := { m with slot := { m.slot with nextWriter := .node 0 } }
     match m.slot.nextWriter with
     | .null => goto m' []
     | .ready => goto m' [.removeBackArc]
     | _ => .fault .assertion) := by
  unfold setNextWriter OutputNode.setNextWriter
  simp only [reduceCtorEq, if_false]
  cases m.slot.nextWriter <;> rfl

/-- The removal that leaves none dispatches the task. -/
theorem removePrerequisite_eq (t : Who) (n : ℕ) : removePrerequisite m t n =
    (let w := m.word t
     let updated := { w with count := w.count - n }
     if w.count < n then .fault .assertion
     else if w.count = n then dispatch (m.setWord t updated) t updated.skips
     else goto (m.setWord t updated) []) := by
  unfold removePrerequisite StartCount.removePrerequisite
  by_cases hless : (m.word t).count < n
  · simp only [hless, if_true]
  · by_cases hlast : (m.word t).count = n
    · simp only [if_neg hless, beq_iff_eq.mpr hlast, if_pos hlast]
    · simp only [if_neg hless, beq_eq_false_iff_ne.mpr hlast, if_neg hlast]

/-- A slot without a next writer gets the ready marker and gives its counter back. -/
theorem notifyOut_eq {i : ℕ} (hnull : (m.out i).nextWriter = .null) : notifyOut m i =
    (if i < m.slots then
      let k := (m.out i).countdown - (m.count i - 1)
      if k ≤ 0 then .fault .assertion
      else
        goto { m with
          out := fun q =>
            if q = i then { m.out i with nextWriter := .ready, countdown := k, handed := true }
            else m.out q } [.notifyOut (i + 1)]
    else goto { m with finished := m.finished + 1 } []) := by
  unfold notifyOut OutputNode.offer
  simp only [hnull, if_true, Option.bind_some, OutputNode.removeBackArc]
  by_cases hneg : (m.out i).countdown - (m.count i - 1) < 0
  · simp only [if_pos hneg, if_pos hneg.le]
  · by_cases hzero : (m.out i).countdown - (m.count i - 1) = 0
    · simp only [if_neg hneg, if_pos hzero, if_pos hzero.le]
    · have hpos : ¬ (m.out i).countdown - (m.count i - 1) ≤ 0 := by omega
      simp only [if_neg hneg, if_neg hzero, if_neg hpos]

/-- The increment is accepted by a slot that is not finished. -/
theorem increment_eq (r k : ℕ) : increment m r k =
    (let x := (m.out m.port).countdown + 1
     if x > 1 then
       goto { m with
         out := fun q => if q = m.port then { m.out m.port with countdown := x } else m.out q
         depends := bump m.depends r
         settled := bump m.settled r } [.addBackArc ⟨r, m.port⟩ k]
     else .fault .assertion) := by
  unfold increment OutputNode.increment
  by_cases hpos : (m.out m.port).countdown + 1 > 1 <;> simp only [hpos, if_true, if_false]

end Outcomes

/-! ## The program -/

/-- The other prerequisites of a task and the failures they publish to it; together with the
deferred var they fit the count. -/
structure Args where
  others : List (Option FailureBit)
  few : others.length + 1 < guard

/-- The other prerequisites of a task complete, each on a thread of its own. -/
def Args.threads (x : Args) (t : Who) : List (List Instr) := x.others.map fun f => [.other t f]

/-- Each reader is set up on a thread of its own. -/
def readerThreads (r : ℕ) : List Args → List (List Instr)
  | [] => []
  | x :: rest => [.assign r x.others.length] :: x.threads (.reader r) ++ readerThreads (r + 1) rest

/-- A thread that runs the first writer, whose argument stands after `before` and before `after`
other writing arguments, and any number of readers. -/
def start (writer : Args) (before after : ℕ) (readers : List Args) : State :=
  { mem :=
      { slots := before + after + 2
        port := before + 1
        readers := readers.length
        word := fun t => match t with
          | .writer => { count := guard }
          | .reader r => if r < readers.length then { count := guard } else {} }
    threads :=
      [.redirect, .setNextWriter, .removePrerequisite .writer (guard - (writer.others.length + 1))] ::
        writer.threads .writer ++ readerThreads 0 readers }

end Oox.Deferred
