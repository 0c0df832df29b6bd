import Oox.Library.Protocol
import Oox.Model.Operations

/-!
# Handover of an output slot

One output slot of a task (oox.h:620-630): its consumers register with the task, before or after
it completes, and take their units of `countdown` back when they finish; the task completes and
settles the slot (oox.h:1045-1165); and after the last consumer has registered one thread
installs the next writer or the owner of the storage (oox.h:1188-1228). What the task does for
its other slots leaves this one alone.
-/

set_option autoImplicit false

namespace Oox.Handover

open Library

/-- What `set_next_writer` is called with: the next writer, or an owner marker. -/
inductive Successor where
  | writer (n : ℕ)
  | owner (n : ℕ)
  deriving DecidableEq, Repr

def Successor.word : Successor → NextWriter
  | .writer n => .node n
  | .owner n => .owner n

structure Mem where
  out : OutputNode := {}
  /-- the consumers' arcs in the task's list. -/
  arcs : ℕ := 0
  /-- the list was exchanged for a terminal marker. -/
  closed : Bool := false
  -- history
  /-- how many consumers there will be. -/
  total : ℕ := 0
  /-- how many registered before and after the list was closed, and how many finished. -/
  early : ℕ := 0
  late : ℕ := 0
  finished : ℕ := 0
  deriving DecidableEq, Repr

inductive Instr where
  -- notify_successors; `count` is the local counter of the slot
  | storeCountdown
  | closeList (count : ℤ)
  | notifyArcs (r : ℕ) (count : ℤ)
  | outLoad (count : ℤ)
  | outCas (count : ℤ)
  | outSub (count : ℤ)
  -- a consumer: assign_prerequisite, and remove_back_arc when it is done
  | register
  | increment
  | finish
  -- set_next_writer
  | install (d : Successor)
  | removeBackArc
  -- notify_next_writer
  | notifyNextWriter
  deriving DecidableEq, Repr

inductive Fault where
  /-- a debug assertion fails. -/
  | assertion
  /-- `notify_next_writer` is called with null or the ready marker. -/
  | nullPointer
  deriving DecidableEq, Repr

abbrev State := Config Mem Instr
abbrev Step := Outcome Mem Instr Fault

/-- Continue on the same thread. -/
abbrev goto (m : Mem) (push : List Instr) : Step := .next m push []

/-! ## The task completes -/

/-- The store of the biased countdown. -/
def storeCountdown (m : Mem) : Step :=
  goto { m with out := m.out.arm } [.closeList countdownBias]

/-- `head.exchange(terminal)`. -/
def closeList (m : Mem) (count : ℤ) : Step :=
  goto { m with arcs := 0, closed := true } [.notifyArcs m.arcs count]

/-- A round of `do_notify_arcs`: the arc goes on as a back arc of the consumer, which may then
run and finish. -/
def notifyArcs (m : Mem) (r : ℕ) (count : ℤ) : Step :=
  match r with
  | 0 => goto m [.outLoad count]
  | r + 1 =>
    if m.out.nextWriter = .noOwner then goto m [.notifyArcs r count]
    else .next m [.notifyArcs r (count - 1)] [[.finish]]

/-- `do_notify_out`, the first load of `next_writer`. -/
def outLoad (m : Mem) (count : ℤ) : Step :=
  goto m [if m.out.nextWriter = .null then .outCas count else .outSub count]

/-- `do_notify_out`, the compare-exchange from null to the ready marker. -/
def outCas (m : Mem) (count : ℤ) : Step :=
  match m.out.offer with
  | some o => goto { m with out := o } [.outSub (count - 1)]
  | none => goto m [.outSub count]

/-- `remove_back_arc(port, n)`; the caller has changed its own bookkeeping. -/
def removeBackArc (m : Mem) (n : ℤ) : Step :=
  match m.out.removeBackArc n with
  | none => .fault .assertion
  | some o => goto { m with out := o } (if o.countdown = 0 then [.notifyNextWriter] else [])

/-- `notify_next_writer`. -/
def notifyNextWriter (m : Mem) : Step :=
  if m.out.nextWriter = .null ∨ m.out.nextWriter = .ready then .fault .nullPointer
  else goto { m with out := { m.out with notified := m.out.notified + 1 } } []

/-! ## Consumers and the next writer -/

/-- `assign_prerequisite`: `add_arc` succeeds while the list is open. -/
def register (m : Mem) : Step :=
  if m.closed then goto m [.increment]
  else goto { m with arcs := m.arcs + 1, early := m.early + 1 } []

/-- `assign_prerequisite`, late consumer: `++countdown` and its assertion. -/
def increment (m : Mem) : Step :=
  match m.out.increment with
  | some o => .next { m with out := o, late := m.late + 1 } [] [[.finish]]
  | none => .fault .assertion

/-- `task_node::set_next_writer`, called when all consumers have registered. -/
def install (m : Mem) (d : Successor) : Step :=
  if m.early + m.late < m.total then .blocked
  else
    match m.out.setNextWriter d.word with
    | none => .fault .assertion
    | some (o, ready) => goto { m with out := o } (if ready then [.removeBackArc] else [])

def exec (m : Mem) (_choice : Bool) : Instr → Step
  | .storeCountdown => storeCountdown m
  | .closeList count => closeList m count
  | .notifyArcs r count => notifyArcs m r count
  | .outLoad count => outLoad m count
  | .outCas count => outCas m count
  | .outSub count => removeBackArc { m with out := { m.out with handed := true } } count
  | .register => register m
  | .increment => increment m
  | .finish => removeBackArc { m with finished := m.finished + 1 } 1
  | .install d => install m d
  | .removeBackArc => removeBackArc m 1
  | .notifyNextWriter => notifyNextWriter m

/-- A task about to complete, a thread that will install `d`, and threads that each register a
number of consumers of the slot. -/
def start (d : Successor) (consumers : List ℕ) : State :=
  { mem := { total := consumers.sum }
    threads := [.storeCountdown] :: [.install d] ::
      consumers.map fun k => List.replicate k .register }

/-! ## The operations on the slot, written out -/

theorem outCas_eq (m : Mem) (count : ℤ) : outCas m count =
    (if m.out.nextWriter = .null then
      goto { m with out := { m.out with nextWriter := .ready } } [.outSub (count - 1)]
    else goto m [.outSub count]) := by
  unfold outCas OutputNode.offer
  by_cases hnull : m.out.nextWriter = .null <;> simp only [hnull, if_true, if_false]

theorem removeBackArc_eq (m : Mem) (n : ℤ) : removeBackArc m n =
    (let k := m.out.countdown - n
     if k < 0 then .fault .assertion
     else goto { m with out := { m.out with countdown := k } }
       (if k = 0 then [.notifyNextWriter] else [])) := by
  unfold removeBackArc OutputNode.removeBackArc
  by_cases hneg : m.out.countdown - n < 0 <;> simp only [hneg, if_true, if_false]

theorem increment_eq (m : Mem) : increment m =
    (let k := m.out.countdown + 1
     if k > 1 then
       .next { m with out := { m.out with countdown := k }, late := m.late + 1 } [] [[.finish]]
     else .fault .assertion) := by
  unfold increment OutputNode.increment
  by_cases hpos : m.out.countdown + 1 > 1 <;> simp only [hpos, if_true, if_false]

/-- The marker of the end of the chain is not installed here. -/
theorem install_eq (m : Mem) (d : Successor) : install m d =
    (if m.early + m.late < m.total then .blocked
    else
      let m' := { m with out := { m.out with nextWriter := d.word } }
      match m.out.nextWriter with
      | .null => goto m' []
      | .ready => goto m' [.removeBackArc]
      | _ => .fault .assertion) := by
  have hready : d.word ≠ .ready := by cases d <;> exact NextWriter.noConfusion
  have hend : d.word ≠ .noOwner := by cases d <;> exact NextWriter.noConfusion
  unfold install OutputNode.setNextWriter
  simp only [if_neg hready, if_neg hend]
  cases m.out.nextWriter <;> rfl

/-! ## The protocol -/

inductive Right where
  /-- a unit of the countdown. -/
  | unit
  /-- to complete the task. -/
  | complete
  /-- to install the next writer. -/
  | install
  /-- a consumer that has still to register. -/
  | registration
  /-- a registered consumer that has not finished. -/
  | consumer
  /-- a call of `notify_next_writer`. -/
  | notify
  deriving DecidableEq, Repr

namespace Instr

/-- The local counter of the task while it completes; one unit of it is kept until the end. -/
def counter : Instr → Option ℤ
  | .closeList count => some count
  | .notifyArcs _ count => some count
  | .outLoad count => some count
  | .outCas count => some count
  | .outSub count => some count
  | _ => none

def units : Instr → ℕ
  | .finish => 1
  | .removeBackArc => 1
  | ins => match ins.counter with
    | some count => (count - 1).toNat
    | none => 0

def completes : Instr → Bool
  | .storeCountdown => true
  | ins => ins.counter.isSome

@[simp] def installs : Instr → Bool
  | .install _ => true
  | _ => false

end Instr

def tokens (ins : Instr) : Right → ℤ
  | .unit => ins.units
  | .complete => if ins.completes then 1 else 0
  | .install => if ins.installs then 1 else 0
  | .registration => match ins with
    | .register => 1
    | .increment => 1
    | _ => 0
  | .consumer => match ins with
    | .notifyArcs r _ => r
    | .finish => 1
    | _ => 0
  | .notify => if ins = .notifyNextWriter then 1 else 0

/-- The next writer or owner is installed. -/
def Mem.installed (m : Mem) : Bool :=
  m.out.nextWriter ≠ .null ∧ m.out.nextWriter ≠ .ready

def balance (m : Mem) : Right → ℤ
  | .unit =>
    if m.out.armed then
      (if m.out.nextWriter = .ready then 1 else 0) + (if m.out.handed then 0 else 1) -
        m.out.countdown
    else 0
  | .complete => if m.out.handed then 0 else -1
  | .install => if m.installed then 0 else -1
  | .registration => m.early + m.late - m.total
  | .consumer => m.arcs + m.finished - m.early - m.late
  | .notify => m.out.notified - if m.out.armed = true ∧ m.out.countdown = 0 then 1 else 0

/-- What an instruction relies on. -/
def Relies (m : Mem) : Instr → Prop
  | .storeCountdown => m.out.armed = false ∧ m.closed = false
  | .closeList count => m.out.armed = true ∧ m.closed = false ∧ count = countdownBias
  | .notifyArcs r count => m.closed = true ∧ count + m.early = countdownBias + r
  | .outLoad count => m.closed = true ∧ count + m.early = countdownBias
  | .outCas count => m.closed = true ∧ count + m.early = countdownBias
  | .outSub count => m.closed = true ∧ m.out.nextWriter ≠ .null ∧
    countdownBias ≤ count + m.early + 1 ∧ count + m.early ≤ countdownBias
  | .increment => m.closed = true
  | .finish => m.closed = true
  | .removeBackArc => m.closed = true
  | .notifyNextWriter => m.out.armed = true ∧ m.out.countdown = 0
  | _ => True

structure MemOk (m : Mem) : Prop where
  unarmed : m.out.armed = false → m.out.countdown = 1
  closed : m.closed = true → m.out.armed = true
  early : m.closed = false → m.arcs = m.early
  taken : m.closed = true → m.arcs = 0
  handed : m.out.handed = true → m.closed = true ∧ m.out.nextWriter ≠ .null
  ready : m.out.nextWriter = .ready → m.closed = true
  installed : m.installed = true → m.early + m.late = m.total
  owned : m.out.nextWriter ≠ .noOwner
  nonneg : 0 ≤ m.out.countdown
  le : m.out.countdown ≤ countdownBias + m.late

def protocol : Protocol Mem Instr Right where
  balance := balance
  tokens := tokens
  memory := MemOk
  relies m ins rest := Relies m ins ∧ (ins.installs = true → rest = [])
  tokens_nonneg ins k := by
    cases k with
    | unit => exact Int.natCast_nonneg _
    | registration => cases ins <;> simp [tokens]
    | consumer => cases ins <;> simp [tokens]
    | _ =>
      simp only [tokens]
      split_ifs <;> omega

/-- Few enough consumers registered early for the task to keep a unit of the countdown. -/
def Few (m : Mem) : Prop := m.early < 2 ^ 30 - 2

/-! ## Steps -/

section Steps

variable {m m' : Mem} {ins : Instr} {rest push : List Instr} {spawned : List (List Instr)}

/-- What a step must leave alone for the sake of the other threads. -/
structure Frame (m m' : Mem) (ins : Instr) : Prop where
  armed : m.out.armed = true → m'.out.armed = true
  closed : m.closed = true → m'.closed = true
  early : m.closed = true → m'.early = m.early
  next : m.out.nextWriter ≠ .null → m'.out.nextWriter ≠ .null
  complete : ins.completes = false → m'.out.armed = m.out.armed ∧ m'.closed = m.closed
  zero : m.out.armed = true → m.out.countdown = 0 → m'.out.countdown = 0

theorem not_completes_of_together {other : Instr} (hother : other.completes = true)
    (hwith : Together balance tokens m ins other) : ins.completes = false := by
  have hk := hwith .complete
  by_contra hins
  rw [Bool.not_eq_false] at hins
  simp only [tokens, hins, hother, if_true, balance] at hk
  split_ifs at hk <;> omega

theorem Frame.stable {other : Instr} (hframe : Frame m m' ins) (h : Relies m other)
    (hwith : Together balance tokens m ins other) : Relies m' other := by
  have hcomplete : other.completes = true → m'.out.armed = m.out.armed ∧ m'.closed = m.closed :=
    fun hother => hframe.complete (not_completes_of_together hother hwith)
  cases other with
  | storeCountdown => exact ⟨(hcomplete rfl).1.trans h.1, (hcomplete rfl).2.trans h.2⟩
  | closeList count => exact ⟨hframe.armed h.1, (hcomplete rfl).2.trans h.2.1, h.2.2⟩
  | notifyArcs r count => exact ⟨hframe.closed h.1, by rw [hframe.early h.1]; exact h.2⟩
  | outLoad count => exact ⟨hframe.closed h.1, by rw [hframe.early h.1]; exact h.2⟩
  | outCas count => exact ⟨hframe.closed h.1, by rw [hframe.early h.1]; exact h.2⟩
  | outSub count =>
    exact ⟨hframe.closed h.1, hframe.next h.2.1, by rw [hframe.early h.1]; exact h.2.2⟩
  | increment => exact hframe.closed h
  | finish => exact hframe.closed h
  | removeBackArc => exact hframe.closed h
  | notifyNextWriter => exact ⟨hframe.armed h.1, hframe.zero h.1 h.2⟩
  | _ => trivial

/-- Instructions put on a stack in order, none of which installs the next writer. -/
theorem stackOk_append {l : List Instr} (hpush : ∀ x ∈ push, Relies m x ∧ x.installs = false)
    (hrest : StackOk protocol.relies m l) : StackOk protocol.relies m (push ++ l) := by
  induction push with
  | nil => exact hrest
  | cons x push ih =>
    obtain ⟨hx, hinstalls⟩ := hpush x List.mem_cons_self
    refine ⟨⟨hx, fun hyes => ?_⟩, ih fun y hy => hpush y (List.mem_cons_of_mem _ hy)⟩
    rw [hinstalls] at hyes
    cases hyes

/-- A step keeps the protocol when it keeps the memory in order, leaves alone what others rely
on, and pushes in order. -/
theorem Frame.keeps (hframe : Frame m m' ins) (hok : MemOk m')
    (hcons : Conserves balance tokens m ins m' push spawned)
    (hpush : ∀ x ∈ push, Relies m' x ∧ x.installs = false)
    (hspawned : ∀ l ∈ spawned, ∀ x ∈ l, Relies m' x ∧ x.installs = false) :
    protocol.Keeps m ins rest m' push spawned where
  memory := hok
  conserves := hcons
  stable other _ h hwith := ⟨hframe.stable h.1 (hwith other List.mem_cons_self), h.2⟩
  push := stackOk_append hpush
  spawned l hl := by
    have h := stackOk_append (l := []) (hspawned l hl) trivial
    rwa [List.append_nil] at h

theorem frame_refl (m : Mem) (ins : Instr) : Frame m m ins where
  armed := id
  closed := id
  early _ := rfl
  next := id
  complete _ := ⟨rfl, rfl⟩
  zero _ := id

/-- A step that only goes on to an instruction with the same rights. -/
theorem goto_keeps {next : Instr} (h : protocol.Enters m ins rest)
    (hsame : ∀ k, tokens next k = tokens ins k) (hrelies : Relies m next)
    (hinstalls : next.installs = false) : protocol.Keeps m ins rest m [next] [] :=
  (frame_refl m ins).keeps h.memory (fun k => by simp [hsame k])
    (fun x hx => by rw [List.mem_singleton.mp hx]; exact ⟨hrelies, hinstalls⟩)
    fun l hl => by cases hl

/-- The units an instruction takes are in the countdown, besides the one of the ready marker and
the one the task keeps. -/
theorem units_le (h : protocol.Enters m ins rest) (harmed : m.out.armed = true) :
    (ins.units : ℤ) + (if m.out.nextWriter = .ready then 1 else 0) +
      (if m.out.handed then 0 else 1) ≤ m.out.countdown := by
  have hcov : tokens ins .unit ≤ -balance m .unit := h.covered .unit
  simp only [tokens, balance, harmed, if_true] at hcov
  omega

/-- A completing instruction finds the countdown not yet settled. -/
theorem unhanded (h : protocol.Enters m ins rest) (hcompletes : ins.completes = true) :
    m.out.handed = false := by
  have hcov : tokens ins .complete ≤ -balance m .complete := h.covered .complete
  by_contra hno
  rw [Bool.not_eq_false] at hno
  simp [tokens, balance, hcompletes, hno] at hcov

/-- A countdown of zero: the task settled it and the next writer is installed. -/
theorem MemOk.settled (h : MemOk m) (hle : (if m.out.nextWriter = .ready then (1 : ℤ) else 0) +
    (if m.out.handed then 0 else 1) ≤ m.out.countdown) (hzero : m.out.countdown = 0) :
    m.closed = true ∧ m.out.handed = true ∧ m.installed = true := by
  have hhanded : m.out.handed = true := by
    by_contra hno
    rw [if_neg hno] at hle
    split_ifs at hle
    all_goals omega
  have hready : m.out.nextWriter ≠ .ready := by
    intro hready
    simp only [hready, if_true] at hle
    split_ifs at hle
    all_goals omega
  refine ⟨(h.handed hhanded).1, hhanded, ?_⟩
  exact decide_eq_true ⟨(h.handed hhanded).2, hready⟩

/-! ### The task completes -/

theorem storeCountdown_keeps (h : protocol.Enters m .storeCountdown rest)
    (hstep : storeCountdown m = .next m' push spawned) :
    protocol.Keeps m .storeCountdown rest m' push spawned := by
  obtain ⟨hunarmed, hopen⟩ := h.relies.1
  have hhanded := unhanded h rfl
  have hready : m.out.nextWriter ≠ .ready := by
    intro hready
    rw [h.memory.ready hready] at hopen
    cases hopen
  unfold storeCountdown OutputNode.arm at hstep
  cases hstep
  refine Frame.keeps ?_ ?_ (fun k => ?_) (fun x hx => ?_) fun l hl => by cases hl
  · exact
      { armed := fun _ => rfl
        closed := id
        early := fun _ => rfl
        next := id
        complete := fun hno => by cases hno
        zero := fun harmed => by rw [hunarmed] at harmed; cases harmed }
  · exact
      { unarmed := fun hno => by cases hno
        closed := fun _ => rfl
        early := h.memory.early
        taken := h.memory.taken
        handed := h.memory.handed
        ready := h.memory.ready
        installed := h.memory.installed
        owned := h.memory.owned
        nonneg := by simp only; decide
        le := by simp only; omega }
  · cases k with
    | unit =>
      simp [balance, tokens, Instr.units, Instr.counter, hunarmed, hhanded, hready, countdownBias]
    | notify => simp [balance, tokens, hunarmed, countdownBias]
    | install => simp [balance, tokens, Mem.installed]
    | _ => simp [balance, tokens, Instr.completes, Instr.counter]
  · obtain rfl := List.mem_singleton.mp hx
    exact ⟨⟨rfl, hopen, rfl⟩, rfl⟩

theorem closeList_keeps {count : ℤ} (h : protocol.Enters m (.closeList count) rest)
    (hstep : closeList m count = .next m' push spawned) :
    protocol.Keeps m (.closeList count) rest m' push spawned := by
  obtain ⟨harmed, hopen, hcount⟩ := h.relies.1
  have hearly := h.memory.early hopen
  cases hstep
  refine Frame.keeps ?_ ?_ (fun k => ?_) (fun x hx => ?_) fun l hl => by cases hl
  · exact
      { armed := id
        closed := fun _ => rfl
        early := fun _ => rfl
        next := id
        complete := fun hno => by cases hno
        zero := fun _ => id }
  · exact
      { h.memory with
        closed := fun _ => harmed
        early := fun hno => by cases hno
        taken := fun _ => rfl
        handed := fun hh => ⟨rfl, (h.memory.handed hh).2⟩
        ready := fun _ => rfl }
  · cases k with
    | consumer =>
      simp only [balance, tokens, stackSum_cons, stackSum_nil, threadSum_nil]
      push_cast
      omega
    | install => simp [balance, tokens, Mem.installed]
    | _ => simp [balance, tokens, Instr.units, Instr.completes, Instr.counter]
  · obtain rfl := List.mem_singleton.mp hx
    exact ⟨⟨rfl, by rw [hcount, hearly]⟩, rfl⟩

theorem notifyArcs_keeps {r : ℕ} {count : ℤ} (h : protocol.Enters m (.notifyArcs r count) rest)
    (hfew : Few m) (hstep : notifyArcs m r count = .next m' push spawned) :
    protocol.Keeps m (.notifyArcs r count) rest m' push spawned := by
  obtain ⟨hclosed, hcount⟩ := h.relies.1
  cases r with
  | zero =>
    cases hstep
    refine goto_keeps h (fun k => ?_) ⟨hclosed, by simpa using hcount⟩ rfl
    cases k <;> simp [tokens, Instr.units, Instr.completes, Instr.counter]
  | succ r =>
    unfold notifyArcs at hstep
    dsimp only at hstep
    rw [if_neg h.memory.owned] at hstep
    cases hstep
    have htwo : 2 ≤ count := by
      unfold Few at hfew
      simp only [countdownBias] at hcount
      omega
    refine (frame_refl m _).keeps h.memory (fun k => ?_) (fun x hx => ?_) fun l hl x hx => ?_
    · cases k with
      | unit =>
        simp only [tokens, stackSum_cons, stackSum_nil, threadSum_cons, threadSum_nil, Instr.units,
          Instr.counter]
        omega
      | consumer => simp [tokens]; omega
      | _ => simp [tokens, Instr.completes, Instr.counter]
    · obtain rfl := List.mem_singleton.mp hx
      exact ⟨⟨hclosed, by push_cast at hcount; omega⟩, rfl⟩
    · obtain rfl := List.mem_singleton.mp hl
      obtain rfl := List.mem_singleton.mp hx
      exact ⟨hclosed, rfl⟩

theorem outLoad_keeps {count : ℤ} (h : protocol.Enters m (.outLoad count) rest)
    (hstep : outLoad m count = .next m' push spawned) :
    protocol.Keeps m (.outLoad count) rest m' push spawned := by
  obtain ⟨hclosed, hcount⟩ := h.relies.1
  cases hstep
  split
  · refine goto_keeps h (fun k => ?_) ⟨hclosed, hcount⟩ rfl
    cases k <;> simp [tokens, Instr.units, Instr.completes, Instr.counter]
  · rename_i hnext
    refine goto_keeps h (fun k => ?_) ⟨hclosed, hnext, by omega, by omega⟩ rfl
    cases k <;> simp [tokens, Instr.units, Instr.completes, Instr.counter]

theorem outCas_keeps {count : ℤ} (h : protocol.Enters m (.outCas count) rest) (hfew : Few m)
    (hstep : outCas m count = .next m' push spawned) :
    protocol.Keeps m (.outCas count) rest m' push spawned := by
  obtain ⟨hclosed, hcount⟩ := h.relies.1
  have hhanded := unhanded h rfl
  have harmed := h.memory.closed hclosed
  rw [outCas_eq] at hstep
  split at hstep
  · rename_i hnull
    cases hstep
    have htwo : 2 ≤ count := by
      unfold Few at hfew
      simp only [countdownBias] at hcount
      omega
    refine Frame.keeps ?_ ?_ (fun k => ?_) (fun x hx => ?_) fun l hl => by cases hl
    · exact
        { armed := id
          closed := id
          early := fun _ => rfl
          next := fun _ hno => by cases hno
          complete := fun hno => by cases hno
          zero := fun _ => id }
    · exact
        { h.memory with
          handed := fun hh => by rw [hhanded] at hh; cases hh
          ready := fun _ => hclosed
          installed := fun hno => by cases hno
          owned := fun hno => by cases hno }
    · cases k with
      | unit =>
        simp only [balance, tokens, harmed, hhanded, hnull, if_true, stackSum_cons, stackSum_nil,
          threadSum_nil, Instr.units, Instr.counter, reduceCtorEq, if_false, Bool.false_eq_true]
        omega
      | install => simp [balance, tokens, Mem.installed, hnull]
      | _ => simp [balance, tokens, Instr.completes, Instr.counter]
    · obtain rfl := List.mem_singleton.mp hx
      exact ⟨⟨hclosed, fun hno => (by cases hno), by dsimp only; omega, by dsimp only; omega⟩, rfl⟩
  · rename_i hnext
    cases hstep
    refine goto_keeps h (fun k => ?_) ⟨hclosed, hnext, by omega, by omega⟩ rfl
    cases k <;> simp [tokens, Instr.units, Instr.completes, Instr.counter]

/-! ### remove_back_arc and notify_next_writer -/

/-- What `remove_back_arc` leaves. -/
theorem removeBackArc_cases {n : ℤ} (hstep : removeBackArc m n = .next m' push spawned) :
    n ≤ m.out.countdown ∧
    m' = { m with out := { m.out with countdown := m.out.countdown - n } } ∧
    push = (if m.out.countdown = n then [.notifyNextWriter] else []) ∧ spawned = [] := by
  rw [removeBackArc_eq] at hstep
  dsimp only at hstep
  split at hstep
  · cases hstep
  · cases hstep
    refine ⟨by omega, rfl, ?_, rfl⟩
    by_cases hn : m.out.countdown = n
    · rw [if_pos hn, if_pos (by omega)]
    · rw [if_neg hn, if_neg (by omega)]

theorem stackSum_notify (b : Prop) [Decidable b] (k : Right) :
    stackSum tokens (if b then [.notifyNextWriter] else []) k =
      if k = .notify ∧ b then 1 else 0 := by
  by_cases hb : b <;> cases k <;>
    simp [hb, tokens, Instr.units, Instr.completes, Instr.counter]

theorem outSub_keeps {count : ℤ} (h : protocol.Enters m (.outSub count) rest) (hfew : Few m)
    (hstep : removeBackArc { m with out := { m.out with handed := true } } count =
      .next m' push spawned) :
    protocol.Keeps m (.outSub count) rest m' push spawned := by
  obtain ⟨hclosed, hnext, hlow, hhigh⟩ := h.relies.1
  have hhanded := unhanded h rfl
  have harmed := h.memory.closed hclosed
  have hunits := units_le h harmed
  have hone : 1 ≤ count := by
    unfold Few at hfew
    simp only [countdownBias] at hlow
    omega
  obtain ⟨hle, rfl, rfl, rfl⟩ := removeBackArc_cases hstep
  dsimp only at hle ⊢
  refine Frame.keeps ?_ ?_ (fun k => ?_) (fun x hx => ?_) fun l hl => by cases hl
  · exact
      { armed := id
        closed := id
        early := fun _ => rfl
        next := id
        complete := fun hno => by cases hno
        zero := fun _ hzero => by omega }
  · exact
      { h.memory with
        unarmed := fun hno => by rw [harmed] at hno; cases hno
        handed := fun _ => ⟨hclosed, hnext⟩
        nonneg := by dsimp only; omega
        le := by
          have hle := h.memory.le
          dsimp only
          omega }
  · rw [stackSum_notify, threadSum_nil]
    cases k with
    | unit =>
      simp only [balance, tokens, harmed, hhanded, if_true, Instr.units, Instr.counter,
        reduceCtorEq, false_and, if_false, Bool.false_eq_true]
      omega
    | notify =>
      have hne : m.out.countdown ≠ 0 := by omega
      have hiff : m.out.countdown - count = 0 ↔ m.out.countdown = count := by omega
      simp only [balance, tokens, harmed, true_and, hne, hiff, if_false, reduceCtorEq]
      split_ifs <;> omega
    | install => simp [balance, tokens, Mem.installed]
    | complete => simp [balance, tokens, hhanded, Instr.completes, Instr.counter]
    | _ => simp [balance, tokens]
  · split at hx
    · rename_i heq
      obtain rfl := List.mem_singleton.mp hx
      exact ⟨⟨harmed, by dsimp only; omega⟩, rfl⟩
    · cases hx

/-- Taking back one unit that the instruction holds. -/
theorem unit_keeps (m₁ : Mem) (h : protocol.Enters m ins rest) (hunits : ins.units = 1)
    (hclosed : m.closed = true) (hnotify : ins ≠ .notifyNextWriter)
    (hout : m₁.out = m.out) (harcs : m₁.arcs = m.arcs) (hsame : m₁.closed = m.closed) (hearly : m₁.early = m.early)
    (hlate : m₁.late = m.late) (htotal : m₁.total = m.total)
    (hcons : ∀ k, k ≠ .unit → k ≠ .notify → balance m₁ k = balance m k + tokens ins k)
    (hstep : removeBackArc m₁ 1 = .next m' push spawned) :
    protocol.Keeps m ins rest m' push spawned := by
  have harmed := h.memory.closed hclosed
  have hle := units_le h harmed
  rw [hunits] at hle
  have hpos : 1 ≤ m.out.countdown := by
    split_ifs at hle <;> omega
  obtain ⟨-, rfl, rfl, rfl⟩ := removeBackArc_cases hstep
  rw [hout]
  refine Frame.keeps ?_ ?_ (fun k => ?_) (fun x hx => ?_) fun l hl => by cases hl
  · exact
      { armed := id
        closed := fun hc => hsame.trans hc
        early := fun _ => hearly
        next := id
        complete := fun _ => ⟨rfl, hsame⟩
        zero := fun _ hzero => by dsimp only; omega }
  · exact
      { unarmed := fun hno => by rw [harmed] at hno; cases hno
        closed := fun _ => harmed
        early := fun hno => by rw [hsame, hclosed] at hno; cases hno
        taken := fun _ => harcs.trans (h.memory.taken hclosed)
        handed := fun hh => ⟨hsame.trans (h.memory.handed hh).1, (h.memory.handed hh).2⟩
        ready := fun hr => hsame.trans (h.memory.ready hr)
        installed := fun hi => by
          rw [hearly, hlate, htotal]
          exact h.memory.installed hi
        owned := h.memory.owned
        nonneg := by dsimp only; omega
        le := by
          have hle := h.memory.le
          rw [hlate]
          dsimp only
          omega }
  · rw [stackSum_notify, threadSum_nil]
    by_cases hunit : k = .unit
    · subst hunit
      simp only [balance, tokens, harmed, hunits, if_true, reduceCtorEq, false_and, if_false]
      omega
    · by_cases hk : k = .notify
      · subst hk
        have hne : m.out.countdown ≠ 0 := by omega
        have hiff : m.out.countdown - 1 = 0 ↔ m.out.countdown = 1 := by omega
        simp only [balance, tokens, harmed, true_and, hne, hiff, hnotify, if_false]
        split_ifs <;> omega
      · have hk' := hcons k hunit hk
        simp only [hk, false_and, if_false, add_zero]
        rw [← hk']
        cases k with
        | unit => exact absurd rfl hunit
        | notify => exact absurd rfl hk
        | install => simp only [balance, Mem.installed, ← hout]; rfl
        | _ => simp only [balance, hout]
  · split at hx
    · rename_i heq
      obtain rfl := List.mem_singleton.mp hx
      exact ⟨⟨harmed, by dsimp only; omega⟩, rfl⟩
    · cases hx

theorem finish_keeps (h : protocol.Enters m .finish rest)
    (hstep : removeBackArc { m with finished := m.finished + 1 } 1 = .next m' push spawned) :
    protocol.Keeps m .finish rest m' push spawned := by
  refine unit_keeps { m with finished := m.finished + 1 } h rfl h.relies.1 (by decide) rfl rfl
    rfl rfl rfl rfl (fun k hu hn => ?_) hstep
  cases k with
  | unit => exact absurd rfl hu
  | notify => exact absurd rfl hn
  | consumer =>
    simp only [balance, tokens]
    push_cast
    omega
  | install => simp [balance, tokens, Mem.installed]
  | _ => simp [balance, tokens, Instr.completes, Instr.counter]

theorem removeBackArc_keeps (h : protocol.Enters m .removeBackArc rest)
    (hstep : removeBackArc m 1 = .next m' push spawned) :
    protocol.Keeps m .removeBackArc rest m' push spawned := by
  refine unit_keeps m h rfl h.relies.1 (by decide) rfl rfl rfl rfl rfl rfl (fun k hu hn => ?_)
    hstep
  cases k with
  | unit => exact absurd rfl hu
  | notify => exact absurd rfl hn
  | _ => simp [tokens, Instr.completes, Instr.counter]

theorem notifyNextWriter_keeps (h : protocol.Enters m .notifyNextWriter rest)
    (hstep : notifyNextWriter m = .next m' push spawned) :
    protocol.Keeps m .notifyNextWriter rest m' push spawned := by
  unfold notifyNextWriter at hstep
  split at hstep
  · cases hstep
  · cases hstep
    refine Frame.keeps ?_ ?_ (fun k => ?_) (fun x hx => by cases hx) fun l hl => by cases hl
    · exact ⟨id, id, fun _ => rfl, id, fun _ => ⟨rfl, rfl⟩, fun _ => id⟩
    · exact
        { h.memory with
          unarmed := h.memory.unarmed
          closed := h.memory.closed }
    · cases k with
      | notify =>
        simp only [balance, tokens, if_true, stackSum_nil, threadSum_nil]
        push_cast
        omega
      | install => simp [balance, tokens, Mem.installed]
      | _ => simp [balance, tokens, Instr.units, Instr.completes, Instr.counter]

/-! ### Consumers and the next writer -/

theorem register_keeps (h : protocol.Enters m .register rest)
    (hstep : register m = .next m' push spawned) :
    protocol.Keeps m .register rest m' push spawned := by
  unfold register at hstep
  split at hstep
  · rename_i hclosed
    cases hstep
    refine goto_keeps h (fun k => ?_) hclosed rfl
    cases k <;> simp [tokens, Instr.units, Instr.completes, Instr.counter]
  · rename_i hopen
    rw [Bool.not_eq_true] at hopen
    have hcov : tokens .register .registration ≤ -balance m .registration := h.covered .registration
    simp only [tokens, balance] at hcov
    cases hstep
    refine Frame.keeps ?_ ?_ (fun k => ?_) (fun x hx => by cases hx) fun l hl => by cases hl
    · exact ⟨id, id, fun hc => (by rw [hopen] at hc; cases hc), id, fun _ => ⟨rfl, rfl⟩, fun _ => id⟩
    · exact
        { h.memory with
          early := fun _ => by
            have hearly := h.memory.early hopen
            dsimp only
            omega
          taken := fun hc => by rw [hopen] at hc; cases hc
          installed := fun hi => by
            have hall := h.memory.installed hi
            omega }
    · cases k with
      | install => simp [balance, tokens, Mem.installed]
      | registration =>
        simp only [balance, tokens, stackSum_nil, threadSum_nil]
        push_cast
        omega
      | consumer =>
        simp only [balance, tokens, stackSum_nil, threadSum_nil]
        push_cast
        omega
      | _ => simp [balance, tokens, Instr.units, Instr.completes, Instr.counter]

theorem increment_keeps (h : protocol.Enters m .increment rest)
    (hstep : increment m = .next m' push spawned) :
    protocol.Keeps m .increment rest m' push spawned := by
  have hclosed : m.closed = true := h.relies.1
  have harmed := h.memory.closed hclosed
  have hcov : tokens .increment .registration ≤ -balance m .registration := h.covered .registration
  simp only [tokens, balance] at hcov
  rw [increment_eq] at hstep
  dsimp only at hstep
  split at hstep
  · rename_i hpos
    have hnonneg := h.memory.nonneg
    cases hstep
    refine Frame.keeps ?_ ?_ (fun k => ?_) (fun x hx => by cases hx) fun l hl x hx => ?_
    · exact
        { armed := id
          closed := id
          early := fun _ => rfl
          next := id
          complete := fun _ => ⟨rfl, rfl⟩
          zero := fun _ hzero => by omega }
    · exact
        { h.memory with
          unarmed := fun hno => by rw [harmed] at hno; cases hno
          early := h.memory.early
          installed := fun hi => by
            have hall := h.memory.installed hi
            omega
          nonneg := by dsimp only; omega
          le := by
            have hle := h.memory.le
            dsimp only
            push_cast
            omega }
    · cases k with
      | unit =>
        simp only [balance, tokens, harmed, if_true, stackSum_cons, stackSum_nil, threadSum_cons,
          threadSum_nil, Instr.units, Instr.counter]
        push_cast
        omega
      | notify =>
        have hne : m.out.countdown ≠ 0 := by omega
        have hne' : m.out.countdown + 1 ≠ 0 := by omega
        simp [balance, tokens, hne, hne']
      | install => simp [balance, tokens, Mem.installed]
      | registration =>
        simp only [balance, tokens, stackSum_cons, stackSum_nil, threadSum_cons, threadSum_nil]
        push_cast
        omega
      | consumer =>
        simp only [balance, tokens, stackSum_cons, stackSum_nil, threadSum_cons, threadSum_nil]
        push_cast
        omega
      | complete => simp [balance, tokens, Instr.completes, Instr.counter]
    · obtain rfl := List.mem_singleton.mp hl
      obtain rfl := List.mem_singleton.mp hx
      exact ⟨hclosed, rfl⟩
  · cases hstep

theorem install_keeps {d : Successor} (h : protocol.Enters m (.install d) rest)
    (hle : m.early + m.late ≤ m.total) (hstep : install m d = .next m' push spawned) :
    protocol.Keeps m (.install d) rest m' push spawned := by
  have hword : d.word ≠ .null ∧ d.word ≠ .ready ∧ d.word ≠ .noOwner := by
    cases d <;> simp [Successor.word]
  have hinstalled : ({ m with out := { m.out with nextWriter := d.word } } : Mem).installed = true := by
    cases d <;> rfl
  rw [install_eq] at hstep
  split at hstep
  · cases hstep
  · rename_i hall
    dsimp only at hstep
    have hok : MemOk { m with out := { m.out with nextWriter := d.word } } :=
      { h.memory with
        closed := h.memory.closed
        handed := fun hh => ⟨(h.memory.handed hh).1, hword.1⟩
        ready := fun hr => absurd hr hword.2.1
        installed := fun _ => by dsimp only; omega
        owned := hword.2.2 }
    have hframe : Frame m { m with out := { m.out with nextWriter := d.word } } (.install d) :=
      ⟨id, id, fun _ => rfl, fun _ => hword.1, fun _ => ⟨rfl, rfl⟩, fun _ => id⟩
    split at hstep
    · rename_i hnull
      cases hstep
      refine hframe.keeps hok (fun k => ?_) (fun x hx => by cases hx) fun l hl => by cases hl
      cases k with
      | unit => simp [balance, tokens, hword.2.1, hnull, Instr.units, Instr.counter]
      | install =>
        simp only [balance, hinstalled, if_true, stackSum_nil, threadSum_nil, tokens]
        simp [Mem.installed, hnull]
      | _ => simp [balance, tokens, Instr.completes, Instr.counter]
    · rename_i hready
      have hclosed := h.memory.ready hready
      cases hstep
      refine hframe.keeps hok (fun k => ?_) (fun x hx => ?_) fun l hl => by cases hl
      · cases k with
        | unit =>
          simp only [balance, tokens, h.memory.closed hclosed, hword.2.1, hready, if_true, if_false,
            stackSum_cons, stackSum_nil, threadSum_nil, Instr.units, Instr.counter]
          push_cast
          omega
        | install =>
          simp only [balance, hinstalled, if_true, stackSum_cons, stackSum_nil, threadSum_nil, tokens]
          simp [Mem.installed, hready]
        | _ => simp [balance, tokens, Instr.completes, Instr.counter]
      · obtain rfl := List.mem_singleton.mp hx
        exact ⟨hclosed, rfl⟩
    · cases hstep

/-- Every step keeps the protocol, unless too many consumers registered early. -/
theorem keeps {choice : Bool} (h : protocol.Enters m ins rest) (hfew : Few m)
    (hle : m.early + m.late ≤ m.total) (hexec : exec m choice ins = .next m' push spawned) :
    protocol.Keeps m ins rest m' push spawned := by
  cases ins with
  | storeCountdown => exact storeCountdown_keeps h hexec
  | closeList count => exact closeList_keeps h hexec
  | notifyArcs r count => exact notifyArcs_keeps h hfew hexec
  | outLoad count => exact outLoad_keeps h hexec
  | outCas count => exact outCas_keeps h hfew hexec
  | outSub count => exact outSub_keeps h hfew hexec
  | register => exact register_keeps h hexec
  | increment => exact increment_keeps h hexec
  | finish => exact finish_keeps h hexec
  | install d => exact install_keeps h hle hexec
  | removeBackArc => exact removeBackArc_keeps h hexec
  | notifyNextWriter => exact notifyNextWriter_keeps h hexec

end Steps

/-! ## Runs -/

/-- The protocol holds before the task completes. -/
theorem start_holds (d : Successor) (consumers : List ℕ) :
    protocol.Holds (start d consumers) where
  memory :=
    { unarmed := fun _ => rfl
      closed := fun h => by cases h
      early := fun _ => rfl
      taken := fun _ => rfl
      handed := fun h => by cases h
      ready := fun h => by cases h
      installed := fun h => by cases h
      owned := fun h => by cases h
      nonneg := Int.one_nonneg
      le := by
        simp only [start, countdownBias]
        omega }
  law k := by
    have hone : ∀ n, stackSum tokens (List.replicate n .register) k =
        if k = .registration then (n : ℤ) else 0 := by
      intro n
      induction n with
      | zero => cases k <;> rfl
      | succ n ih =>
        rw [List.replicate_succ, stackSum_cons, ih]
        cases k <;> simp [tokens, Instr.units, Instr.completes, Instr.counter, add_comm]
    have hall : threadSum tokens (consumers.map fun n => List.replicate n .register) k =
        if k = .registration then (consumers.sum : ℤ) else 0 := by
      induction consumers with
      | nil => cases k <;> rfl
      | cons n consumers ih =>
        rw [List.map_cons, threadSum_cons, ih, hone, List.sum_cons]
        split_ifs
        · push_cast
          rfl
        · rfl
    cases k with
    | registration => simp [start, protocol, balance, tokens, hall]
    | _ =>
      simp [start, protocol, balance, tokens, hall, Instr.units, Instr.completes, Instr.counter,
        Mem.installed]
  relies l hl := by
    rcases List.mem_cons.mp hl with rfl | hl
    · exact ⟨⟨⟨rfl, rfl⟩, fun h => (by cases h)⟩, trivial⟩
    · rcases List.mem_cons.mp hl with rfl | hl
      · exact ⟨⟨trivial, fun _ => rfl⟩, trivial⟩
      · obtain ⟨n, -, rfl⟩ := List.mem_map.mp hl
        have h : StackOk protocol.relies (start d consumers).mem
            (List.replicate n Instr.register ++ []) := by
          refine stackOk_append (fun x hx => ?_) trivial
          rw [List.eq_of_mem_replicate hx]
          exact ⟨trivial, rfl⟩
        rwa [List.append_nil] at h

/-- Consumers that registered are never forgotten, and none is expected later on. -/
theorem early_step {m m' : Mem} {choice : Bool} {ins : Instr} {push : List Instr}
    {spawned : List (List Instr)} (hexec : exec m choice ins = .next m' push spawned) :
    m.early ≤ m'.early ∧ m'.total = m.total := by
  have hremove : ∀ (m₁ : Mem) (n : ℤ), m₁.early = m.early → m₁.total = m.total →
      removeBackArc m₁ n = .next m' push spawned → m.early ≤ m'.early ∧ m'.total = m.total := by
    intro m₁ n hearly htotal hstep
    obtain ⟨-, rfl, -, -⟩ := removeBackArc_cases hstep
    exact ⟨hearly.ge, htotal⟩
  cases ins with
  | storeCountdown =>
    cases hexec
    exact ⟨le_rfl, rfl⟩
  | closeList count =>
    cases hexec
    exact ⟨le_rfl, rfl⟩
  | notifyArcs r count =>
    cases r with
    | zero =>
      cases hexec
      exact ⟨le_rfl, rfl⟩
    | succ r =>
      simp only [exec, notifyArcs] at hexec
      split at hexec
      all_goals
        cases hexec
        exact ⟨le_rfl, rfl⟩
  | outLoad count =>
    cases hexec
    exact ⟨le_rfl, rfl⟩
  | outCas count =>
    simp only [exec, outCas_eq] at hexec
    split at hexec
    all_goals
      cases hexec
      exact ⟨le_rfl, rfl⟩
  | outSub count => exact hremove { m with out := { m.out with handed := true } } count rfl rfl hexec
  | register =>
    simp only [exec, register] at hexec
    split at hexec
    · cases hexec
      exact ⟨le_rfl, rfl⟩
    · cases hexec
      exact ⟨Nat.le_succ _, rfl⟩
  | increment =>
    simp only [exec, increment_eq] at hexec
    split at hexec
    · cases hexec
      exact ⟨le_rfl, rfl⟩
    · cases hexec
  | finish => exact hremove { m with finished := m.finished + 1 } 1 rfl rfl hexec
  | install d =>
    simp only [exec, install_eq] at hexec
    split at hexec
    · cases hexec
    · split at hexec <;> cases hexec
      all_goals exact ⟨le_rfl, rfl⟩
  | removeBackArc => exact hremove _ 1 rfl rfl hexec
  | notifyNextWriter =>
    simp only [exec, notifyNextWriter] at hexec
    split at hexec
    · cases hexec
    · cases hexec
      exact ⟨le_rfl, rfl⟩

/-- When few consumers registered early by the end of a run, few had at every step of it. -/
theorem reach_few {allowed : State → Turn → Prop} {c₀ c : State} (h : Reach exec allowed c₀ c)
    (hfew : Few c.mem) : Reach exec (fun c _ => Few c.mem) c₀ c ∧ c.mem.total = c₀.mem.total := by
  induction h with
  | start => exact ⟨.start, rfl⟩
  | step e _ _ hstep ih =>
    obtain ⟨ins, rest, push, spawned, -, hexec, -⟩ := Config.step_cases hstep
    obtain ⟨hearly, htotal⟩ := early_step hexec
    have hbefore := lt_of_le_of_lt hearly hfew
    obtain ⟨hreach, hsame⟩ := ih hbefore
    exact ⟨hreach.step e hbefore hstep, htotal.trans hsame⟩

theorem registered_le {c : State} (h : protocol.Holds c) :
    c.mem.early + c.mem.late ≤ c.mem.total := by
  have hlaw := h.law .registration
  have hnonneg : 0 ≤ threadSum tokens c.threads .registration :=
    Protocol.Holds.sum_nonneg (P := protocol) c .registration
  simp only [protocol, balance] at hlaw
  omega

theorem holds_of_reach {allowed : State → Turn → Prop} {d : Successor} {consumers : List ℕ}
    {c : State} (hreach : Reach exec allowed (start d consumers) c) (hfew : Few c.mem) :
    protocol.Holds c ∧ c.mem.total = consumers.sum := by
  obtain ⟨hreach, htotal⟩ := reach_few hreach hfew
  refine ⟨Protocol.Holds.of_reach (start_holds d consumers) ?_ hreach, htotal⟩
  intro c e ins rest m' push spawned h hfew _ hexec henters
  exact keeps henters hfew (registered_le h) hexec

/-! ## What the slot guarantees -/

/-- The countdown stays in the range of an `int` and above the reach of late consumers, no
assertion fails, and the next writer or owner is notified once, after everybody else. -/
structure HandedOver (c : State) : Prop where
  noFault : ∀ ins rest, ins :: rest ∈ c.threads →
    ∀ choice cause, exec c.mem choice ins ≠ .fault cause
  nonneg : 0 ≤ c.mem.out.countdown
  fits : c.mem.out.countdown < 2 ^ 31
  late : ∀ l ∈ c.threads, Instr.increment ∈ l → 1 < c.mem.out.countdown + 1
  once : c.mem.out.notified ≤ 1
  after : (0 < c.mem.out.notified ∨ ∃ l ∈ c.threads, Instr.notifyNextWriter ∈ l) →
    c.mem.out.handed = true ∧ c.mem.early + c.mem.late = c.mem.total ∧
    c.mem.finished = c.mem.total ∧ c.mem.installed = true
  served : c.Stuck exec → (∀ l ∈ c.threads, l = []) ∧ c.mem.out.notified = 1
  ends : c.Ends exec

/-- What is left to do after an instruction, counted in steps. -/
def Instr.weight : Instr → ℕ
  | .storeCountdown => 7
  | .closeList _ => 6
  | .notifyArcs r _ => 3 * r + 5
  | .outLoad _ => 4
  | .outCas _ => 3
  | .outSub _ => 2
  | .register => 4
  | .increment => 3
  | .finish => 2
  | .install _ => 3
  | .removeBackArc => 2
  | .notifyNextWriter => 1

theorem removeBackArc_weight {m m' : Mem} (m₁ : Mem) {n : ℤ} {push : List Instr}
    {spawned : List (List Instr)} (harcs : m₁.arcs = m.arcs)
    (hstep : removeBackArc m₁ n = .next m' push spawned) :
    3 * m'.arcs + (push.map Instr.weight).sum + threadWeight Instr.weight spawned <
      3 * m.arcs + 2 := by
  obtain ⟨-, rfl, rfl, rfl⟩ := removeBackArc_cases hstep
  dsimp only
  rw [harcs]
  split_ifs <;> simp [threadWeight, Instr.weight]

/-- Every instruction outweighs what it leaves to do; an arc in the list weighs three steps. -/
theorem weight_step {m m' : Mem} {choice : Bool} {ins : Instr} {push : List Instr}
    {spawned : List (List Instr)} (hexec : exec m choice ins = .next m' push spawned) :
    3 * m'.arcs + (push.map Instr.weight).sum + threadWeight Instr.weight spawned <
      3 * m.arcs + ins.weight := by
  cases ins with
  | storeCountdown =>
    cases hexec
    simp [threadWeight, Instr.weight]
  | closeList count =>
    cases hexec
    simp only [threadWeight, Instr.weight, List.map_cons, List.map_nil, List.sum_cons,
      List.sum_nil]
    omega
  | notifyArcs r count =>
    cases r with
    | zero =>
      cases hexec
      simp [threadWeight, Instr.weight]
    | succ r =>
      simp only [exec, notifyArcs] at hexec
      split at hexec
      all_goals
        cases hexec
        simp only [threadWeight, Instr.weight, List.map_cons, List.map_nil, List.sum_cons,
          List.sum_nil]
        omega
  | outLoad count =>
    cases hexec
    split_ifs <;> simp [threadWeight, Instr.weight]
  | outCas count =>
    simp only [exec, outCas_eq] at hexec
    split at hexec
    all_goals
      cases hexec
      simp [threadWeight, Instr.weight]
  | outSub count =>
    exact removeBackArc_weight { m with out := { m.out with handed := true } } rfl hexec
  | register =>
    simp only [exec, register] at hexec
    split at hexec
    all_goals
      cases hexec
      simp only [threadWeight, Instr.weight, List.map_cons, List.map_nil, List.sum_cons,
        List.sum_nil]
      omega
  | increment =>
    simp only [exec, increment_eq] at hexec
    split at hexec
    · cases hexec
      simp [threadWeight, Instr.weight]
    · cases hexec
  | finish => exact removeBackArc_weight { m with finished := m.finished + 1 } rfl hexec
  | install d =>
    simp only [exec, install_eq] at hexec
    split at hexec
    · cases hexec
    · split at hexec <;> cases hexec
      all_goals simp [threadWeight, Instr.weight]
  | removeBackArc => exact removeBackArc_weight m rfl hexec
  | notifyNextWriter =>
    simp only [exec, notifyNextWriter] at hexec
    split at hexec
    · cases hexec
    · cases hexec
      simp [threadWeight, Instr.weight]

section Results

variable {c : State}

/-- The units of the countdown that threads hold. -/
theorem units_law (h : protocol.Holds c) (harmed : c.mem.out.armed = true) :
    threadSum tokens c.threads .unit + (if c.mem.out.nextWriter = .ready then 1 else 0) +
      (if c.mem.out.handed then 0 else 1) = c.mem.out.countdown := by
  have hlaw := h.law .unit
  simp only [protocol, balance, harmed, if_true] at hlaw
  omega

/-- Once the countdown is zero nothing is left to do for the task and its consumers. -/
theorem settled_of_zero (h : protocol.Holds c) (harmed : c.mem.out.armed = true)
    (hzero : c.mem.out.countdown = 0) :
    c.mem.out.handed = true ∧ c.mem.early + c.mem.late = c.mem.total ∧
    c.mem.finished = c.mem.total ∧ c.mem.installed = true := by
  have hunits := units_law h harmed
  have hpos : 0 ≤ threadSum tokens c.threads .unit := Protocol.Holds.sum_nonneg (P := protocol) c .unit
  obtain ⟨hclosed, hhanded, hinstalled⟩ := h.memory.settled (by omega) hzero
  have hall := h.memory.installed hinstalled
  have hnone : threadSum tokens c.threads .unit = 0 := by
    rw [hhanded, if_pos rfl, hzero] at hunits
    split_ifs at hunits <;> omega
  refine ⟨hhanded, hall, ?_, hinstalled⟩
  -- a consumer that has not finished holds a unit, or its arc is with the completing task
  have hconsumers : threadSum tokens c.threads .consumer ≤ 0 := by
    by_contra hsome
    obtain ⟨l, hl, ins, hins, hpos⟩ := exists_pos_of_threadSum_pos (not_le.mp hsome)
    have hunit : tokens ins .unit ≤ threadSum tokens c.threads .unit :=
      Protocol.Holds.le_sum (P := protocol) hl hins .unit
    have hcomplete := h.covered hl hins .complete
    cases ins with
    | finish => simp [tokens, Instr.units, hnone] at hunit
    | notifyArcs r count =>
      simp [protocol, tokens, balance, Instr.completes, Instr.counter, hhanded] at hcomplete
    | _ => simp [tokens] at hpos
  have hlaw := h.law .consumer
  have htaken := h.memory.taken hclosed
  have hsum : 0 ≤ threadSum tokens c.threads .consumer := Protocol.Holds.sum_nonneg (P := protocol) c .consumer
  simp only [protocol, balance, htaken] at hlaw
  omega

theorem late_of_holds (h : protocol.Holds c) {l : List Instr} (hl : l ∈ c.threads)
    (hins : Instr.increment ∈ l) : 1 < c.mem.out.countdown + 1 := by
  have hnonneg := h.memory.nonneg
  obtain ⟨rest, -, hclosed, -⟩ := (h.relies l hl).exists_rest hins
  have hregister := h.covered hl hins .registration
  simp only [protocol, tokens, balance] at hregister
  by_contra hsmall
  obtain ⟨-, hall, -⟩ := settled_of_zero h (h.memory.closed hclosed) (by omega)
  omega

theorem not_fault (h : protocol.Holds c) {ins : Instr} {rest : List Instr}
    (hl : ins :: rest ∈ c.threads) (choice : Bool) (cause : Fault) :
    exec c.mem choice ins ≠ .fault cause := by
  have henters := h.enters hl
  have hmem : ins ∈ ins :: rest := List.mem_cons_self
  have hremove : ∀ (m₁ : Mem) (n : ℤ), m₁.out.countdown = c.mem.out.countdown →
      n ≤ c.mem.out.countdown → removeBackArc m₁ n ≠ .fault cause := by
    intro m₁ n hsame hle hfault
    rw [removeBackArc_eq] at hfault
    dsimp only at hfault
    split at hfault
    · omega
    · cases hfault
  have hone : ins.units = 1 → c.mem.closed = true → 1 ≤ c.mem.out.countdown := by
    intro hunits hclosed
    have hle := units_le henters (h.memory.closed hclosed)
    rw [hunits] at hle
    split_ifs at hle <;> omega
  intro hfault
  cases ins with
  | notifyArcs r count =>
    cases r with
    | zero => cases hfault
    | succ r =>
      simp only [exec, notifyArcs] at hfault
      split at hfault <;> cases hfault
  | outCas count =>
    simp only [exec, outCas_eq] at hfault
    split at hfault <;> cases hfault
  | outSub count =>
    obtain ⟨hclosed, -, hlow, -⟩ := henters.relies.1
    have hle := units_le henters (h.memory.closed hclosed)
    have hhanded := unhanded henters rfl
    refine hremove { c.mem with out := { c.mem.out with handed := true } } count rfl ?_ hfault
    simp only [hhanded, Instr.units, Instr.counter, Bool.false_eq_true, if_false] at hle
    split_ifs at hle <;> omega
  | register =>
    simp only [exec, register] at hfault
    split at hfault <;> cases hfault
  | increment =>
    have hlate := late_of_holds h hl hmem
    simp [exec, increment_eq, hlate] at hfault
  | finish =>
    exact hremove { c.mem with finished := c.mem.finished + 1 } 1 rfl
      (hone rfl henters.relies.1) hfault
  | install d =>
    have hinstall := henters.covered .install
    have hnot : c.mem.installed = false := by
      by_contra hyes
      rw [Bool.not_eq_false] at hyes
      simp [protocol, tokens, balance, hyes] at hinstall
    simp only [exec, install_eq] at hfault
    split at hfault
    · cases hfault
    · split at hfault
      · cases hfault
      · cases hfault
      · rename_i hnull hready
        have hyes : c.mem.installed = true := decide_eq_true ⟨hnull, hready⟩
        rw [hnot] at hyes
        cases hyes
  | removeBackArc => exact hremove c.mem 1 rfl (hone rfl henters.relies.1) hfault
  | notifyNextWriter =>
    obtain ⟨harmed, hzero⟩ := henters.relies.1
    obtain ⟨-, -, -, hinstalled⟩ := settled_of_zero h harmed hzero
    have hnext : c.mem.out.nextWriter ≠ .null ∧ c.mem.out.nextWriter ≠ .ready :=
      of_decide_eq_true hinstalled
    simp [exec, notifyNextWriter, hnext.1, hnext.2] at hfault
  | _ => cases hfault

theorem not_blocked {m : Mem} {choice : Bool} {ins : Instr} (h : ins.installs = false) :
    exec m choice ins ≠ .blocked := by
  have hremove : ∀ (m₁ : Mem) (n : ℤ), removeBackArc m₁ n ≠ .blocked := by
    intro m₁ n
    rw [removeBackArc_eq]
    dsimp only
    split <;> simp
  cases ins with
  | storeCountdown => simp [exec, storeCountdown]
  | closeList count => simp [exec, closeList]
  | notifyArcs r count =>
    cases r with
    | zero => simp [exec, notifyArcs]
    | succ r =>
      simp only [exec, notifyArcs]
      split <;> simp
  | outLoad count => simp [exec, outLoad]
  | outCas count =>
    simp only [exec, outCas_eq]
    split <;> simp
  | outSub count => exact hremove _ count
  | register =>
    simp only [exec, register]
    split <;> simp
  | increment =>
    simp only [exec, increment_eq]
    split <;> simp
  | finish => exact hremove _ 1
  | install d => cases h
  | removeBackArc => exact hremove m 1
  | notifyNextWriter =>
    simp only [exec, notifyNextWriter]
    split <;> simp

/-- When nothing can run any more, nobody waits. -/
theorem finished_of_stuck (h : protocol.Holds c) (hstuck : c.Stuck exec) {l : List Instr}
    (hl : l ∈ c.threads) : l = [] := by
  have hinstalls : ∀ ins rest, ins :: rest ∈ c.threads → ins.installs = true ∧ rest = [] := by
    intro ins rest hl
    have hblocked := (hstuck.top hl).resolve_right fun ⟨cause, hfault⟩ =>
      not_fault h hl false cause hfault
    have hinstalls : ins.installs = true := by
      by_contra hno
      rw [Bool.not_eq_true] at hno
      exact not_blocked hno hblocked
    exact ⟨hinstalls, (h.enters hl).relies.2 hinstalls⟩
  cases l with
  | nil => rfl
  | cons ins rest =>
    exfalso
    obtain ⟨hins, rfl⟩ := hinstalls ins rest hl
    have hblocked := (hstuck.top hl).resolve_right fun ⟨cause, hfault⟩ =>
      not_fault h hl false cause hfault
    cases ins with
    | install d =>
      have hmissing : c.mem.early + c.mem.late < c.mem.total := by
        simp only [exec, install_eq] at hblocked
        split at hblocked
        · assumption
        · split at hblocked <;> cases hblocked
      have howed : protocol.balance c.mem .registration < 0 := by
        simp only [protocol, balance]
        omega
      obtain ⟨l', hl', ins', hins', hpos⟩ := h.exists_holder howed
      cases l' with
      | nil => cases hins'
      | cons x rest' =>
        obtain ⟨hx, rfl⟩ := hinstalls x rest' hl'
        obtain rfl := List.mem_singleton.mp hins'
        cases ins' with
        | install d' => simp [protocol, tokens] at hpos
        | _ => cases hx
    | _ => cases hins

theorem handedOver_of_holds (h : protocol.Holds c) (htotal : c.mem.total < 2 ^ 30 - 1) :
    HandedOver c where
  noFault ins rest hl choice cause := not_fault h hl choice cause
  nonneg := h.memory.nonneg
  fits := by
    have hle := h.memory.le
    have hregistered := registered_le h
    simp only [countdownBias] at hle
    omega
  late l hl hins := late_of_holds h hl hins
  once := by
    have hlaw := h.law .notify
    have hsum : 0 ≤ threadSum tokens c.threads .notify :=
      Protocol.Holds.sum_nonneg (P := protocol) c .notify
    simp only [protocol, balance] at hlaw
    split_ifs at hlaw <;> omega
  after hnotify := by
    have hlaw := h.law .notify
    have hpos : 0 < (c.mem.out.notified : ℤ) + threadSum tokens c.threads .notify := by
      rcases hnotify with hpos | ⟨l, hl, hins⟩
      · have hsum : 0 ≤ threadSum tokens c.threads .notify :=
          Protocol.Holds.sum_nonneg (P := protocol) c .notify
        omega
      · have hle : tokens .notifyNextWriter .notify ≤ threadSum tokens c.threads .notify :=
          Protocol.Holds.le_sum (P := protocol) hl hins .notify
        simp only [tokens, if_true] at hle
        omega
    simp only [protocol, balance] at hlaw
    have hzero : c.mem.out.armed = true ∧ c.mem.out.countdown = 0 := by
      by_contra hno
      rw [if_neg hno] at hlaw
      omega
    exact settled_of_zero h hzero.1 hzero.2
  served hstuck := by
    have hempty : ∀ l ∈ c.threads, l = [] := fun l hl => finished_of_stuck h hstuck hl
    refine ⟨hempty, ?_⟩
    have hnone : ∀ k, protocol.balance c.mem k = 0 := by
      intro k
      by_contra hne
      rcases lt_or_gt_of_ne hne with hneg | hpos
      · obtain ⟨l, hl, ins, hins, -⟩ := h.exists_holder hneg
        rw [hempty l hl] at hins
        cases hins
      · have hlaw := h.law k
        have hsum : 0 ≤ threadSum protocol.tokens c.threads k :=
          Protocol.Holds.sum_nonneg c k
        omega
    have hhanded : c.mem.out.handed = true := by
      by_contra hno
      have hcomplete := hnone .complete
      simp [protocol, balance, hno] at hcomplete
    have hinstalled : c.mem.installed = true := by
      by_contra hno
      have hinstall := hnone .install
      simp [protocol, balance, hno] at hinstall
    have harmed := h.memory.closed (h.memory.handed hhanded).1
    have hnext : c.mem.out.nextWriter ≠ .null ∧ c.mem.out.nextWriter ≠ .ready :=
      of_decide_eq_true hinstalled
    have hunit := hnone .unit
    have hnotify := hnone .notify
    simp only [protocol, balance, harmed, hhanded, hnext.2, if_true, if_false, true_and] at hunit hnotify
    rw [if_pos (by omega)] at hnotify
    omega
  ends := Config.ends_of_weight Instr.weight (fun m => 3 * m.arcs)
    (fun _ _ _ _ _ _ _ hexec => ⟨trivial, weight_step hexec⟩) trivial

/-- In every run in which fewer than `2 ^ 30 - 2` consumers register before the list is closed,
of fewer than `2 ^ 30 - 1` in all, the slot is handed over once. -/
theorem handedOver {d : Successor} {consumers : List ℕ}
    (hreach : Reach exec (fun _ _ => True) (start d consumers) c)
    (hearly : c.mem.early < 2 ^ 30 - 2) (hall : consumers.sum < 2 ^ 30 - 1) : HandedOver c := by
  obtain ⟨h, htotal⟩ := holds_of_reach hreach hearly
  exact handedOver_of_holds h (by omega)

end Results

/-- One early and one late consumer. -/
theorem handedOver_two : ∃ c, Reach exec (fun _ _ => True) (start (.owner 0) [1, 1]) c ∧
    c.mem.early = 1 ∧ c.mem.late = 1 ∧ c.mem.out.notified = 1 ∧ HandedOver c := by
  obtain ⟨c, hreach, hc⟩ := Reach.exists_of_run exec (start (.owner 0) [1, 1])
    (rounds [(2, 1), (0, 6), (3, 2), (1, 1), (4, 1), (5, 1), (1, 1), (0, 2)])
    (fun c => decide (c.mem.early = 1 ∧ c.mem.late = 1 ∧ c.mem.out.notified = 1))
    (by decide)
  obtain ⟨hearly, hlate, hnotified⟩ := of_decide_eq_true hc
  exact ⟨c, hreach, hearly, hlate, hnotified, handedOver hreach (by omega) (by decide)⟩

/-! ## Too many early consumers -/

theorem reach_registered (m : Mem) (hopen : m.closed = false) (a b : List Instr) (n : ℕ) :
    Reach exec (fun _ _ => True) ⟨m, [a, b, List.replicate n .register]⟩
      ⟨{ m with arcs := m.arcs + n, early := m.early + n }, [a, b, []]⟩ := by
  induction n generalizing m with
  | zero => exact .start
  | succ n ih =>
    have hstep : Config.step exec ⟨m, [a, b, List.replicate (n + 1) .register]⟩ ⟨2, false⟩ =
        some ⟨{ m with arcs := m.arcs + 1, early := m.early + 1 },
          [a, b, List.replicate n .register]⟩ := by
      simp [Config.step, List.replicate_succ, exec, register, hopen]
    have hrest := ih { m with arcs := m.arcs + 1, early := m.early + 1 } hopen
    simp only [Nat.add_right_comm _ 1 n] at hrest
    exact (Reach.start.step ⟨2, false⟩ trivial hstep).trans hrest

/-- Each consumer finishes as soon as its arc has gone on. -/
theorem reach_finished (m : Mem) (hnext : m.out.nextWriter = .null) (n : ℕ) (count : ℤ)
    (hcount : (n : ℤ) < m.out.countdown) (ls : List (List Instr)) :
    ∃ ls', Reach exec (fun _ _ => True) ⟨m, [.notifyArcs n count] :: ls⟩
      ⟨{ m with out := { m.out with countdown := m.out.countdown - n }, finished := m.finished + n },
        [.notifyArcs 0 (count - n)] :: (ls ++ ls')⟩ := by
  induction n generalizing m count ls with
  | zero =>
    refine ⟨[], ?_⟩
    simp only [Nat.cast_zero, sub_zero, Nat.add_zero, List.append_nil]
    exact .start
  | succ n ih =>
    have hmove : Config.step exec ⟨m, [.notifyArcs (n + 1) count] :: ls⟩ ⟨0, false⟩ =
        some ⟨m, [.notifyArcs n (count - 1)] :: (ls ++ [[Instr.finish]])⟩ := by
      simp [Config.step, exec, notifyArcs, hnext]
    have hleft : ¬ m.out.countdown - 1 < 0 ∧ ¬ m.out.countdown - 1 = 0 := by
      push_cast at hcount
      omega
    have hfinish : Config.step exec ⟨m, [.notifyArcs n (count - 1)] :: (ls ++ [[Instr.finish]])⟩
        ⟨ls.length + 1, false⟩ =
        some ⟨{ m with
          out := { m.out with countdown := m.out.countdown - 1 }, finished := m.finished + 1 },
          [.notifyArcs n (count - 1)] :: (ls ++ [[]])⟩ := by
      simp [Config.step, exec, removeBackArc_eq, hleft.1, hleft.2]
    obtain ⟨ls', hrest⟩ := ih
      { m with out := { m.out with countdown := m.out.countdown - 1 }, finished := m.finished + 1 }
      hnext (count - 1) (by push_cast at hcount; dsimp only; omega) (ls ++ [[]])
    refine ⟨[] :: ls', ?_⟩
    have hsub : ∀ x : ℤ, x - 1 - n = x - (n + 1 : ℕ) := by
      intro x
      push_cast
      omega
    simp only [hsub, Nat.add_right_comm _ 1 n, List.append_assoc, List.singleton_append] at hrest
    exact ((Reach.start.step ⟨0, false⟩ trivial hmove).step ⟨ls.length + 1, false⟩ trivial
      hfinish).trans hrest

/-- A local counter of one is handed to the ready marker, and nothing is left to subtract. -/
theorem reach_notified_twice (m : Mem) (hnext : m.out.nextWriter = .null)
    (hone : m.out.countdown = 1) (hall : ¬ m.early + m.late < m.total) (n : ℕ)
    (ls : List (List Instr)) :
    ∃ c, Reach exec (fun _ _ => True) ⟨m, [.notifyArcs 0 1] :: [.install (.writer n)] :: ls⟩ c ∧
      c.mem.early = m.early ∧ c.mem.late = m.late ∧
      c.mem.out.notified = m.out.notified + 2 := by
  refine ⟨⟨{ m with out := { m.out with
    nextWriter := .node n, countdown := 0, handed := true, notified := m.out.notified + 2 } },
    [] :: [] :: ls⟩, ?_, rfl, rfl, rfl⟩
  apply Reach.of_run _ fun _ _ => trivial
  · exact rounds [(0, 3), (1, 3), (0, 2)]
  simp [rounds, Config.run, Config.step, exec, notifyArcs, outLoad, outCas_eq, install_eq,
    removeBackArc_eq, notifyNextWriter, Successor.word, hnext, hone, hall]

/-- With `2 ^ 30 - 2` early consumers the local counter of the task ends at zero: the thread that
installs the next writer and then the task itself find the countdown at zero. -/
theorem handed_over_twice : ∃ c,
    Reach exec (fun _ _ => True) (start (.writer 0) [2 ^ 30 - 2]) c ∧
    c.mem.early = 2 ^ 30 - 2 ∧ c.mem.early + c.mem.late < 2 ^ 30 - 1 ∧
    c.mem.out.notified = 2 ∧ ¬ HandedOver c := by
  obtain ⟨n, hn⟩ : ∃ n, n = 2 ^ 30 - 2 := ⟨_, rfl⟩
  rw [← hn]
  have hbias : (n : ℤ) + 1 = countdownBias := by
    simp only [countdownBias]
    omega
  -- all consumers register, the task closes the list and they finish
  have hregistered := reach_registered { total := n } rfl [.storeCountdown] [.install (.writer 0)] n
  have hclosed : Config.run exec ⟨{ total := n, arcs := 0 + n, early := 0 + n },
      [[.storeCountdown], [.install (.writer 0)], []]⟩ (rounds [(0, 2)]) =
      some ⟨
        { out := { countdown := countdownBias, armed := true }, closed := true, total := n,
          early := 0 + n },
        [[.notifyArcs (0 + n) countdownBias], [.install (.writer 0)], []]⟩ := rfl
  obtain ⟨ls, hfinished⟩ := reach_finished
    { out := { countdown := countdownBias, armed := true }, closed := true, total := n,
      early := 0 + n } rfl (0 + n) countdownBias (by dsimp only; omega) [[.install (.writer 0)], []]
  have hone : countdownBias - ((0 + n : ℕ) : ℤ) = 1 := by
    push_cast
    omega
  rw [hone] at hfinished
  -- one unit goes to the ready marker, and the task has none to take back
  obtain ⟨c, htwice, hearly, hlate, hnotified⟩ := reach_notified_twice
    { out := { countdown := 1, armed := true }, closed := true, total := n, early := 0 + n,
      finished := 0 + (0 + n) } rfl rfl (by dsimp only; omega) 0 ([] :: ls)
  have hreach := ((hregistered.trans (Reach.of_run hclosed fun _ _ => trivial)).trans
    hfinished).trans htwice
  dsimp only at hearly hlate hnotified
  refine ⟨c, hreach, by omega, by omega, hnotified, fun h => ?_⟩
  have honce := h.once
  omega

end Oox.Handover
