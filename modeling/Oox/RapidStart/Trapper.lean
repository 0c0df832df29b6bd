import Mathlib.Data.List.Nodup
import Oox.Library.Protocol
import Oox.RapidStart.Partition

/-!
# Workers that join RapidStart

The main thread hands out work with `RapidStart::spread_work` (rapid_start.h:72-85) while tasks
of `RapidStart::TrapperTask` (rapid_start.h:87-128) join and run their slots. The tasks are
trapped (`mode == 2`), so none leaves its loop. The atomic accesses are taken in one order; a
spinning wait is a step that can be taken once the awaited value is there. Bodies are named by
numbers.
-/

set_option autoImplicit false

namespace Oox.Trapper

open Library
open RapidStart (Mask bit hasBit)

/-- `uintptr_t`. -/
abbrev Word := BitVec 64

/-- One call of `distribution_base::run`. -/
structure Execution where
  slot : ℕ
  func : ℕ
  mask : Mask
  deriving DecidableEq, Repr

/-- What happened in one call of `spread_work` that has returned. -/
structure Call where
  func : ℕ
  snapshot : Mask
  executed : List Execution
  deriving DecidableEq, Repr

/-- How far the last call of `spread_work` has come. -/
inductive Phase where
  | returned
  | entered
  | bumped
  | snapped
  | reset
  | published
  deriving DecidableEq, Repr

/-- The fields of `RapidStart`. -/
structure Mem where
  startMask : Mask := 0
  finishMask : Mask := 0
  runMask : Mask := 0
  funcPtr : Option ℕ := none
  epoch : Word
  -- history
  phase : Phase := .returned
  /-- the body of the last call. -/
  func : ℕ := 0
  /-- `mask_snapshot` of the last call. -/
  snapshot : Mask := 0
  /-- what was executed in the last call. -/
  executed : List Execution := []
  /-- the calls that have returned. -/
  past : List Call := []
  /-- what was executed outside of a call. -/
  late : List Execution := []
  /-- the main thread has made its last call. -/
  finished : Bool := false
  deriving DecidableEq, Repr

inductive Instr where
  -- the main thread, with the bodies of its next calls
  | spreadWork (fs : List ℕ)
  | clearRun (f : ℕ) (e : Word) (fs : List ℕ)
  | setFunc (f : ℕ) (e : Word) (fs : List ℕ)
  | bumpEpoch (f : ℕ) (e : Word) (fs : List ℕ)
  | takeSnapshot (f : ℕ) (fs : List ℕ)
  | resetFinish (f : ℕ) (snapshot : Mask) (fs : List ℕ)
  | publishRun (f : ℕ) (snapshot : Mask) (fs : List ℕ)
  | runMain (f : ℕ) (snapshot : Mask) (fs : List ℕ)
  | waitFinish (snapshot : Mask) (fs : List ℕ)
  -- TrapperTask
  | join (slot : ℕ)
  | loadEpoch (slot : ℕ)
  | loadRun (slot : ℕ) (e : Word)
  | loadFunc (slot : ℕ) (e : Word) (r : Mask)
  | runFunc (slot : ℕ) (e : Word) (r : Mask) (f : ℕ)
  | finish (slot : ℕ) (e : Word)
  | waitEpoch (slot : ℕ) (e : Word)
  | epochAgain (slot : ℕ)
  | waitRun (slot : ℕ) (e : Word)
  | runAgain (slot : ℕ) (e : Word)
  deriving DecidableEq, Repr

inductive Fault where
  /-- a body is called through a null pointer. -/
  | nullFunc
  deriving DecidableEq, Repr

abbrev State := Config Mem Instr
abbrev Step := Outcome Mem Instr Fault

/-- Continue on the same thread. -/
abbrev goto (m : Mem) (push : List Instr) : Step := .next m push []

/-- A body is called for a slot. -/
def Mem.runs (m : Mem) (x : Execution) : Mem :=
  if m.phase = .returned then { m with late := x :: m.late }
  else { m with executed := x :: m.executed }

/-! ## spread_work -/

/-- `uintptr_t e = epoch`, if the main thread makes another call. -/
def spreadWork (m : Mem) : List ℕ → Step
  | [] => goto { m with finished := true } []
  | f :: fs =>
    goto { m with phase := .entered, func := f, executed := [] } [.clearRun f m.epoch fs]

def clearRun (m : Mem) (f : ℕ) (e : Word) (fs : List ℕ) : Step :=
  goto { m with runMask := 0 } [.setFunc f e fs]

def setFunc (m : Mem) (f : ℕ) (e : Word) (fs : List ℕ) : Step :=
  goto { m with funcPtr := some f } [.bumpEpoch f e fs]

def bumpEpoch (m : Mem) (f : ℕ) (e : Word) (fs : List ℕ) : Step :=
  goto { m with epoch := e + 1, phase := .bumped } [.takeSnapshot f fs]

def takeSnapshot (m : Mem) (f : ℕ) (fs : List ℕ) : Step :=
  goto { m with snapshot := m.startMask, phase := .snapped } [.resetFinish f m.startMask fs]

def resetFinish (m : Mem) (f : ℕ) (snapshot : Mask) (fs : List ℕ) : Step :=
  goto { m with finishMask := 0, phase := .reset } [.publishRun f snapshot fs]

def publishRun (m : Mem) (f : ℕ) (snapshot : Mask) (fs : List ℕ) : Step :=
  goto { m with runMask := snapshot ||| 1, phase := .published } [.runMain f snapshot fs]

/-- `f->run(0, mask_snapshot)`. -/
def runMain (m : Mem) (f : ℕ) (snapshot : Mask) (fs : List ℕ) : Step :=
  goto (m.runs ⟨0, f, snapshot⟩) [.waitFinish snapshot fs]

/-- `spin_wait_until_eq(finish_mask, mask_snapshot)` and the return. -/
def waitFinish (m : Mem) (snapshot : Mask) (fs : List ℕ) : Step :=
  if m.finishMask = snapshot then
    goto { m with phase := .returned, past := ⟨m.func, m.snapshot, m.executed⟩ :: m.past }
      [.spreadWork fs]
  else .blocked

/-! ## TrapperTask -/

/-- `global.start_mask.fetch_add(bit)`. -/
def join (m : Mem) (slot : ℕ) : Step :=
  goto { m with startMask := m.startMask + bit slot } [.loadEpoch slot]

def loadEpoch (m : Mem) (slot : ℕ) : Step := goto m [.loadRun slot m.epoch]

/-- The body of the loop, with the value `r` of `run_mask`. -/
def serve (slot : ℕ) (e : Word) (r : Mask) : List Instr :=
  if hasBit r slot then [.loadFunc slot e r] else [.waitEpoch slot e]

def loadRun (m : Mem) (slot : ℕ) (e : Word) : Step := goto m (serve slot e m.runMask)

def loadFunc (m : Mem) (slot : ℕ) (e : Word) (r : Mask) : Step :=
  match m.funcPtr with
  | none => .fault .nullFunc
  | some f => goto m [.runFunc slot e r f]

def runFunc (m : Mem) (slot : ℕ) (e : Word) (r : Mask) (f : ℕ) : Step :=
  goto (m.runs ⟨slot, f, r⟩) [.finish slot e]

/-- `global.finish_mask.fetch_or(bit)`. -/
def finish (m : Mem) (slot : ℕ) (e : Word) : Step :=
  goto { m with finishMask := m.finishMask ||| bit slot } [.waitEpoch slot e]

/-- `spin_wait_while_eq(global.epoch, e)`. -/
def waitEpoch (m : Mem) (slot : ℕ) (e : Word) : Step :=
  if m.epoch = e then .blocked else goto m [.epochAgain slot]

def epochAgain (m : Mem) (slot : ℕ) : Step := goto m [.waitRun slot m.epoch]

/-- `spin_wait_while_eq(global.run_mask, 0U)`. -/
def waitRun (m : Mem) (slot : ℕ) (e : Word) : Step :=
  if m.runMask = 0 then .blocked else goto m [.runAgain slot e]

/-- `r = global.run_mask`, and on to the next round since `global.mode == 2`. -/
def runAgain (m : Mem) (slot : ℕ) (e : Word) : Step := goto m (serve slot e m.runMask)

def exec (m : Mem) (_choice : Bool) : Instr → Step
  | .spreadWork fs => spreadWork m fs
  | .clearRun f e fs => clearRun m f e fs
  | .setFunc f e fs => setFunc m f e fs
  | .bumpEpoch f e fs => bumpEpoch m f e fs
  | .takeSnapshot f fs => takeSnapshot m f fs
  | .resetFinish f s fs => resetFinish m f s fs
  | .publishRun f s fs => publishRun m f s fs
  | .runMain f s fs => runMain m f s fs
  | .waitFinish s fs => waitFinish m s fs
  | .join slot => join m slot
  | .loadEpoch slot => loadEpoch m slot
  | .loadRun slot e => loadRun m slot e
  | .loadFunc slot e r => loadFunc m slot e r
  | .runFunc slot e r f => runFunc m slot e r f
  | .finish slot e => finish m slot e
  | .waitEpoch slot e => waitEpoch m slot e
  | .epochAgain slot => epochAgain m slot
  | .waitRun slot e => waitRun m slot e
  | .runAgain slot e => runAgain m slot e

/-- The slots `RapidStart::init` starts a task for. -/
def workers (maxThreads : ℕ) : List ℕ := List.range' 1 (min maxThreads 64 - 1)

/-- The main thread, which will spread the bodies `fs`, and the tasks of `init`. -/
def start (maxThreads : ℕ) (epoch : Word) (fs : List ℕ) : State where
  mem := { epoch := epoch }
  threads := [.spreadWork fs] :: (workers maxThreads).map fun slot => [.join slot]

/-- A joining task that has read the epoch `e` may read `run_mask` now. Between the store of the
epoch and that of `run_mask` it may not hold the new epoch, unless the snapshot was taken without
its bit; and it may not find its bit set while it holds an old epoch. -/
def inTime (m : Mem) (slot : ℕ) (e : Word) : Bool :=
  if e = m.epoch then
    m.phase ≠ .bumped ∧ (m.phase = .snapped ∨ m.phase = .reset → hasBit m.snapshot slot = false)
  else hasBit m.runMask slot = false

/-- A turn in which no joining task reads `run_mask` at a bad time. -/
def joinsInTime (c : State) (e : Turn) : Bool :=
  match c.threads[e.thread]? with
  | some (.loadRun slot epoch :: _) => inTime c.mem slot epoch
  | _ => true

/-! ## Masks -/

theorem hasBit_eq_getLsbD (mask : Mask) (i : ℕ) : hasBit mask i = mask.getLsbD i := by
  have hbit : bit i = BitVec.twoPow 64 i := rfl
  unfold hasBit
  rw [hbit, BitVec.and_twoPow]
  cases h : mask.getLsbD i with
  | false => simp
  | true =>
    have hne : BitVec.twoPow 64 i ≠ 0#64 := by
      intro hzero
      have hi := congrArg (fun x => x.getLsbD i) hzero
      have hlt : i < 64 := BitVec.lt_of_getLsbD h
      simp [hlt] at hi
    simpa using hne

@[simp] theorem hasBit_zero (i : ℕ) : hasBit 0 i = false := by
  rw [hasBit_eq_getLsbD]
  exact BitVec.getLsbD_zero

@[simp] theorem hasBit_or (a b : Mask) (i : ℕ) : hasBit (a ||| b) i = (hasBit a i || hasBit b i) := by
  simp only [hasBit_eq_getLsbD, BitVec.getLsbD_or]

theorem hasBit_bit {i : ℕ} (hi : i < 64) (j : ℕ) : hasBit (bit i) j = decide (i = j) := by
  have hbit : bit i = BitVec.twoPow 64 i := rfl
  rw [hasBit_eq_getLsbD, hbit, BitVec.getLsbD_twoPow]
  simp [hi]

/-- `mask_snapshot|1` has the bits of the snapshot, apart from bit 0. -/
theorem hasBit_or_one (mask : Mask) {i : ℕ} (hi : 1 ≤ i) : hasBit (mask ||| 1) i = hasBit mask i := by
  have hone : hasBit 1 i = false := by
    have hbit : (1 : Mask) = bit 0 := rfl
    rw [hbit, hasBit_bit (by decide), decide_eq_false (by omega)]
  rw [hasBit_or, hone, Bool.or_false]

/-- Adding a bit that is not set sets it. -/
theorem add_bit {mask : Mask} {i : ℕ} (h : hasBit mask i = false) : mask + bit i = mask ||| bit i := by
  apply BitVec.add_eq_or_of_and_eq_zero
  simpa [hasBit] using h

theorem mask_ext {a b : Mask} (h : ∀ i, hasBit a i = hasBit b i) : a = b := by
  apply BitVec.eq_of_getLsbD_eq
  intro i _
  rw [← hasBit_eq_getLsbD, ← hasBit_eq_getLsbD]
  exact h i

/-! ## The protocol -/

/-- An execution in a call with the body `f` and the snapshot `s`. -/
def Execution.Fits (x : Execution) (f : ℕ) (s : Mask) : Prop :=
  x.func = f ∧ ((x.slot = 0 ∧ x.mask = s) ∨
    (1 ≤ x.slot ∧ hasBit s x.slot = true ∧ x.mask = s ||| 1))

/-- Slot 0 and the bits of the snapshot executed the body, each once. -/
structure Call.Exact (call : Call) : Prop where
  once : (call.executed.map Execution.slot).Nodup
  fits : ∀ x ∈ call.executed, x.Fits call.func call.snapshot
  all : ∀ s, s = 0 ∨ hasBit call.snapshot s = true → s ∈ call.executed.map Execution.slot

/-- The slot has executed the body of the last call. -/
def Done (m : Mem) (s : ℕ) : Prop := s ∈ m.executed.map Execution.slot

/-- The snapshot has been taken. -/
def Phase.taken : Phase → Bool
  | .snapped | .reset | .published => true
  | _ => false

/-- The epoch has been stored and `run_mask` has not. -/
def Phase.hidden : Phase → Bool
  | .bumped | .snapped | .reset => true
  | _ => false

/-- When `run_mask` has the bit of the slot, the slot is awaited. -/
def Unserved (m : Mem) (s : ℕ) : Prop :=
  hasBit m.runMask s = true → m.phase = .published ∧ ¬ Done m s

/-- The call will wait for the slot, or has begun to. -/
def Awaited (m : Mem) (s : ℕ) : Prop :=
  ¬ Done m s ∧ (m.phase = .bumped ∨ (m.phase.taken = true ∧ hasBit m.snapshot s = true))

/-- The call does not wait for the slot, or not any more. -/
def Settled (m : Mem) (s : ℕ) : Prop :=
  m.phase ≠ .bumped ∧ (m.phase.taken = true → hasBit m.snapshot s = true →
    m.phase = .published ∧ hasBit m.finishMask s = true)

/-- The slot is executing the body. -/
def Serving (m : Mem) (s : ℕ) (e : Word) : Prop :=
  e = m.epoch ∧ m.phase = .published ∧ hasBit m.snapshot s = true ∧ hasBit m.finishMask s = false

/-- The bodies of the calls so far and of the next ones are those of the program. -/
def Follows (calls : List ℕ) (m : Mem) (fs : List ℕ) : Prop :=
  (m.past.map Call.func).reverse ++ fs = calls

def fact (calls ws : List ℕ) (m : Mem) : Instr → Prop
  | .spreadWork fs => m.phase = .returned ∧ Follows calls m fs
  | .clearRun f e fs =>
    m.phase = .entered ∧ f = m.func ∧ e = m.epoch ∧ Follows calls m (m.func :: fs)
  | .setFunc f e fs =>
    m.phase = .entered ∧ f = m.func ∧ e = m.epoch ∧ m.runMask = 0 ∧ Follows calls m (m.func :: fs)
  | .bumpEpoch f e fs =>
    m.phase = .entered ∧ f = m.func ∧ e = m.epoch ∧ m.runMask = 0 ∧ m.funcPtr = some m.func ∧
      Follows calls m (m.func :: fs)
  | .takeSnapshot f fs => m.phase = .bumped ∧ f = m.func ∧ Follows calls m (m.func :: fs)
  | .resetFinish f s fs =>
    m.phase = .snapped ∧ f = m.func ∧ s = m.snapshot ∧ Follows calls m (m.func :: fs)
  | .publishRun f s fs =>
    m.phase = .reset ∧ f = m.func ∧ s = m.snapshot ∧ Follows calls m (m.func :: fs)
  | .runMain f s fs =>
    m.phase = .published ∧ f = m.func ∧ s = m.snapshot ∧ ¬ Done m 0 ∧
      Follows calls m (m.func :: fs)
  | .waitFinish s fs =>
    m.phase = .published ∧ s = m.snapshot ∧ Done m 0 ∧ Follows calls m (m.func :: fs)
  | .join slot => slot ∈ ws ∧ hasBit m.startMask slot = false
  | .loadEpoch slot => slot ∈ ws ∧ hasBit m.startMask slot = true ∧ Unserved m slot
  | .loadRun slot e =>
    slot ∈ ws ∧ hasBit m.startMask slot = true ∧
      ((e = m.epoch ∧ Unserved m slot) ∨ (e + 1 = m.epoch ∧ Awaited m slot))
  | .loadFunc slot e r =>
    slot ∈ ws ∧ hasBit m.startMask slot = true ∧ Serving m slot e ∧ ¬ Done m slot ∧
      r = m.snapshot ||| 1
  | .runFunc slot e r f =>
    slot ∈ ws ∧ hasBit m.startMask slot = true ∧ Serving m slot e ∧ ¬ Done m slot ∧
      r = m.snapshot ||| 1 ∧ f = m.func
  | .finish slot e =>
    slot ∈ ws ∧ hasBit m.startMask slot = true ∧ Serving m slot e ∧ Done m slot
  | .waitEpoch slot e =>
    slot ∈ ws ∧ hasBit m.startMask slot = true ∧
      ((e = m.epoch ∧ Settled m slot) ∨ (e + 1 = m.epoch ∧ Awaited m slot))
  | .epochAgain slot => slot ∈ ws ∧ hasBit m.startMask slot = true ∧ Awaited m slot
  | .waitRun slot e =>
    slot ∈ ws ∧ hasBit m.startMask slot = true ∧ e = m.epoch ∧ Awaited m slot
  | .runAgain slot e =>
    slot ∈ ws ∧ hasBit m.startMask slot = true ∧ e = m.epoch ∧ Awaited m slot ∧
      m.phase = .published

/-- What an instruction relies on. Each thread is a single loop. -/
def Relies (calls ws : List ℕ) (m : Mem) (ins : Instr) (rest : List Instr) : Prop :=
  rest = [] ∧ fact calls ws m ins

structure MemOk (calls ws : List ℕ) (m : Mem) : Prop where
  late : m.late = []
  past : ∀ call ∈ m.past, call.Exact
  ended : m.finished = true → (m.past.map Call.func).reverse = calls
  joined : ∀ s, hasBit m.startMask s = true → s ∈ ws
  snapshot : m.phase.taken = true → ∀ s, hasBit m.snapshot s = true → hasBit m.startMask s = true
  run : ∀ s, 1 ≤ s → hasBit m.runMask s = true → hasBit m.startMask s = true
  hidden : m.phase.hidden = true → m.runMask = 0
  fresh : m.phase ≠ .returned → m.phase ≠ .published → m.executed = []
  func : m.phase.hidden = true ∨ m.phase = .published → m.funcPtr = some m.func
  reset : m.phase = .reset → m.finishMask = 0
  published : m.phase = .published → m.runMask = m.snapshot ||| 1 ∧
    (∀ s, hasBit m.finishMask s = true → Done m s ∧ hasBit m.snapshot s = true) ∧
    (m.executed.map Execution.slot).Nodup ∧ ∀ x ∈ m.executed, x.Fits m.func m.snapshot

inductive Right where
  /-- to spread work. -/
  | main
  /-- to be the task of a slot. -/
  | worker (slot : ℕ)
  deriving DecidableEq, Repr

/-- The slot of a task's instruction. -/
def Instr.slot : Instr → Option ℕ
  | .join slot | .loadEpoch slot | .loadRun slot _ | .loadFunc slot _ _ | .runFunc slot _ _ _
  | .finish slot _ | .waitEpoch slot _ | .epochAgain slot | .waitRun slot _ | .runAgain slot _ =>
    some slot
  | _ => none

def tokens (ins : Instr) : Right → ℤ
  | .main => ins.slot.isNone.toNat
  | .worker s => (ins.slot == some s).toNat

def balance (ws : List ℕ) (m : Mem) : Right → ℤ
  | .main => -(!m.finished).toNat
  | .worker s => -(ws.count s : ℤ)

def protocol (calls ws : List ℕ) : Protocol Mem Instr Right where
  balance := balance ws
  tokens := tokens
  memory := MemOk calls ws
  relies := Relies calls ws
  tokens_nonneg ins k := by cases k <;> exact Int.natCast_nonneg _

/-! ## Steps -/

section Steps

variable {calls ws : List ℕ} {m m' : Mem} {ins : Instr} {rest push : List Instr}
variable {spawned : List (List Instr)}

/-- What the step of a task leaves to everybody else. -/
structure Frame (slot : ℕ) (m m' : Mem) : Prop where
  epoch : m'.epoch = m.epoch
  runMask : m'.runMask = m.runMask
  funcPtr : m'.funcPtr = m.funcPtr
  phase : m'.phase = m.phase
  func : m'.func = m.func
  snapshot : m'.snapshot = m.snapshot
  past : m'.past = m.past
  start : ∀ s, s ≠ slot → hasBit m'.startMask s = hasBit m.startMask s
  finish : ∀ s, s ≠ slot → hasBit m'.finishMask s = hasBit m.finishMask s
  done : ∀ s, s ≠ slot → (Done m' s ↔ Done m s)

namespace Frame

variable {slot s : ℕ}

theorem follows (hf : Frame slot m m') (fs : List ℕ) : Follows calls m' fs ↔ Follows calls m fs := by
  unfold Follows
  rw [hf.past]

theorem unserved (hf : Frame slot m m') (hs : s ≠ slot) : Unserved m' s ↔ Unserved m s := by
  unfold Unserved
  rw [hf.runMask, hf.phase, hf.done s hs]

theorem awaited (hf : Frame slot m m') (hs : s ≠ slot) : Awaited m' s ↔ Awaited m s := by
  unfold Awaited
  rw [hf.phase, hf.snapshot, hf.done s hs]

theorem settled (hf : Frame slot m m') (hs : s ≠ slot) : Settled m' s ↔ Settled m s := by
  unfold Settled
  rw [hf.phase, hf.snapshot, hf.finish s hs]

theorem serving (hf : Frame slot m m') (hs : s ≠ slot) (e : Word) :
    Serving m' s e ↔ Serving m s e := by
  unfold Serving
  rw [hf.epoch, hf.phase, hf.snapshot, hf.finish s hs]

/-- Facts of the main thread and of the other tasks stay. -/
theorem fact (hf : Frame slot m m') (hslot : 1 ≤ slot) {other : Instr}
    (hother : other.slot ≠ some slot) (h : fact calls ws m other) :
    Trapper.fact calls ws m' other := by
  have hmain := hf.done 0 (by omega)
  cases hs : other.slot with
  | none =>
    cases other with
    | spreadWork fs => simpa only [Trapper.fact, hf.phase, hf.follows] using h
    | clearRun f e fs =>
      simpa only [Trapper.fact, hf.phase, hf.follows, hf.func, hf.epoch] using h
    | setFunc f e fs =>
      simpa only [Trapper.fact, hf.phase, hf.follows, hf.func, hf.epoch, hf.runMask] using h
    | bumpEpoch f e fs =>
      simpa only [Trapper.fact, hf.phase, hf.follows, hf.func, hf.epoch, hf.runMask, hf.funcPtr]
        using h
    | takeSnapshot f fs => simpa only [Trapper.fact, hf.phase, hf.follows, hf.func] using h
    | resetFinish f s fs =>
      simpa only [Trapper.fact, hf.phase, hf.follows, hf.func, hf.snapshot] using h
    | publishRun f s fs =>
      simpa only [Trapper.fact, hf.phase, hf.follows, hf.func, hf.snapshot] using h
    | runMain f s fs =>
      simpa only [Trapper.fact, hf.phase, hf.follows, hf.func, hf.snapshot, hmain] using h
    | waitFinish s fs =>
      simpa only [Trapper.fact, hf.phase, hf.follows, hf.func, hf.snapshot, hmain] using h
    | _ => cases hs
  | some s =>
    have hne : s ≠ slot := by
      rintro rfl
      exact hother hs
    cases other <;> cases hs <;>
      simpa only [Trapper.fact, hf.start s hne, hf.unserved hne, hf.awaited hne, hf.settled hne,
        hf.serving hne, hf.done s hne, hf.epoch, hf.phase, hf.snapshot, hf.func] using h

end Frame

/-- The step of a task. -/
theorem worker_keeps {slot : ℕ} (h : (protocol calls ws).Enters m ins rest)
    (hnodup : ws.Nodup) (hpos : 1 ≤ slot) (hins : ins.slot = some slot) (hf : Frame slot m m')
    (hfinished : m'.finished = m.finished) (hok : MemOk calls ws m') {next : Instr}
    (hnext : next.slot = some slot) (hfact : fact calls ws m' next) :
    (protocol calls ws).Keeps m ins rest m' [next] [] where
  memory := hok
  conserves k := by
    cases k with
    | main => simp [protocol, balance, tokens, hins, hnext, hfinished]
    | worker s => simp [protocol, balance, tokens, hins, hnext]
  stable other rest' hother hwith := by
    refine ⟨hother.1, hf.fact hpos (fun hsame => ?_) hother.2⟩
    have hcount := List.nodup_iff_count_le_one.mp hnodup slot
    have hk := hwith other List.mem_cons_self (.worker slot)
    simp only [protocol, tokens, hins, hsame, balance, beq_self_eq_true, Bool.toNat_true] at hk
    omega
  push hrest := ⟨⟨h.relies.1, hfact⟩, hrest⟩
  spawned l hl := by cases hl

theorem Frame.refl (slot : ℕ) (m : Mem) : Frame slot m m :=
  ⟨rfl, rfl, rfl, rfl, rfl, rfl, rfl, fun _ _ => rfl, fun _ _ => rfl, fun _ _ => Iff.rfl⟩

/-- A step of a task that changes nothing. -/
theorem same_keeps {slot : ℕ} (h : (protocol calls ws).Enters m ins rest)
    (hnodup : ws.Nodup) (hpos : 1 ≤ slot) (hins : ins.slot = some slot) {next : Instr}
    (hnext : next.slot = some slot) (hfact : fact calls ws m next) :
    (protocol calls ws).Keeps m ins rest m [next] [] :=
  worker_keeps h hnodup hpos hins (.refl slot m) rfl h.memory hnext hfact

/-- The slots of tasks are numbered from 1 and fit in a mask. -/
def SlotsOk (ws : List ℕ) : Prop := ws.Nodup ∧ ∀ s ∈ ws, 1 ≤ s ∧ s < 64

variable {slot : ℕ} {e : Word}

theorem join_keeps (hws : SlotsOk ws) (h : (protocol calls ws).Enters m (.join slot) rest)
    (hstep : join m slot = .next m' push spawned) :
    (protocol calls ws).Keeps m (.join slot) rest m' push spawned := by
  obtain ⟨hslot, hfree⟩ := h.relies.2
  obtain ⟨hpos, hlt⟩ := hws.2 slot hslot
  obtain ⟨rfl, rfl, rfl⟩ := hstep
  have hok := h.memory
  have hstart : ∀ s, hasBit (m.startMask + bit slot) s =
      (hasBit m.startMask s || decide (slot = s)) := by
    intro s
    rw [add_bit hfree, hasBit_or, hasBit_bit hlt]
  have hframe : Frame slot m { m with startMask := m.startMask + bit slot } := by
    refine ⟨rfl, rfl, rfl, rfl, rfl, rfl, rfl, fun s hs => ?_, fun _ _ => rfl, fun _ _ => Iff.rfl⟩
    rw [hstart, decide_eq_false (Ne.symm hs), Bool.or_false]
  have hok' : MemOk calls ws { m with startMask := m.startMask + bit slot } := by
    refine { hok with
      joined := fun s hs => ?_, snapshot := fun htaken s hs => ?_, run := fun s hs hrun => ?_ }
    · rw [hstart, Bool.or_eq_true, decide_eq_true_eq] at hs
      rcases hs with hs | rfl
      · exact hok.joined s hs
      · exact hslot
    · rw [hstart, hok.snapshot htaken s hs, Bool.true_or]
    · rw [hstart, hok.run s hs hrun, Bool.true_or]
  have hfact : fact calls ws { m with startMask := m.startMask + bit slot } (.loadEpoch slot) := by
    refine ⟨hslot, ?_, fun hrun => ?_⟩
    · rw [hstart, decide_eq_true rfl, Bool.or_true]
    · -- no published mask has the bit of a slot that has not joined
      rw [hok.run slot hpos hrun] at hfree
      cases hfree
  exact worker_keeps h hws.1 hpos rfl hframe rfl hok' rfl hfact

theorem loadEpoch_keeps (hws : SlotsOk ws) (h : (protocol calls ws).Enters m (.loadEpoch slot) rest)
    (hstep : loadEpoch m slot = .next m' push spawned) :
    (protocol calls ws).Keeps m (.loadEpoch slot) rest m' push spawned := by
  obtain ⟨hslot, hstart, hunserved⟩ := h.relies.2
  obtain ⟨rfl, rfl, rfl⟩ := hstep
  have hfact : fact calls ws m (.loadRun slot m.epoch) := ⟨hslot, hstart, .inl ⟨rfl, hunserved⟩⟩
  exact same_keeps h hws.1 (hws.2 slot hslot).1 rfl rfl hfact

/-- A published mask has the bit of a slot that is not done: the slot serves the call. -/
theorem serve_fact (hok : MemOk calls ws m) (hslot : slot ∈ ws) (hpos : 1 ≤ slot)
    (hstart : hasBit m.startMask slot = true) (he : e = m.epoch)
    (hrun : hasBit m.runMask slot = true) (hphase : m.phase = .published)
    (hdone : ¬ Done m slot) : fact calls ws m (.loadFunc slot e m.runMask) := by
  obtain ⟨hmask, hfinish, -⟩ := hok.published hphase
  rw [hmask, hasBit_or_one _ hpos] at hrun
  have hfree : hasBit m.finishMask slot = false := by
    by_contra hset
    rw [Bool.not_eq_false] at hset
    exact hdone (hfinish slot hset).1
  exact ⟨hslot, hstart, ⟨he, hphase, hrun, hfree⟩, hdone, hmask⟩

theorem loadRun_keeps (hws : SlotsOk ws) (h : (protocol calls ws).Enters m (.loadRun slot e) rest)
    (htime : inTime m slot e = true) (hstep : loadRun m slot e = .next m' push spawned) :
    (protocol calls ws).Keeps m (.loadRun slot e) rest m' push spawned := by
  obtain ⟨hslot, hstart, hcase⟩ := h.relies.2
  obtain ⟨hpos, -⟩ := hws.2 slot hslot
  obtain ⟨rfl, rfl, rfl⟩ := hstep
  have hnext : e + 1 = m.epoch → e ≠ m.epoch := by
    rintro hlag rfl
    exact absurd hlag (by simp)
  unfold serve
  split
  · rename_i hrun
    rcases hcase with ⟨he, hunserved⟩ | ⟨hlag, -⟩
    · obtain ⟨hphase, hdone⟩ := hunserved hrun
      have hfact : fact calls ws m (.loadFunc slot e m.runMask) :=
        serve_fact h.memory hslot hpos hstart he hrun hphase hdone
      exact same_keeps h hws.1 hpos rfl rfl hfact
    · rw [inTime, if_neg (hnext hlag), decide_eq_true_eq, hrun] at htime
      cases htime
  · rename_i hrun
    have hfact : fact calls ws m (.waitEpoch slot e) := by
      refine ⟨hslot, hstart, hcase.imp (fun ⟨he, _⟩ => ⟨he, ?_⟩) id⟩
      rw [inTime, if_pos he, decide_eq_true_eq] at htime
      refine ⟨htime.1, fun htaken hset => ?_⟩
      cases hphase : m.phase with
      | snapped =>
        rw [htime.2 (.inl hphase)] at hset
        cases hset
      | reset =>
        rw [htime.2 (.inr hphase)] at hset
        cases hset
      | published =>
        rw [(h.memory.published hphase).1, hasBit_or_one _ hpos] at hrun
        exact absurd hset hrun
      | _ =>
        rw [hphase] at htaken
        cases htaken
    exact same_keeps h hws.1 hpos rfl rfl hfact

theorem loadFunc_keeps {r : Mask} (hws : SlotsOk ws)
    (h : (protocol calls ws).Enters m (.loadFunc slot e r) rest)
    (hstep : loadFunc m slot e r = .next m' push spawned) :
    (protocol calls ws).Keeps m (.loadFunc slot e r) rest m' push spawned := by
  obtain ⟨hslot, hstart, hserving, hdone, hr⟩ := h.relies.2
  have hfunc := h.memory.func (.inr hserving.2.1)
  simp only [loadFunc, hfunc] at hstep
  obtain ⟨rfl, rfl, rfl⟩ := hstep
  have hfact : fact calls ws m (.runFunc slot e r m.func) :=
    ⟨hslot, hstart, hserving, hdone, hr, rfl⟩
  exact same_keeps h hws.1 (hws.2 slot hslot).1 rfl rfl hfact

/-- A body runs in the call that has published it. -/
theorem runs_published (hphase : m.phase = .published) (x : Execution) :
    m.runs x = { m with executed := x :: m.executed } := by
  rw [Mem.runs, if_neg (by rw [hphase]; decide)]

theorem done_cons (x : Execution) (s : ℕ) :
    Done { m with executed := x :: m.executed } s ↔ s = x.slot ∨ Done m s := by
  simp only [Done, List.map_cons, List.mem_cons]

/-- A slot that executes the body of the call for the first time. -/
theorem memOk_runs (hok : MemOk calls ws m) (hphase : m.phase = .published) {x : Execution}
    (hdone : ¬ Done m x.slot) (hfits : x.Fits m.func m.snapshot) :
    MemOk calls ws { m with executed := x :: m.executed } := by
  obtain ⟨hmask, hfinish, hnodup, hall⟩ := hok.published hphase
  refine { hok with fresh := fun _ hne => absurd hphase hne, published := fun _ => ⟨hmask, ?_, ?_, ?_⟩ }
  · intro s hs
    obtain ⟨hdone, hset⟩ := hfinish s hs
    exact ⟨(done_cons x s).mpr (.inr hdone), hset⟩
  · rw [List.map_cons]
    exact List.nodup_cons.mpr ⟨hdone, hnodup⟩
  · intro y hy
    rcases List.mem_cons.mp hy with rfl | hy
    · exact hfits
    · exact hall y hy

theorem runFunc_keeps {r : Mask} {f : ℕ} (hws : SlotsOk ws)
    (h : (protocol calls ws).Enters m (.runFunc slot e r f) rest)
    (hstep : runFunc m slot e r f = .next m' push spawned) :
    (protocol calls ws).Keeps m (.runFunc slot e r f) rest m' push spawned := by
  obtain ⟨hslot, hstart, hserving, hdone, rfl, rfl⟩ := h.relies.2
  obtain ⟨hpos, -⟩ := hws.2 slot hslot
  have hphase := hserving.2.1
  rw [runFunc, runs_published hphase] at hstep
  obtain ⟨rfl, rfl, rfl⟩ := hstep
  have hframe : Frame slot m
      { m with executed := ⟨slot, m.func, m.snapshot ||| 1⟩ :: m.executed } := by
    refine ⟨rfl, rfl, rfl, rfl, rfl, rfl, rfl, fun _ _ => rfl, fun _ _ => rfl, fun s hs => ?_⟩
    rw [done_cons, or_iff_right hs]
  have hok : MemOk calls ws { m with executed := ⟨slot, m.func, m.snapshot ||| 1⟩ :: m.executed } :=
    memOk_runs h.memory hphase hdone ⟨rfl, .inr ⟨hpos, hserving.2.2.1, rfl⟩⟩
  have hfact : fact calls ws
      { m with executed := ⟨slot, m.func, m.snapshot ||| 1⟩ :: m.executed } (.finish slot e) :=
    ⟨hslot, hstart, hserving, (done_cons _ _).mpr (.inl rfl)⟩
  exact worker_keeps h hws.1 hpos rfl hframe rfl hok rfl hfact

theorem finish_keeps (hws : SlotsOk ws) (h : (protocol calls ws).Enters m (.finish slot e) rest)
    (hstep : finish m slot e = .next m' push spawned) :
    (protocol calls ws).Keeps m (.finish slot e) rest m' push spawned := by
  obtain ⟨hslot, hstart, ⟨he, hphase, hset, -⟩, hdone⟩ := h.relies.2
  obtain ⟨hpos, hlt⟩ := hws.2 slot hslot
  obtain ⟨rfl, rfl, rfl⟩ := hstep
  have hfinish : ∀ s, hasBit (m.finishMask ||| bit slot) s =
      (hasBit m.finishMask s || decide (slot = s)) := by
    intro s
    rw [hasBit_or, hasBit_bit hlt]
  have hframe : Frame slot m { m with finishMask := m.finishMask ||| bit slot } := by
    refine ⟨rfl, rfl, rfl, rfl, rfl, rfl, rfl, fun _ _ => rfl, fun s hs => ?_, fun _ _ => Iff.rfl⟩
    rw [hfinish, decide_eq_false (Ne.symm hs), Bool.or_false]
  have hok : MemOk calls ws { m with finishMask := m.finishMask ||| bit slot } := by
    have hok := h.memory
    obtain ⟨hmask, hbefore, hrest⟩ := hok.published hphase
    refine { hok with
      reset := fun hreset => ?_, published := fun _ => ⟨hmask, fun s hs => ?_, hrest⟩ }
    · rw [hphase] at hreset
      cases hreset
    · rw [hfinish, Bool.or_eq_true, decide_eq_true_eq] at hs
      rcases hs with hs | rfl
      · exact hbefore s hs
      · exact ⟨hdone, hset⟩
  have hfact : fact calls ws { m with finishMask := m.finishMask ||| bit slot }
      (.waitEpoch slot e) := by
    refine ⟨hslot, hstart, .inl ⟨he, fun hbumped => ?_, fun _ _ => ⟨hphase, ?_⟩⟩⟩
    · rw [hphase] at hbumped
      cases hbumped
    · rw [hfinish, decide_eq_true rfl, Bool.or_true]
  exact worker_keeps h hws.1 hpos rfl hframe rfl hok rfl hfact

theorem waitEpoch_keeps (hws : SlotsOk ws)
    (h : (protocol calls ws).Enters m (.waitEpoch slot e) rest)
    (hstep : waitEpoch m slot e = .next m' push spawned) :
    (protocol calls ws).Keeps m (.waitEpoch slot e) rest m' push spawned := by
  obtain ⟨hslot, hstart, hcase⟩ := h.relies.2
  unfold waitEpoch at hstep
  split at hstep
  · cases hstep
  · rename_i hne
    obtain ⟨rfl, rfl, rfl⟩ := hstep
    have hawaited : Awaited m slot := by
      rcases hcase with ⟨he, -⟩ | ⟨-, hawaited⟩
      · exact absurd he.symm hne
      · exact hawaited
    have hfact : fact calls ws m (.epochAgain slot) := ⟨hslot, hstart, hawaited⟩
    exact same_keeps h hws.1 (hws.2 slot hslot).1 rfl rfl hfact

theorem epochAgain_keeps (hws : SlotsOk ws)
    (h : (protocol calls ws).Enters m (.epochAgain slot) rest)
    (hstep : epochAgain m slot = .next m' push spawned) :
    (protocol calls ws).Keeps m (.epochAgain slot) rest m' push spawned := by
  obtain ⟨hslot, hstart, hawaited⟩ := h.relies.2
  obtain ⟨rfl, rfl, rfl⟩ := hstep
  have hfact : fact calls ws m (.waitRun slot m.epoch) := ⟨hslot, hstart, rfl, hawaited⟩
  exact same_keeps h hws.1 (hws.2 slot hslot).1 rfl rfl hfact

/-- While `run_mask` is hidden it is zero. -/
theorem published_of_awaited (hok : MemOk calls ws m) (hawaited : Awaited m slot) (hrun : m.runMask ≠ 0) :
    m.phase = .published := by
  cases hphase : m.phase with
  | published => rfl
  | returned => simp [Awaited, hphase, Phase.taken] at hawaited
  | entered => simp [Awaited, hphase, Phase.taken] at hawaited
  | _ => exact absurd (hok.hidden (by rw [hphase]; rfl)) hrun

theorem waitRun_keeps (hws : SlotsOk ws)
    (h : (protocol calls ws).Enters m (.waitRun slot e) rest)
    (hstep : waitRun m slot e = .next m' push spawned) :
    (protocol calls ws).Keeps m (.waitRun slot e) rest m' push spawned := by
  obtain ⟨hslot, hstart, he, hawaited⟩ := h.relies.2
  unfold waitRun at hstep
  split at hstep
  · cases hstep
  · rename_i hrun
    obtain ⟨rfl, rfl, rfl⟩ := hstep
    have hfact : fact calls ws m (.runAgain slot e) :=
      ⟨hslot, hstart, he, hawaited, published_of_awaited h.memory hawaited hrun⟩
    exact same_keeps h hws.1 (hws.2 slot hslot).1 rfl rfl hfact

theorem runAgain_keeps (hws : SlotsOk ws)
    (h : (protocol calls ws).Enters m (.runAgain slot e) rest)
    (hstep : runAgain m slot e = .next m' push spawned) :
    (protocol calls ws).Keeps m (.runAgain slot e) rest m' push spawned := by
  obtain ⟨hslot, hstart, he, hawaited, hphase⟩ := h.relies.2
  obtain ⟨hpos, -⟩ := hws.2 slot hslot
  obtain ⟨rfl, rfl, rfl⟩ := hstep
  have hrun : hasBit m.runMask slot = true := by
    have hset : hasBit m.snapshot slot = true := by
      simpa [hphase, Phase.taken] using hawaited.2
    rw [(h.memory.published hphase).1, hasBit_or_one _ hpos, hset]
  have hfact : fact calls ws m (.loadFunc slot e m.runMask) :=
    serve_fact h.memory hslot hpos hstart he hrun hphase hawaited.1
  rw [serve, if_pos hrun]
  exact same_keeps h hws.1 hpos rfl rfl hfact

/-! ### The main thread -/

/-- What the step of the main thread leaves to the tasks that have joined. -/
structure Carries (m m' : Mem) : Prop where
  start : m'.startMask = m.startMask
  unserved : ∀ s, 1 ≤ s → Unserved m s → Unserved m' s ∧
    (m'.epoch = m.epoch ∨ (m'.epoch = m.epoch + 1 ∧ Awaited m' s))
  awaited : ∀ s, 1 ≤ s → hasBit m.startMask s = true → Awaited m s →
    Awaited m' s ∧ m'.epoch = m.epoch ∧ (m.phase = .published → m'.phase = .published)
  settled : ∀ s, 1 ≤ s → Settled m s → (m'.epoch = m.epoch ∧ Settled m' s) ∨
    (m'.epoch = m.epoch + 1 ∧ Awaited m' s)
  serving : ∀ s e, 1 ≤ s → Serving m s e → Serving m' s e ∧ m'.snapshot = m.snapshot ∧
    m'.func = m.func ∧ (Done m' s ↔ Done m s)

theorem Carries.fact (hws : SlotsOk ws) (hc : Carries m m') {other : Instr} {s : ℕ}
    (hother : other.slot = some s) (h : fact calls ws m other) :
    Trapper.fact calls ws m' other := by
  cases other with
  | join slot =>
    cases hother
    exact ⟨h.1, by rw [hc.start, h.2]⟩
  | loadEpoch slot =>
    cases hother
    obtain ⟨hslot, hstart, hunserved⟩ := h
    exact ⟨hslot, by rw [hc.start, hstart], (hc.unserved s (hws.2 s hslot).1 hunserved).1⟩
  | loadRun slot e =>
    cases hother
    obtain ⟨hslot, hstart, hcase⟩ := h
    obtain ⟨hpos, -⟩ := hws.2 s hslot
    refine ⟨hslot, by rw [hc.start, hstart], ?_⟩
    rcases hcase with ⟨rfl, hunserved⟩ | ⟨hlag, hawaited⟩
    · obtain ⟨hkept, hsame | ⟨hnext, hawaited⟩⟩ := hc.unserved s hpos hunserved
      · exact .inl ⟨hsame.symm, hkept⟩
      · exact .inr ⟨hnext.symm, hawaited⟩
    · obtain ⟨hkept, hsame, -⟩ := hc.awaited s hpos hstart hawaited
      exact .inr ⟨by rw [hsame, hlag], hkept⟩
  | loadFunc slot e r =>
    cases hother
    obtain ⟨hslot, hstart, hserving, hdone, hr⟩ := h
    obtain ⟨hkept, hsnapshot, -, hiff⟩ := hc.serving s e (hws.2 s hslot).1 hserving
    exact ⟨hslot, by rw [hc.start, hstart], hkept, by rwa [hiff], by rw [hsnapshot, hr]⟩
  | runFunc slot e r f =>
    cases hother
    obtain ⟨hslot, hstart, hserving, hdone, hr, hfunc⟩ := h
    obtain ⟨hkept, hsnapshot, hsame, hiff⟩ := hc.serving s e (hws.2 s hslot).1 hserving
    exact ⟨hslot, by rw [hc.start, hstart], hkept, by rwa [hiff], by rw [hsnapshot, hr],
      by rw [hsame, hfunc]⟩
  | finish slot e =>
    cases hother
    obtain ⟨hslot, hstart, hserving, hdone⟩ := h
    obtain ⟨hkept, -, -, hiff⟩ := hc.serving s e (hws.2 s hslot).1 hserving
    exact ⟨hslot, by rw [hc.start, hstart], hkept, hiff.mpr hdone⟩
  | waitEpoch slot e =>
    cases hother
    obtain ⟨hslot, hstart, hcase⟩ := h
    obtain ⟨hpos, -⟩ := hws.2 s hslot
    refine ⟨hslot, by rw [hc.start, hstart], ?_⟩
    rcases hcase with ⟨rfl, hsettled⟩ | ⟨hlag, hawaited⟩
    · exact (hc.settled s hpos hsettled).imp (fun ⟨hsame, hkept⟩ => ⟨hsame.symm, hkept⟩)
        fun ⟨hnext, hawaited⟩ => ⟨hnext.symm, hawaited⟩
    · obtain ⟨hkept, hsame, -⟩ := hc.awaited s hpos hstart hawaited
      exact .inr ⟨by rw [hsame, hlag], hkept⟩
  | epochAgain slot =>
    cases hother
    obtain ⟨hslot, hstart, hawaited⟩ := h
    exact ⟨hslot, by rw [hc.start, hstart], (hc.awaited s (hws.2 s hslot).1 hstart hawaited).1⟩
  | waitRun slot e =>
    cases hother
    obtain ⟨hslot, hstart, he, hawaited⟩ := h
    obtain ⟨hkept, hsame, -⟩ := hc.awaited s (hws.2 s hslot).1 hstart hawaited
    exact ⟨hslot, by rw [hc.start, hstart], by rw [hsame, he], hkept⟩
  | runAgain slot e =>
    cases hother
    obtain ⟨hslot, hstart, he, hawaited, hphase⟩ := h
    obtain ⟨hkept, hsame, hstill⟩ := hc.awaited s (hws.2 s hslot).1 hstart hawaited
    exact ⟨hslot, by rw [hc.start, hstart], by rw [hsame, he], hkept, hstill hphase⟩
  | _ => cases hother

/-- The step of the main thread. -/
theorem main_keeps (hws : SlotsOk ws) (h : (protocol calls ws).Enters m ins rest)
    (hins : ins.slot = none) (hc : Carries m m') (hfinished : m'.finished = m.finished)
    (hok : MemOk calls ws m') {next : Instr} (hnext : next.slot = none)
    (hfact : fact calls ws m' next) : (protocol calls ws).Keeps m ins rest m' [next] [] where
  memory := hok
  conserves k := by
    cases k with
    | main => simp [protocol, balance, tokens, hins, hnext, hfinished]
    | worker s => simp [protocol, balance, tokens, hins, hnext]
  stable other rest' hother hwith := by
    refine ⟨hother.1, ?_⟩
    cases hs : other.slot with
    | none =>
      have hk := hwith other List.mem_cons_self .main
      simp only [protocol, tokens, hins, hs, balance, Option.isNone_none, Bool.toNat_true] at hk
      have hle := Bool.toNat_le (!m.finished)
      omega
    | some s => exact hc.fact hws hs hother.2
  push hrest := ⟨⟨h.relies.1, hfact⟩, hrest⟩
  spawned l hl := by cases hl

/-- The main thread has not left while it takes a step. -/
theorem not_finished (h : (protocol calls ws).Enters m ins rest) (hins : ins.slot = none) :
    m.finished = false := by
  by_contra hset
  rw [Bool.not_eq_false] at hset
  have hk := h.covered .main
  simp [protocol, tokens, balance, hins, hset] at hk

theorem not_run (h : Unserved m slot) (hphase : m.phase ≠ .published) :
    hasBit m.runMask slot = false := by
  by_contra hset
  rw [Bool.not_eq_false] at hset
  exact hphase (h hset).1

theorem not_awaited (hphase : m.phase = .returned ∨ m.phase = .entered) : ¬ Awaited m slot := by
  rintro ⟨-, hcase⟩
  rcases hphase with hphase | hphase <;> simp [hphase, Phase.taken] at hcase

theorem settled_of_phase (hphase : m.phase = .returned ∨ m.phase = .entered) : Settled m slot := by
  rcases hphase with hphase | hphase <;> simp [Settled, hphase, Phase.taken]

theorem not_serving {e : Word} (hphase : m.phase ≠ .published) : ¬ Serving m slot e :=
  fun h => hphase h.2.1

theorem not_done (h : m.executed = []) : ¬ Done m slot := by
  simp [Done, h]

/-- Before the epoch is stored nobody waits for the call. -/
theorem carries_entered (hstart : m'.startMask = m.startMask) (hepoch : m'.epoch = m.epoch)
    (hrun : m'.runMask = m.runMask ∨ m'.runMask = 0)
    (hbefore : m.phase = .returned ∨ m.phase = .entered) (hphase : m'.phase = .entered) :
    Carries m m' := by
  have hne : m.phase ≠ .published := by
    rcases hbefore with hbefore | hbefore <;> simp [hbefore]
  refine ⟨hstart, fun s _ hun => ⟨fun hset => ?_, .inl hepoch⟩,
    fun s _ _ hawaited => absurd hawaited (not_awaited hbefore),
    fun s _ _ => .inl ⟨hepoch, settled_of_phase (.inr hphase)⟩,
    fun s e _ hserving => absurd hserving (not_serving hne)⟩
  rcases hrun with hrun | hrun
  · rw [hrun, not_run hun hne] at hset
    cases hset
  · rw [hrun, hasBit_zero] at hset
    cases hset

theorem spreadWork_keeps {f : ℕ} {fs : List ℕ} (hws : SlotsOk ws)
    (h : (protocol calls ws).Enters m (.spreadWork (f :: fs)) rest)
    (hstep : spreadWork m (f :: fs) = .next m' push spawned) :
    (protocol calls ws).Keeps m (.spreadWork (f :: fs)) rest m' push spawned := by
  obtain ⟨hphase, hfollows⟩ := h.relies.2
  obtain ⟨rfl, rfl, rfl⟩ := hstep
  have hok := h.memory
  have hc : Carries m { m with phase := .entered, func := f, executed := [] } :=
    carries_entered rfl rfl (.inl rfl) (.inl hphase) rfl
  have hok' : MemOk calls ws { m with phase := .entered, func := f, executed := [] } :=
    { hok with
      snapshot := fun htaken => by cases htaken
      hidden := fun hhidden => by cases hhidden
      fresh := fun _ _ => rfl
      func := fun hcase => by rcases hcase with hcase | hcase <;> cases hcase
      reset := fun hreset => by cases hreset
      published := fun hpublished => by cases hpublished }
  have hfact : fact calls ws { m with phase := .entered, func := f, executed := [] }
      (.clearRun f m.epoch fs) := ⟨rfl, rfl, rfl, hfollows⟩
  exact main_keeps hws h rfl hc rfl hok' rfl hfact

theorem clearRun_keeps {f : ℕ} {fs : List ℕ} (hws : SlotsOk ws)
    (h : (protocol calls ws).Enters m (.clearRun f e fs) rest)
    (hstep : clearRun m f e fs = .next m' push spawned) :
    (protocol calls ws).Keeps m (.clearRun f e fs) rest m' push spawned := by
  obtain ⟨hphase, rfl, rfl, hfollows⟩ := h.relies.2
  obtain ⟨rfl, rfl, rfl⟩ := hstep
  have hok := h.memory
  have hc : Carries m { m with runMask := 0 } :=
    carries_entered rfl rfl (.inr rfl) (.inr hphase) hphase
  have hok' : MemOk calls ws { m with runMask := 0 } := by
    refine { hok with
      run := fun s _ hset => ?_, hidden := fun _ => rfl, published := fun hpublished => ?_ }
    · rw [hasBit_zero] at hset
      cases hset
    · rw [hphase] at hpublished
      cases hpublished
  have hfact : fact calls ws { m with runMask := 0 } (.setFunc m.func m.epoch fs) :=
    ⟨hphase, rfl, rfl, rfl, hfollows⟩
  exact main_keeps hws h rfl hc rfl hok' rfl hfact

theorem setFunc_keeps {f : ℕ} {fs : List ℕ} (hws : SlotsOk ws)
    (h : (protocol calls ws).Enters m (.setFunc f e fs) rest)
    (hstep : setFunc m f e fs = .next m' push spawned) :
    (protocol calls ws).Keeps m (.setFunc f e fs) rest m' push spawned := by
  obtain ⟨hphase, rfl, rfl, hrun, hfollows⟩ := h.relies.2
  obtain ⟨rfl, rfl, rfl⟩ := hstep
  have hok := h.memory
  have hc : Carries m { m with funcPtr := some m.func } :=
    carries_entered rfl rfl (.inl rfl) (.inr hphase) hphase
  have hok' : MemOk calls ws { m with funcPtr := some m.func } := { hok with func := fun _ => rfl }
  have hfact : fact calls ws { m with funcPtr := some m.func } (.bumpEpoch m.func m.epoch fs) :=
    ⟨hphase, rfl, rfl, hrun, rfl, hfollows⟩
  exact main_keeps hws h rfl hc rfl hok' rfl hfact

theorem bumpEpoch_keeps {f : ℕ} {fs : List ℕ} (hws : SlotsOk ws)
    (h : (protocol calls ws).Enters m (.bumpEpoch f e fs) rest)
    (hstep : bumpEpoch m f e fs = .next m' push spawned) :
    (protocol calls ws).Keeps m (.bumpEpoch f e fs) rest m' push spawned := by
  obtain ⟨hphase, rfl, rfl, hrun, hfunc, hfollows⟩ := h.relies.2
  obtain ⟨rfl, rfl, rfl⟩ := hstep
  have hok := h.memory
  have hnone : m.executed = [] := hok.fresh (by simp [hphase]) (by simp [hphase])
  have hawaited : ∀ s, Awaited { m with epoch := m.epoch + 1, phase := .bumped } s :=
    fun s => ⟨not_done hnone, .inl rfl⟩
  have hc : Carries m { m with epoch := m.epoch + 1, phase := .bumped } := by
    refine ⟨rfl, fun s _ _ => ⟨fun hset => ?_, .inr ⟨rfl, hawaited s⟩⟩,
      fun s _ _ hbefore => absurd hbefore (not_awaited (.inr hphase)),
      fun s _ _ => .inr ⟨rfl, hawaited s⟩,
      fun s e _ hserving => absurd hserving (not_serving (by simp [hphase]))⟩
    dsimp only at hset
    rw [hrun, hasBit_zero] at hset
    cases hset
  have hok' : MemOk calls ws { m with epoch := m.epoch + 1, phase := .bumped } :=
    { hok with
      snapshot := fun htaken => by cases htaken
      hidden := fun _ => hrun
      fresh := fun _ _ => hnone
      func := fun _ => hfunc
      reset := fun hreset => by cases hreset
      published := fun hpublished => by cases hpublished }
  have hfact : fact calls ws { m with epoch := m.epoch + 1, phase := .bumped }
      (.takeSnapshot m.func fs) := ⟨rfl, rfl, hfollows⟩
  exact main_keeps hws h rfl hc rfl hok' rfl hfact

theorem takeSnapshot_keeps {f : ℕ} {fs : List ℕ} (hws : SlotsOk ws)
    (h : (protocol calls ws).Enters m (.takeSnapshot f fs) rest)
    (hstep : takeSnapshot m f fs = .next m' push spawned) :
    (protocol calls ws).Keeps m (.takeSnapshot f fs) rest m' push spawned := by
  obtain ⟨hphase, rfl, hfollows⟩ := h.relies.2
  obtain ⟨rfl, rfl, rfl⟩ := hstep
  have hok := h.memory
  have hnone : m.executed = [] := hok.fresh (by simp [hphase]) (by simp [hphase])
  have hhidden : m.phase.hidden = true := by rw [hphase]; rfl
  have hrun := hok.hidden hhidden
  have hc : Carries m { m with snapshot := m.startMask, phase := .snapped } := by
    refine ⟨rfl, fun s _ _ => ⟨fun hset => ?_, .inl rfl⟩,
      fun s _ hstart _ => ⟨⟨not_done hnone, .inr ⟨rfl, hstart⟩⟩, rfl, fun hpublished => ?_⟩,
      fun s _ hsettled => absurd hphase hsettled.1,
      fun s e _ hserving => absurd hserving (not_serving (by simp [hphase]))⟩
    · dsimp only at hset
      rw [hrun, hasBit_zero] at hset
      cases hset
    · rw [hphase] at hpublished
      cases hpublished
  have hok' : MemOk calls ws { m with snapshot := m.startMask, phase := .snapped } :=
    { hok with
      snapshot := fun _ _ hset => hset
      hidden := fun _ => hrun
      fresh := fun _ _ => hnone
      func := fun _ => hok.func (.inl hhidden)
      reset := fun hreset => by cases hreset
      published := fun hpublished => by cases hpublished }
  have hfact : fact calls ws { m with snapshot := m.startMask, phase := .snapped }
      (.resetFinish m.func m.startMask fs) := ⟨rfl, rfl, rfl, hfollows⟩
  exact main_keeps hws h rfl hc rfl hok' rfl hfact

/-- While the snapshot is taken and not published, a slot is settled only when it is not in it. -/
theorem not_snapshot (hsettled : Settled m slot) (htaken : m.phase.taken = true)
    (hphase : m.phase ≠ .published) : hasBit m.snapshot slot = false := by
  by_contra hset
  rw [Bool.not_eq_false] at hset
  exact hphase (hsettled.2 htaken hset).1

theorem resetFinish_keeps {f : ℕ} {s : Mask} {fs : List ℕ} (hws : SlotsOk ws)
    (h : (protocol calls ws).Enters m (.resetFinish f s fs) rest)
    (hstep : resetFinish m f s fs = .next m' push spawned) :
    (protocol calls ws).Keeps m (.resetFinish f s fs) rest m' push spawned := by
  obtain ⟨hphase, rfl, rfl, hfollows⟩ := h.relies.2
  obtain ⟨rfl, rfl, rfl⟩ := hstep
  have hok := h.memory
  have hnone : m.executed = [] := hok.fresh (by simp [hphase]) (by simp [hphase])
  have hhidden : m.phase.hidden = true := by rw [hphase]; rfl
  have htaken : m.phase.taken = true := by rw [hphase]; rfl
  have hne : m.phase ≠ .published := by simp [hphase]
  have hrun := hok.hidden hhidden
  have hc : Carries m { m with finishMask := 0, phase := .reset } := by
    refine ⟨rfl, fun s _ _ => ⟨fun hset => ?_, .inl rfl⟩,
      fun s _ _ hawaited => ⟨⟨not_done hnone, .inr ⟨rfl, ?_⟩⟩, rfl, fun hpublished => ?_⟩,
      fun s _ hsettled => .inl ⟨rfl, fun hbumped => (by cases hbumped), fun _ hset => ?_⟩,
      fun s e _ hserving => absurd hserving (not_serving hne)⟩
    · dsimp only at hset
      rw [hrun, hasBit_zero] at hset
      cases hset
    · simpa [hphase, Phase.taken] using hawaited.2
    · exact absurd hpublished hne
    · dsimp only at hset
      rw [not_snapshot hsettled htaken hne] at hset
      cases hset
  have hok' : MemOk calls ws { m with finishMask := 0, phase := .reset } :=
    { hok with
      snapshot := fun _ => hok.snapshot htaken
      hidden := fun _ => hrun
      fresh := fun _ _ => hnone
      func := fun _ => hok.func (.inl hhidden)
      reset := fun _ => rfl
      published := fun hpublished => by cases hpublished }
  have hfact : fact calls ws { m with finishMask := 0, phase := .reset }
      (.publishRun m.func m.snapshot fs) := ⟨rfl, rfl, rfl, hfollows⟩
  exact main_keeps hws h rfl hc rfl hok' rfl hfact

theorem publishRun_keeps {f : ℕ} {s : Mask} {fs : List ℕ} (hws : SlotsOk ws)
    (h : (protocol calls ws).Enters m (.publishRun f s fs) rest)
    (hstep : publishRun m f s fs = .next m' push spawned) :
    (protocol calls ws).Keeps m (.publishRun f s fs) rest m' push spawned := by
  obtain ⟨hphase, rfl, rfl, hfollows⟩ := h.relies.2
  obtain ⟨rfl, rfl, rfl⟩ := hstep
  have hok := h.memory
  have hnone : m.executed = [] := hok.fresh (by simp [hphase]) (by simp [hphase])
  have hhidden : m.phase.hidden = true := by rw [hphase]; rfl
  have htaken : m.phase.taken = true := by rw [hphase]; rfl
  have hne : m.phase ≠ .published := by simp [hphase]
  have hc : Carries m { m with runMask := m.snapshot ||| 1, phase := .published } := by
    refine ⟨rfl, fun s _ _ => ⟨fun _ => ⟨rfl, not_done hnone⟩, .inl rfl⟩,
      fun s _ _ hawaited => ⟨⟨not_done hnone, .inr ⟨rfl, ?_⟩⟩, rfl, fun _ => rfl⟩,
      fun s _ hsettled => .inl ⟨rfl, fun hbumped => (by cases hbumped), fun _ hset => ?_⟩,
      fun s e _ hserving => absurd hserving (not_serving hne)⟩
    · simpa [hphase, Phase.taken] using hawaited.2
    · dsimp only at hset
      rw [not_snapshot hsettled htaken hne] at hset
      cases hset
  have hok' : MemOk calls ws { m with runMask := m.snapshot ||| 1, phase := .published } := by
    refine { hok with
      snapshot := fun _ => hok.snapshot htaken
      run := fun s hpos hset => ?_
      hidden := fun hhidden => by cases hhidden
      fresh := fun _ hne => absurd rfl hne
      func := fun _ => hok.func (.inl hhidden)
      reset := fun hreset => by cases hreset
      published := fun _ => ⟨rfl, fun s hset => ?_, ?_, ?_⟩ }
    · dsimp only at hset
      rw [hasBit_or_one _ hpos] at hset
      exact hok.snapshot htaken s hset
    · dsimp only at hset
      rw [hok.reset hphase, hasBit_zero] at hset
      cases hset
    · simp only [hnone, List.map_nil, List.nodup_nil]
    · intro x hx
      simp only [hnone, List.not_mem_nil] at hx
  have hfact : fact calls ws { m with runMask := m.snapshot ||| 1, phase := .published }
      (.runMain m.func m.snapshot fs) := ⟨rfl, rfl, rfl, not_done hnone, hfollows⟩
  exact main_keeps hws h rfl hc rfl hok' rfl hfact

theorem runMain_keeps {f : ℕ} {s : Mask} {fs : List ℕ} (hws : SlotsOk ws)
    (h : (protocol calls ws).Enters m (.runMain f s fs) rest)
    (hstep : runMain m f s fs = .next m' push spawned) :
    (protocol calls ws).Keeps m (.runMain f s fs) rest m' push spawned := by
  obtain ⟨hphase, rfl, rfl, hdone, hfollows⟩ := h.relies.2
  rw [runMain, runs_published hphase] at hstep
  obtain ⟨rfl, rfl, rfl⟩ := hstep
  have hframe : ∀ s, 1 ≤ s →
      (Done { m with executed := ⟨0, m.func, m.snapshot⟩ :: m.executed } s ↔ Done m s) := by
    intro s hs
    rw [done_cons, or_iff_right (by dsimp only; omega)]
  have hc : Carries m { m with executed := ⟨0, m.func, m.snapshot⟩ :: m.executed } := by
    refine ⟨rfl, fun s hs hun => ⟨fun hset => ?_, .inl rfl⟩,
      fun s hs _ hawaited => ⟨⟨?_, hawaited.2⟩, rfl, id⟩, fun s _ hsettled => .inl ⟨rfl, hsettled⟩,
      fun s e hs hserving => ⟨hserving, rfl, rfl, hframe s hs⟩⟩
    · rw [hframe s hs]
      exact hun hset
    · rw [hframe s hs]
      exact hawaited.1
  have hok : MemOk calls ws { m with executed := ⟨0, m.func, m.snapshot⟩ :: m.executed } :=
    memOk_runs h.memory hphase hdone ⟨rfl, .inl ⟨rfl, rfl⟩⟩
  have hfact : fact calls ws { m with executed := ⟨0, m.func, m.snapshot⟩ :: m.executed }
      (.waitFinish m.snapshot fs) := ⟨hphase, rfl, (done_cons _ _).mpr (.inl rfl), hfollows⟩
  exact main_keeps hws h rfl hc rfl hok rfl hfact

theorem waitFinish_keeps {s : Mask} {fs : List ℕ} (hws : SlotsOk ws)
    (h : (protocol calls ws).Enters m (.waitFinish s fs) rest)
    (hstep : waitFinish m s fs = .next m' push spawned) :
    (protocol calls ws).Keeps m (.waitFinish s fs) rest m' push spawned := by
  obtain ⟨hphase, rfl, hzero, hfollows⟩ := h.relies.2
  unfold waitFinish at hstep
  split at hstep
  · rename_i hall
    obtain ⟨rfl, rfl, rfl⟩ := hstep
    have hok := h.memory
    obtain ⟨hmask, hfinish, hnodup, hfits⟩ := hok.published hphase
    -- every slot of the snapshot has set its bit, so it is done
    have hdone : ∀ s, hasBit m.snapshot s = true → Done m s := by
      intro s hset
      rw [← hall] at hset
      exact (hfinish s hset).1
    have hc : Carries m
        { m with phase := .returned, past := ⟨m.func, m.snapshot, m.executed⟩ :: m.past } := by
      refine ⟨rfl, fun s hs hun => ⟨fun hset => ?_, .inl rfl⟩, fun s hs _ hawaited => ?_,
        fun s _ _ => .inl ⟨rfl, settled_of_phase (.inl rfl)⟩, fun s e _ hserving => ?_⟩
      · have hserved := hun hset
        dsimp only at hset
        rw [hmask, hasBit_or_one _ hs] at hset
        exact absurd (hdone s hset) hserved.2
      · have hset : hasBit m.snapshot s = true := by
          simpa [hphase, Phase.taken] using hawaited.2
        exact absurd (hdone s hset) hawaited.1
      · obtain ⟨-, -, hset, hfree⟩ := hserving
        rw [hall, hset] at hfree
        cases hfree
    have hexact : Call.Exact ⟨m.func, m.snapshot, m.executed⟩ := by
      refine ⟨hnodup, hfits, fun s hs => ?_⟩
      rcases hs with rfl | hs
      · exact hzero
      · exact hdone s hs
    have hok' : MemOk calls ws
        { m with phase := .returned, past := ⟨m.func, m.snapshot, m.executed⟩ :: m.past } := by
      refine { hok with
        past := fun call hcall => ?_
        ended := fun hfinished => ?_
        snapshot := fun htaken => by cases htaken
        hidden := fun hhidden => by cases hhidden
        fresh := fun hne => absurd rfl hne
        func := fun hcase => by rcases hcase with hcase | hcase <;> cases hcase
        reset := fun hreset => by cases hreset
        published := fun hpublished => by cases hpublished }
      · rcases List.mem_cons.mp hcall with rfl | hcall
        · exact hexact
        · exact hok.past call hcall
      · dsimp only at hfinished
        rw [not_finished h rfl] at hfinished
        cases hfinished
    have hfact : fact calls ws
        { m with phase := .returned, past := ⟨m.func, m.snapshot, m.executed⟩ :: m.past }
        (.spreadWork fs) := by
      refine ⟨rfl, ?_⟩
      simpa [Follows] using hfollows
    exact main_keeps hws h rfl hc rfl hok' rfl hfact
  · cases hstep

/-- After the last call the main thread leaves. -/
theorem spreadWork_nil_keeps (h : (protocol calls ws).Enters m (.spreadWork []) rest)
    (hstep : spreadWork m [] = .next m' push spawned) :
    (protocol calls ws).Keeps m (.spreadWork []) rest m' push spawned := by
  have hopen := not_finished h rfl
  have hall : (m.past.map Call.func).reverse = calls := by
    simpa [Follows] using h.relies.2.2
  obtain ⟨rfl, rfl, rfl⟩ := hstep
  have hsame : ∀ other, fact calls ws m other → fact calls ws { m with finished := true } other := by
    intro other hother
    cases other <;> exact hother
  exact
    { memory := { h.memory with ended := fun _ => hall }
      conserves := fun k => by
        cases k with
        | main => simp [protocol, balance, tokens, Instr.slot, hopen]
        | worker s => simp [protocol, balance, tokens, Instr.slot]
      stable := fun other rest' hother _ => ⟨hother.1, hsame other hother.2⟩
      push := id
      spawned := fun l hl => by cases hl }

end Steps

/-- Every step keeps the protocol, when tasks join in time. -/
theorem keeps {calls ws : List ℕ} {m m' : Mem} {choice : Bool} {ins : Instr}
    {rest push : List Instr} {spawned : List (List Instr)} (hws : SlotsOk ws)
    (h : (protocol calls ws).Enters m ins rest)
    (htime : ∀ slot e, ins = .loadRun slot e → inTime m slot e = true)
    (hexec : exec m choice ins = .next m' push spawned) :
    (protocol calls ws).Keeps m ins rest m' push spawned := by
  cases ins with
  | spreadWork fs =>
    cases fs with
    | nil => exact spreadWork_nil_keeps h hexec
    | cons f fs => exact spreadWork_keeps hws h hexec
  | clearRun f e fs => exact clearRun_keeps hws h hexec
  | setFunc f e fs => exact setFunc_keeps hws h hexec
  | bumpEpoch f e fs => exact bumpEpoch_keeps hws h hexec
  | takeSnapshot f fs => exact takeSnapshot_keeps hws h hexec
  | resetFinish f s fs => exact resetFinish_keeps hws h hexec
  | publishRun f s fs => exact publishRun_keeps hws h hexec
  | runMain f s fs => exact runMain_keeps hws h hexec
  | waitFinish s fs => exact waitFinish_keeps hws h hexec
  | join slot => exact join_keeps hws h hexec
  | loadEpoch slot => exact loadEpoch_keeps hws h hexec
  | loadRun slot e => exact loadRun_keeps hws h (htime slot e rfl) hexec
  | loadFunc slot e r => exact loadFunc_keeps hws h hexec
  | runFunc slot e r f => exact runFunc_keeps hws h hexec
  | finish slot e => exact finish_keeps hws h hexec
  | waitEpoch slot e => exact waitEpoch_keeps hws h hexec
  | epochAgain slot => exact epochAgain_keeps hws h hexec
  | waitRun slot e => exact waitRun_keeps hws h hexec
  | runAgain slot e => exact runAgain_keeps hws h hexec

/-! ## Runs -/

theorem slotsOk_workers (maxThreads : ℕ) : SlotsOk (workers maxThreads) := by
  refine ⟨List.nodup_range', fun s hs => ?_⟩
  have hrange := List.mem_range'_1.mp hs
  omega

theorem threadSum_joins (ws : List ℕ) (k : Right) :
    threadSum tokens (ws.map fun slot => [Instr.join slot]) k =
      match k with
      | .main => 0
      | .worker s => ws.count s := by
  induction ws with
  | nil => cases k <;> rfl
  | cons slot ws ih =>
    rw [List.map_cons, threadSum_cons, ih]
    cases k with
    | main => simp [tokens, Instr.slot]
    | worker s =>
      simp only [tokens, Instr.slot, stackSum_cons, stackSum_nil, List.count_cons]
      by_cases h : slot = s <;> simp [h, add_comm]

/-- The protocol holds before anybody has run. -/
theorem start_holds (maxThreads : ℕ) (epoch : Word) (calls : List ℕ) :
    (protocol calls (workers maxThreads)).Holds (start maxThreads epoch calls) where
  memory :=
    { late := rfl
      past := fun call hcall => by cases hcall
      ended := fun hfinished => by cases hfinished
      joined := fun s hs => absurd hs (by rw [Bool.not_eq_true]; exact hasBit_zero s)
      snapshot := fun htaken => by cases htaken
      run := fun s _ hs => absurd hs (by rw [Bool.not_eq_true]; exact hasBit_zero s)
      hidden := fun hhidden => by cases hhidden
      fresh := fun hne => absurd rfl hne
      func := fun hcase => by rcases hcase with hcase | hcase <;> cases hcase
      reset := fun hreset => by cases hreset
      published := fun hpublished => by cases hpublished }
  law k := by
    have hjoins := threadSum_joins (workers maxThreads) k
    simp only [protocol, start, threadSum_cons, hjoins]
    cases k <;> simp [balance, tokens, Instr.slot]
  relies l hl := by
    rcases List.mem_cons.mp hl with rfl | hl
    · exact ⟨⟨rfl, rfl, rfl⟩, trivial⟩
    · obtain ⟨slot, hslot, rfl⟩ := List.mem_map.mp hl
      exact ⟨⟨rfl, hslot, hasBit_zero slot⟩, trivial⟩

theorem holds_of_reach {maxThreads : ℕ} {epoch : Word} {calls : List ℕ} {c : State}
    (hreach : Reach exec (fun c e => joinsInTime c e = true) (start maxThreads epoch calls) c) :
    (protocol calls (workers maxThreads)).Holds c := by
  apply Protocol.Holds.of_reach (start_holds maxThreads epoch calls) _ hreach
  intro c e ins rest m' push spawned _ htime htop hexec h
  refine keeps (slotsOk_workers maxThreads) h (fun slot epoch heq => ?_) hexec
  subst heq
  rw [joinsInTime, htop] at htime
  exact htime

/-! ## What spread_work may count on -/

/-- In each call of `spread_work` slot 0 and the bits of its snapshot execute its body, each
once; nothing is executed outside of a call; and the main thread is not left waiting. -/
structure Served (calls : List ℕ) (c : State) : Prop where
  noError : ∀ ins rest, ins :: rest ∈ c.threads →
    ∀ choice cause, exec c.mem choice ins ≠ .fault cause
  late : c.mem.late = []
  exact : ∀ call ∈ c.mem.past, call.Exact
  running : c.mem.phase ≠ .returned → (c.mem.executed.map Execution.slot).Nodup ∧
    ∀ x ∈ c.mem.executed, x.Fits c.mem.func c.mem.snapshot
  returns : c.Stuck exec → c.mem.finished = true ∧ (c.mem.past.map Call.func).reverse = calls

section Results

variable {calls ws : List ℕ} {c : State}

theorem not_fault (h : (protocol calls ws).Holds c) {ins : Instr} {rest : List Instr}
    (hl : ins :: rest ∈ c.threads) (choice : Bool) (cause : Fault) :
    exec c.mem choice ins ≠ .fault cause := by
  intro hfault
  cases ins with
  | spreadWork fs => cases fs <;> cases hfault
  | waitFinish s fs =>
    simp only [exec, waitFinish] at hfault
    split at hfault <;> cases hfault
  | loadFunc slot e r =>
    obtain ⟨-, -, hserving, -⟩ := (h.enters hl).relies.2
    have hfunc := h.memory.func (.inr hserving.2.1)
    simp [exec, loadFunc, hfunc] at hfault
  | waitEpoch slot e =>
    simp only [exec, waitEpoch] at hfault
    split at hfault <;> cases hfault
  | waitRun slot e =>
    simp only [exec, waitRun] at hfault
    split at hfault <;> cases hfault
  | _ => cases hfault

/-- A thread that waits: the main thread for the slots, a task for the next call. -/
theorem blocked_cases {m : Mem} {choice : Bool} {ins : Instr} (h : exec m choice ins = .blocked) :
    (∃ s fs, ins = .waitFinish s fs ∧ m.finishMask ≠ s) ∨
    (∃ slot e, ins = .waitEpoch slot e ∧ m.epoch = e) ∨
    ∃ slot e, ins = .waitRun slot e ∧ m.runMask = 0 := by
  cases ins with
  | spreadWork fs => cases fs <;> cases h
  | waitFinish s fs =>
    simp only [exec, waitFinish] at h
    split at h
    · cases h
    · rename_i hne
      exact .inl ⟨s, fs, rfl, hne⟩
  | loadFunc slot e r =>
    simp only [exec, loadFunc] at h
    split at h <;> cases h
  | waitEpoch slot e =>
    simp only [exec, waitEpoch] at h
    split at h
    · rename_i heq
      exact .inr (.inl ⟨slot, e, rfl, heq⟩)
    · cases h
  | waitRun slot e =>
    simp only [exec, waitRun] at h
    split at h
    · rename_i heq
      exact .inr (.inr ⟨slot, e, rfl, heq⟩)
    · cases h
  | _ => cases h

/-- Each thread is a single loop, so an instruction that holds a right is on top. -/
theorem exists_top (h : (protocol calls ws).Holds c) {k : Right}
    (howed : balance ws c.mem k < 0) :
    ∃ ins rest, ins :: rest ∈ c.threads ∧ 0 < tokens ins k := by
  obtain ⟨l, hl, ins, hins, hpos⟩ := h.exists_holder howed
  cases l with
  | nil => cases hins
  | cons x rest =>
    have hrest := (h.enters hl).relies.1
    subst hrest
    obtain rfl := List.mem_singleton.mp hins
    exact ⟨ins, [], hl, hpos⟩

/-- When nobody can run, every slot of a published snapshot has finished. -/
theorem finished_of_stuck (h : (protocol calls ws).Holds c) (hstuck : c.Stuck exec)
    (hphase : c.mem.phase = .published) : c.mem.finishMask = c.mem.snapshot := by
  have hok := h.memory
  obtain ⟨hmask, hfinish, -⟩ := hok.published hphase
  refine mask_ext fun t => ?_
  by_contra hne
  have hset : hasBit c.mem.snapshot t = true := by
    by_contra hset
    rw [Bool.not_eq_true] at hset
    rw [hset, Bool.not_eq_false] at hne
    rw [(hfinish t hne).2] at hset
    cases hset
  rw [hset, Bool.not_eq_true] at hne
  -- the task of the slot has joined, and it does not wait
  have hmem := hok.joined t (hok.snapshot (by rw [hphase]; rfl) t hset)
  have howed : balance ws c.mem (.worker t) < 0 := by
    have hcount := List.count_pos_iff.mpr hmem
    simp only [balance]
    omega
  obtain ⟨ins, rest, hl, hpos⟩ := exists_top h howed
  have hslot : ins.slot = some t := by
    by_contra hother
    simp [tokens, beq_eq_false_iff_ne.mpr hother] at hpos
  have hfact := (h.enters hl).relies.2
  rcases hstuck.top hl with hblocked | ⟨cause, hfault⟩
  · rcases blocked_cases hblocked with ⟨s, fs, rfl, -⟩ | ⟨slot, e, rfl, he⟩ | ⟨slot, e, rfl, hrun⟩
    · cases hslot
    · obtain rfl := Option.some.inj hslot
      obtain ⟨-, -, ⟨-, hsettled⟩ | ⟨hlag, -⟩⟩ := hfact
      · have hfinished := (hsettled.2 (by rw [hphase]; rfl) hset).2
        rw [hne] at hfinished
        cases hfinished
      · rw [he] at hlag
        exact absurd hlag (by simp)
    · obtain rfl := Option.some.inj hslot
      have hbit : hasBit c.mem.runMask slot = true := by
        rw [hmask, hasBit_or, hset, Bool.true_or]
      rw [hrun, hasBit_zero] at hbit
      cases hbit
  · exact not_fault h hl false cause hfault

theorem served_of_holds (h : (protocol calls ws).Holds c) : Served calls c where
  noError _ _ hl choice cause := not_fault h hl choice cause
  late := h.memory.late
  exact := h.memory.past
  running hphase := by
    by_cases hpublished : c.mem.phase = .published
    · exact (h.memory.published hpublished).2.2
    · rw [h.memory.fresh hphase hpublished]
      exact ⟨List.nodup_nil, fun x hx => by cases hx⟩
  returns hstuck := by
    have hfinished : c.mem.finished = true := by
      by_contra hopen
      rw [Bool.not_eq_true] at hopen
      have howed : balance ws c.mem .main < 0 := by
        simp [balance, hopen]
      obtain ⟨ins, rest, hl, hpos⟩ := exists_top h howed
      have hslot : ins.slot = none := by
        by_contra hother
        obtain ⟨slot, hslot⟩ := Option.ne_none_iff_exists'.mp hother
        simp [tokens, hslot] at hpos
      rcases hstuck.top hl with hblocked | ⟨cause, hfault⟩
      · rcases blocked_cases hblocked with ⟨s, fs, rfl, hne⟩ | ⟨slot, e, rfl, -⟩ | ⟨slot, e, rfl, -⟩
        · obtain ⟨hphase, rfl, -⟩ := (h.enters hl).relies.2
          exact hne (finished_of_stuck h hstuck hphase)
        · cases hslot
        · cases hslot
      · exact not_fault h hl false cause hfault
    exact ⟨hfinished, h.memory.ended hfinished⟩

end Results

/-- In every run in which tasks join in time, each call of `spread_work` executes its body once
for slot 0 and once for each bit of its snapshot, with the right mask, nothing runs after it has
returned, and it returns. -/
theorem served_of_joinsInTime {maxThreads : ℕ} {epoch : Word} {calls : List ℕ} {c : State}
    (hreach : Reach exec (fun c e => joinsInTime c e = true) (start maxThreads epoch calls) c) :
    Served calls c :=
  served_of_holds (holds_of_reach hreach)

/-- Two calls and one task that joins before the first of them. -/
theorem served_of_joinsInTime_two : ∃ c,
    Reach exec (fun c e => joinsInTime c e = true) (start 2 0 [7, 8]) c ∧
    c.mem.past.length = 2 ∧ Served [7, 8] c := by
  obtain ⟨c, hreach, hc⟩ := Reach.exists_of_runIf exec joinsInTime (start 2 0 [7, 8])
    (rounds [(1, 3), (0, 8), (1, 7), (0, 9), (1, 7), (0, 2)])
    (fun c => decide (c.mem.past.length = 2)) (by decide)
  exact ⟨c, hreach, of_decide_eq_true hc, served_of_joinsInTime hreach⟩

/-- A task that joins after the epoch was stored and before `run_mask` is published leaves the
main thread waiting; one that still holds the old epoch when it finds its bit runs once more
after the call has returned. -/
theorem joins_at_bad_time :
    (∃ c, Reach exec (fun _ _ => True) (start 2 0 [7]) c ∧ c.Stuck exec ∧
      c.threads = [[.waitFinish 2 []], [.waitEpoch 1 1]]) ∧
    ∃ c, Reach exec (fun _ _ => True) (start 2 0 [7]) c ∧
      c.mem.past = [⟨7, 2, [⟨1, 7, 3⟩, ⟨0, 7, 2⟩]⟩] ∧ c.mem.late = [⟨1, 7, 3⟩] := by
  constructor
  · obtain ⟨c, hreach, hc⟩ := Reach.exists_of_run exec (start 2 0 [7])
      (rounds [(0, 4), (1, 3), (0, 4)])
      (fun c => c.isStuck exec && decide (c.threads = [[.waitFinish 2 []], [.waitEpoch 1 1]]))
      (by decide)
    obtain ⟨hstuck, hthreads⟩ := (Bool.and_eq_true _ _).mp hc
    exact ⟨c, hreach, Config.stuck_of_isStuck hstuck, of_decide_eq_true hthreads⟩
  · obtain ⟨c, hreach, hc⟩ := Reach.exists_of_run exec (start 2 0 [7])
      (rounds [(1, 2), (0, 8), (1, 4), (0, 1), (1, 6)])
      (fun c => decide (c.mem.past = [⟨7, 2, [⟨1, 7, 3⟩, ⟨0, 7, 2⟩]⟩] ∧ c.mem.late = [⟨1, 7, 3⟩]))
      (by decide)
    obtain ⟨hpast, hlate⟩ := of_decide_eq_true hc
    exact ⟨c, hreach, hpast, hlate⟩

end Oox.Trapper
