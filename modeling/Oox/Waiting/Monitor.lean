import Oox.Library.Protocol
import Oox.Model.Words

/-!
# Waiting on a deferred var with the Twist backend

In the Twist backend (oox.h:440-479) a task waits and is woken through a mutex, a condition
variable and the flag `completed`. Any number of threads call `oox_var_base::wait` on one
deferred var while a thread registers its first Read-Write writer and that writer completes.
`oox_var_base::wait` reads the var's `current_task` anew each time it names it.
-/

set_option autoImplicit false

namespace Oox.Monitor

open Library

/-- The nodes `current_task` of the var points to. -/
inductive Who where
  | deferred
  | writer
  deriving DecidableEq, Repr

/-- The list head of a node and the fields of `task`. -/
structure Task where
  head : Head := .list []
  /-- `waiter_mutex` is held. -/
  locked : Bool := false
  completed : Bool := false
  /-- how often `waiter_cv` was notified. -/
  notified : ℕ := 0
  deriving DecidableEq, Repr

structure Mem where
  task : Who → Task := fun _ => {}
  /-- `current_task` of the var. -/
  currentTask : Who := .deferred
  -- history
  /-- how many waits entered the backend's wait of the deferred node. -/
  early : ℕ := 0

def Mem.setTask (m : Mem) (n : Who) (x : Task) : Mem :=
  { m with task := fun k => if k = n then x else m.task k }

/-- Take or give back the mutex of a node. -/
def Mem.setLocked (m : Mem) (n : Who) (b : Bool) : Mem :=
  m.setTask n { m.task n with locked := b }

inductive Instr where
  -- oox_var_base::set_next_writer of the deferred var, and the end of run
  | redirect
  | moveArcs (r : List ℕ)
  | setNextWriter
  | assignTask
  | publish
  -- notify_successors of the writer
  | closeList
  | notifyArcs (r : List ℕ)
  | wakeupLock
  | wakeupSet
  | wakeupUnlock
  | wakeupNotify
  -- a thread that registers a consumer
  | addArc (a : ℕ)
  -- oox_var_base::wait
  | waitTask
  | waitHead (n : Who)
  | waitAgain
  | waitLock (n : Who)
  | waitTest (n : Who)
  | waitSleep (n : Who)
  | asleep (n : Who) (seen : ℕ)
  | waitUnlock (n : Who)
  | waitLast
  | waitDone (n : Who)
  deriving DecidableEq, Repr

inductive Fault where
  /-- a debug assertion fails. -/
  | assertion
  deriving DecidableEq, Repr

abbrev State := Config Mem Instr
abbrev Step := Outcome Mem Instr Fault

/-- Continue on the same thread. -/
abbrev goto (m : Mem) (push : List Instr) : Step := .next m push []

/-! ## The writer is registered (oox.h:1299-1324) -/

/-- The exchange of the deferred node's `head`. -/
def redirect (m : Mem) : Step :=
  match (m.task .deferred).head with
  | .list r => goto (m.setTask .deferred { m.task .deferred with head := .redirect 0 }) [.moveArcs r]
  | _ => .fault .assertion

/-- `d->add_arc(j)` for the next waiting arc. -/
def moveArcs (m : Mem) : List ℕ → Step
  | [] => goto m [.setNextWriter]
  | a :: r =>
    match (m.task .writer).head with
    | .list l =>
      goto (m.setTask .writer { m.task .writer with head := .list (a :: l) }) [.moveArcs r]
    | _ => .fault .assertion

/-- `current_task = d`. -/
def assignTask (m : Mem) : Step := goto { m with currentTask := .writer } [.publish]

/-- The end of `run`: from here on some thread may complete the writer. -/
def publish (m : Mem) : Step := .next m [] [[.closeList]]

/-! ## The writer completes (oox.h:1131-1165, 472-478) -/

/-- `head.exchange(terminal)`; `failed` tells whether there is a terminal exception arc. -/
def closeList (m : Mem) (failed : Bool) : Step :=
  match (m.task .writer).head with
  | .list r =>
    goto (m.setTask .writer { m.task .writer with head := if failed then .terminal 0 else .done })
      [.notifyArcs r]
  | _ => .fault .assertion

/-- A round of `do_notify_arcs`, which changes nothing a waiter reads. -/
def notifyArcs (m : Mem) : List ℕ → Step
  | [] => goto m [.wakeupLock]
  | _ :: r => goto m [.notifyArcs r]

/-- Take a mutex; a thread that finds it held waits. -/
def lock (m : Mem) (n : Who) (next : Instr) : Step :=
  if (m.task n).locked then .blocked
  else goto (m.setLocked n true) [next]

def unlock (m : Mem) (n : Who) (next : Instr) : Step :=
  goto (m.setLocked n false) [next]

/-- `completed = true`. -/
def wakeupSet (m : Mem) : Step :=
  goto (m.setTask .writer { m.task .writer with completed := true }) [.wakeupUnlock]

/-- `waiter_cv.notify_all()`. -/
def wakeupNotify (m : Mem) : Step :=
  goto (m.setTask .writer { m.task .writer with notified := (m.task .writer).notified + 1 }) []

/-- `arc_list::add_arc` on the var's node. -/
def addArc (m : Mem) (a : ℕ) : Step :=
  match (m.task m.currentTask).head with
  | .list l =>
    goto (m.setTask m.currentTask { m.task m.currentTask with head := .list (a :: l) }) []
  | _ => goto m []

/-! ## oox_var_base::wait (oox.h:1333-1345, 468-471) -/

/-- The check of `head`. -/
def waitHead (m : Mem) (n : Who) : Step :=
  goto m (if (m.task n).head.isDone then [] else [.waitAgain])

/-- `current_task->wait()` reads `current_task` again. -/
def waitAgain (m : Mem) : Step :=
  goto { m with early := m.early + if m.currentTask = .deferred then 1 else 0 }
    [.waitLock m.currentTask]

/-- The predicate of `waiter_cv.wait`. -/
def waitTest (m : Mem) (n : Who) : Step :=
  goto m [if (m.task n).completed then .waitUnlock n else .waitSleep n]

/-- `waiter_cv.wait` gives the mutex back and sleeps. -/
def waitSleep (m : Mem) (n : Who) : Step :=
  unlock m n (.asleep n (m.task n).notified)

/-- A sleeping thread runs again after a notification, or spuriously. -/
def asleep (m : Mem) (spurious : Bool) (n : Who) (seen : ℕ) : Step :=
  if (m.task n).notified ≠ seen ∨ spurious = true then goto m [.waitLock n] else .blocked

/-- The assertion after the backend's wait. -/
def waitDone (m : Mem) (n : Who) : Step :=
  if (m.task n).head.isDone then goto m [] else .fault .assertion

def exec (m : Mem) (choice : Bool) : Instr → Step
  | .redirect => redirect m
  | .moveArcs r => moveArcs m r
  | .setNextWriter => goto m [.assignTask]
  | .assignTask => assignTask m
  | .publish => publish m
  | .closeList => closeList m choice
  | .notifyArcs r => notifyArcs m r
  | .wakeupLock => lock m .writer .wakeupSet
  | .wakeupSet => wakeupSet m
  | .wakeupUnlock => unlock m .writer .wakeupNotify
  | .wakeupNotify => wakeupNotify m
  | .addArc a => addArc m a
  | .waitTask => goto m [.waitHead m.currentTask]
  | .waitHead n => waitHead m n
  | .waitAgain => waitAgain m
  | .waitLock n => lock m n (.waitTest n)
  | .waitTest n => waitTest m n
  | .waitSleep n => waitSleep m n
  | .asleep n seen => asleep m choice n seen
  | .waitUnlock n => unlock m n .waitLast
  | .waitLast => goto m [.waitDone m.currentTask]
  | .waitDone n => waitDone m n

/-- What a thread of the user does with the var. -/
inductive Use where
  | wait
  | consume (a : ℕ)
  deriving DecidableEq, Repr

def Use.instr : Use → Instr
  | .wait => .waitTask
  | .consume a => .addArc a

/-- The thread that registers the writer, with what it does before and after, and any number of
other threads. -/
def start (before after : List Use) (users : List (List Use)) : State :=
  { mem := {}
    threads := (before.map Use.instr ++ .redirect :: after.map Use.instr) ::
      users.map fun l => l.map Use.instr }

/-- A turn that enters the backend's wait only when the writer is registered. -/
def registered (c : State) (e : Turn) : Bool :=
  match c.threads[e.thread]? with
  | some (.waitAgain :: _) => c.mem.currentTask == .writer
  | _ => true

/-! ## The protocol -/

inductive Right where
  /-- to register and complete the writer. -/
  | finish
  /-- a mutex. -/
  | lock (n : Who)
  /-- a wait inside the backend's wait of the deferred node. -/
  | early
  deriving DecidableEq, Repr

namespace Instr

/-- The writer is not yet complete and woken. -/
def finishes : Instr → Bool
  | .redirect => true
  | .moveArcs _ => true
  | .setNextWriter => true
  | .assignTask => true
  | .publish => true
  | .closeList => true
  | .notifyArcs _ => true
  | .wakeupLock => true
  | .wakeupSet => true
  | .wakeupUnlock => true
  | .wakeupNotify => true
  | _ => false

/-- The mutex a thread holds at an instruction. -/
def locks : Instr → Option Who
  | .wakeupSet => some .writer
  | .wakeupUnlock => some .writer
  | .waitTest n => some n
  | .waitSleep n => some n
  | .waitUnlock n => some n
  | _ => none

/-- The node whose backend wait a thread is in. -/
def backend : Instr → Option Who
  | .waitLock n => some n
  | .waitTest n => some n
  | .waitSleep n => some n
  | .asleep n _ => some n
  | .waitUnlock n => some n
  | _ => none

/-- The instructions a thread may start with. -/
def issued : Instr → Bool
  | .redirect => true
  | .addArc _ => true
  | .waitTask => true
  | _ => false

end Instr

def tokens (ins : Instr) : Right → ℤ
  | .finish => if ins.finishes then 1 else 0
  | .lock n => if ins.locks = some n then 1 else 0
  | .early => if ins.backend = some .deferred then 1 else 0

def balance (m : Mem) : Right → ℤ
  | .finish => if (m.task .writer).notified = 0 then -1 else 0
  | .lock n => if (m.task n).locked then -1 else 0
  | .early => -m.early

/-- An open list. -/
def Open (m : Mem) (n : Who) : Prop := ∃ l, (m.task n).head = .list l

/-- The writer is complete. -/
def Done (m : Mem) : Prop := (m.task .writer).head.isDone = true

/-- What an instruction relies on, apart from the instructions below it. -/
def Fact (m : Mem) : Instr → Prop
  | .redirect => m.currentTask = .deferred ∧ Open m .deferred ∧ Open m .writer
  | .moveArcs _ => Open m .writer
  | .setNextWriter => Open m .writer
  | .assignTask => Open m .writer
  | .publish => Open m .writer ∧ m.currentTask = .writer
  | .closeList => Open m .writer ∧ m.currentTask = .writer
  | .notifyArcs _ => Done m ∧ (m.task .writer).completed = false
  | .wakeupLock => Done m ∧ (m.task .writer).completed = false
  | .wakeupSet => Done m ∧ (m.task .writer).completed = false
  | .wakeupUnlock => (m.task .writer).completed = true
  | .wakeupNotify => (m.task .writer).completed = true
  | .waitSleep n => (m.task n).completed = false
  | .asleep _ seen => seen = 0
  | .waitUnlock n => n = .writer ∧ (m.task .writer).completed = true
  | .waitLast => (m.task .writer).completed = true
  | .waitDone n => n = .writer ∧ (m.task .writer).completed = true
  | _ => True

/-- What an instruction relies on: only what a thread started with is below it. -/
def Relies (m : Mem) (ins : Instr) (rest : List Instr) : Prop :=
  (∀ x ∈ rest, x.issued = true) ∧ Fact m ins

structure MemOk (m : Mem) : Prop where
  never : (m.task .deferred).completed = false
  notified : ∀ n, (m.task n).completed = false → (m.task n).notified = 0
  deferredHead : (m.task .deferred).head.isDone = false
  writerHead : Done m ∨ Open m .writer
  completed : (m.task .writer).completed = true → Done m
  current : Done m → m.currentTask = .writer

def protocol : Protocol Mem Instr Right where
  balance := balance
  tokens := tokens
  memory := MemOk
  relies := Relies
  tokens_nonneg ins k := by
    cases k <;> simp only [tokens] <;> split_ifs <;> decide

/-! ## Steps -/

section Steps

variable {m m' : Mem} {ins : Instr} {rest push : List Instr} {spawned : List (List Instr)}

@[simp] theorem setTask_self (n : Who) (x : Task) : (m.setTask n x).task n = x := by
  simp [Mem.setTask]

theorem setTask_of_ne {n k : Who} (x : Task) (hne : k ≠ n) : (m.setTask n x).task k = m.task k := by
  simp [Mem.setTask, hne]

/-- What a step must leave alone for the sake of the other threads. -/
structure Frame (m m' : Mem) (ins : Instr) : Prop where
  current : m.currentTask = .writer → m'.currentTask = .writer
  done : Done m → Done m'
  set : (m.task .writer).completed = true → (m'.task .writer).completed = true
  /-- only the thread that completes the writer changes what that thread relies on. -/
  finish : ins.finishes = false → m'.currentTask = m.currentTask ∧
    (∀ n, Open m n → Open m' n) ∧ (m'.task .writer).completed = (m.task .writer).completed
  /-- a flag is set under its mutex. -/
  lock : ∀ n, ins.locks ≠ some n → (m'.task n).completed = (m.task n).completed

theorem not_finishes_of_together {other : Instr} (hother : other.finishes = true)
    (hwith : Together balance tokens m ins other) : ins.finishes = false := by
  have hk := hwith .finish
  by_contra hins
  rw [Bool.not_eq_false] at hins
  simp only [tokens, hins, hother, if_true, balance] at hk
  split_ifs at hk <;> omega

theorem not_locks_of_together {other : Instr} {n : Who} (hother : other.locks = some n)
    (hwith : Together balance tokens m ins other) : ins.locks ≠ some n := by
  have hk := hwith (.lock n)
  intro hins
  simp only [tokens, hins, hother, if_true, balance] at hk
  split_ifs at hk <;> omega

theorem Frame.stable {other : Instr} {rest' : List Instr} (hframe : Frame m m' ins)
    (h : Relies m other rest') (hwith : Together balance tokens m ins other) :
    Relies m' other rest' := by
  refine ⟨h.1, ?_⟩
  have hfact := h.2
  have hfinish : other.finishes = true → _ := fun hother =>
    hframe.finish (not_finishes_of_together hother hwith)
  cases other with
  | redirect =>
    obtain ⟨hcurrent, hopen, -⟩ := hfinish rfl
    exact ⟨hcurrent ▸ hfact.1, hopen _ hfact.2.1, hopen _ hfact.2.2⟩
  | moveArcs r => exact (hfinish rfl).2.1 _ hfact
  | setNextWriter => exact (hfinish rfl).2.1 _ hfact
  | assignTask => exact (hfinish rfl).2.1 _ hfact
  | publish => exact ⟨(hfinish rfl).2.1 _ hfact.1, hframe.current hfact.2⟩
  | closeList => exact ⟨(hfinish rfl).2.1 _ hfact.1, hframe.current hfact.2⟩
  | notifyArcs r => exact ⟨hframe.done hfact.1, (hfinish rfl).2.2 ▸ hfact.2⟩
  | wakeupLock => exact ⟨hframe.done hfact.1, (hfinish rfl).2.2 ▸ hfact.2⟩
  | wakeupSet => exact ⟨hframe.done hfact.1, (hfinish rfl).2.2 ▸ hfact.2⟩
  | wakeupUnlock => exact hframe.set hfact
  | wakeupNotify => exact hframe.set hfact
  | waitSleep n => exact (hframe.lock n (not_locks_of_together rfl hwith)).trans hfact
  | asleep n seen => exact hfact
  | waitUnlock n => exact ⟨hfact.1, hframe.set hfact.2⟩
  | waitLast => exact hframe.set hfact
  | waitDone n => exact ⟨hfact.1, hframe.set hfact.2⟩
  | _ => trivial

/-- A step keeps the protocol when it keeps the memory in order, leaves alone what others rely
on, and pushes at most one instruction in order. -/
theorem Frame.keeps (hframe : Frame m m' ins) (hrelies : Relies m ins rest) (hok : MemOk m')
    (hcons : Conserves balance tokens m ins m' push spawned)
    (hpush : push = [] ∨ ∃ x, push = [x] ∧ Fact m' x)
    (hspawned : ∀ l ∈ spawned, ∃ x, l = [x] ∧ Fact m' x) :
    protocol.Keeps m ins rest m' push spawned where
  memory := hok
  conserves := hcons
  stable other _ h hwith := hframe.stable h (hwith other List.mem_cons_self)
  push hrest := by
    rcases hpush with rfl | ⟨x, rfl, hx⟩
    · exact hrest
    · exact ⟨⟨hrelies.1, hx⟩, hrest⟩
  spawned l hl := by
    obtain ⟨x, rfl, hx⟩ := hspawned l hl
    exact ⟨⟨fun y hy => (by cases hy), hx⟩, trivial⟩

theorem frame_refl (m : Mem) (ins : Instr) : Frame m m ins where
  current := id
  done := id
  set := id
  finish _ := ⟨rfl, fun _ => id, rfl⟩
  lock _ _ := rfl

section Locked

variable (n k : Who) (b : Bool)

@[simp] theorem setLocked_head : ((m.setLocked n b).task k).head = (m.task k).head := by
  unfold Mem.setLocked
  by_cases hk : k = n
  · rw [hk, setTask_self]
  · rw [setTask_of_ne _ hk]

@[simp] theorem setLocked_completed :
    ((m.setLocked n b).task k).completed = (m.task k).completed := by
  unfold Mem.setLocked
  by_cases hk : k = n
  · rw [hk, setTask_self]
  · rw [setTask_of_ne _ hk]

@[simp] theorem setLocked_notified :
    ((m.setLocked n b).task k).notified = (m.task k).notified := by
  unfold Mem.setLocked
  by_cases hk : k = n
  · rw [hk, setTask_self]
  · rw [setTask_of_ne _ hk]

theorem setLocked_locked :
    ((m.setLocked n b).task k).locked = if k = n then b else (m.task k).locked := by
  unfold Mem.setLocked
  split_ifs with hk
  · rw [hk, setTask_self]
  · rw [setTask_of_ne _ hk]

@[simp] theorem setLocked_currentTask : (m.setLocked n b).currentTask = m.currentTask := rfl

@[simp] theorem setLocked_early : (m.setLocked n b).early = m.early := rfl

/-- Taking or giving back a mutex disturbs nobody. -/
theorem frame_setLocked : Frame m (m.setLocked n b) ins where
  current := id
  done h := by simpa [Done] using h
  set h := by simpa using h
  finish _ := ⟨rfl, fun k h => by simpa [Open] using h, setLocked_completed _ _ _⟩
  lock k _ := setLocked_completed _ _ _

theorem memOk_setLocked (h : MemOk m) : MemOk (m.setLocked n b) where
  never := by simpa using h.never
  notified k := by simpa using h.notified k
  deferredHead := by simpa using h.deferredHead
  writerHead := by simpa [Done, Open] using h.writerHead
  completed := by simpa [Done] using h.completed
  current := by simpa [Done] using h.current

theorem fact_setLocked : Fact (m.setLocked n b) ins ↔ Fact m ins := by
  cases ins <;> simp [Fact, Open, Done]

end Locked

/-- `lock` keeps the protocol when the instruction that follows holds the mutex besides what
the one before it held. -/
theorem lock_keeps (n : Who) (next : Instr) (h : protocol.Enters m ins rest)
    (hfinish : next.finishes = ins.finishes) (hnone : ins.locks = none)
    (hlocks : next.locks = some n) (hbackend : next.backend = ins.backend)
    (hfact : Fact m next) (hstep : lock m n next = .next m' push spawned) :
    protocol.Keeps m ins rest m' push spawned := by
  unfold lock at hstep
  split at hstep
  · cases hstep
  · rename_i hfree
    cases hstep
    refine (frame_setLocked n true).keeps h.relies (memOk_setLocked n true h.memory) (fun k => ?_)
      (.inr ⟨next, rfl, (fact_setLocked n true).mpr hfact⟩) fun l hl => by cases hl
    cases k with
    | finish => simp [balance, tokens, hfinish]
    | lock k =>
      simp only [balance, tokens, hnone, hlocks, setLocked_locked, stackSum_cons, stackSum_nil,
        threadSum_nil, Option.some.injEq, reduceCtorEq, if_false]
      by_cases hk : k = n
      · simp [hk, hfree]
      · simp [hk, Ne.symm hk]
    | early => simp [balance, tokens, hbackend]

/-- `unlock` keeps the protocol when the instruction before it held the mutex. -/
theorem unlock_keeps (n : Who) (next : Instr) (h : protocol.Enters m ins rest)
    (hfinish : next.finishes = ins.finishes) (hlocks : ins.locks = some n)
    (hnone : next.locks = none)
    (hbackend : next.backend = some .deferred ↔ ins.backend = some .deferred)
    (hfact : Fact m next) (hstep : unlock m n next = .next m' push spawned) :
    protocol.Keeps m ins rest m' push spawned := by
  cases hstep
  have hheld : (m.task n).locked = true := by
    have hcov := h.covered (.lock n)
    by_contra hfree
    rw [Bool.not_eq_true] at hfree
    simp [protocol, tokens, balance, hlocks, hfree] at hcov
  refine (frame_setLocked n false).keeps h.relies (memOk_setLocked n false h.memory)
    (fun k => ?_) (.inr ⟨next, rfl, (fact_setLocked n false).mpr hfact⟩) fun l hl => by cases hl
  cases k with
  | finish => simp [balance, tokens, hfinish]
  | lock k =>
    simp only [balance, tokens, hnone, hlocks, setLocked_locked, stackSum_cons, stackSum_nil,
      threadSum_nil, Option.some.injEq, reduceCtorEq, if_false]
    by_cases hk : k = n
    · simp [hk, hheld]
    · simp [hk, Ne.symm hk]
  | early => simp [balance, tokens, hbackend]

/-- A step that only goes on to an instruction with the same rights. -/
theorem goto_keeps {next : Instr} (h : protocol.Enters m ins rest)
    (hsame : ∀ k, tokens next k = tokens ins k) (hfact : Fact m next) :
    protocol.Keeps m ins rest m [next] [] :=
  (frame_refl m ins).keeps h.relies h.memory (fun k => by simp [hsame k])
    (.inr ⟨next, rfl, hfact⟩) fun l hl => by cases hl

/-- A step that ends a call which held no rights. -/
theorem done_keeps (h : protocol.Enters m ins rest) (hnone : ∀ k, tokens ins k = 0) :
    protocol.Keeps m ins rest m [] [] :=
  (frame_refl m ins).keeps h.relies h.memory (fun k => by simp [hnone k]) (.inl rfl)
    fun l hl => by cases hl

/-! ### The thread that registers and completes the writer -/

theorem redirect_keeps (h : protocol.Enters m .redirect rest)
    (hstep : redirect m = .next m' push spawned) :
    protocol.Keeps m .redirect rest m' push spawned := by
  obtain ⟨hcurrent, ⟨r, hr⟩, hopen⟩ := h.relies.2
  unfold redirect at hstep
  rw [hr] at hstep
  cases hstep
  have hne : Who.writer ≠ Who.deferred := by decide
  refine Frame.keeps ?_ h.relies ?_ (fun k => ?_) (.inr ⟨_, rfl, hopen⟩) fun l hl => by cases hl
  · exact
      { current := id
        done := id
        set := id
        finish := fun hno => by cases hno
        lock := fun n _ => by cases n <;> rfl }
  · exact
      { never := h.memory.never
        notified := fun n => by cases n <;> exact h.memory.notified _
        deferredHead := rfl
        writerHead := h.memory.writerHead
        completed := h.memory.completed
        current := h.memory.current }
  · cases k with
    | lock n => cases n <;> simp [balance, tokens, Instr.locks, Mem.setTask]
    | _ => simp [balance, tokens, Instr.finishes, Instr.backend, Mem.setTask]

/-- An arc is put on an open list. -/
theorem frame_push {n : Who} {l l' : List ℕ} (hl : (m.task n).head = .list l) :
    Frame m (m.setTask n { m.task n with head := .list l' }) ins := by
  have hopen : ∀ k, Open m k → Open (m.setTask n { m.task n with head := .list l' }) k := by
    intro k hk
    by_cases hkn : k = n
    · subst hkn
      exact ⟨l', by rw [setTask_self]⟩
    · rw [Open, setTask_of_ne _ hkn]
      exact hk
  have hset : ∀ k, ((m.setTask n { m.task n with head := .list l' }).task k).completed =
      (m.task k).completed := by
    intro k
    by_cases hkn : k = n
    · rw [hkn, setTask_self]
    · rw [setTask_of_ne _ hkn]
  have hdone : Done m → Done (m.setTask n { m.task n with head := .list l' }) := by
    intro hdone
    have hne : Who.writer ≠ n := by
      rintro rfl
      rw [Done, hl] at hdone
      cases hdone
    rw [Done, setTask_of_ne _ hne]
    exact hdone
  exact
    { current := id
      done := hdone
      set := fun h => by rw [hset]; exact h
      finish := fun _ => ⟨rfl, hopen, hset _⟩
      lock := fun k _ => hset k }

theorem memOk_push {n : Who} {l l' : List ℕ} (h : MemOk m) (hl : (m.task n).head = .list l) :
    MemOk (m.setTask n { m.task n with head := .list l' }) := by
  have hopen : Open m n := ⟨l, hl⟩
  cases n with
  | deferred =>
    exact ⟨h.never, fun k => by cases k <;> exact h.notified _, rfl, h.writerHead, h.completed,
      h.current⟩
  | writer =>
    have hundone : ¬ Done m := by
      rw [Done, hl]
      simp [Head.isDone]
    exact ⟨h.never, fun k => by cases k <;> exact h.notified _, h.deferredHead, .inr ⟨l', rfl⟩,
      fun hset => absurd (h.completed hset) hundone, fun hdone => by cases hdone⟩

theorem balance_push (n : Who) (l : List ℕ) (k : Right) :
    balance (m.setTask n { m.task n with head := .list l }) k = balance m k := by
  cases k with
  | finish => cases n <;> rfl
  | lock j => cases n <;> cases j <;> rfl
  | early => rfl

theorem moveArcs_keeps {r : List ℕ} (h : protocol.Enters m (.moveArcs r) rest)
    (hstep : moveArcs m r = .next m' push spawned) :
    protocol.Keeps m (.moveArcs r) rest m' push spawned := by
  obtain ⟨l, hl⟩ := h.relies.2
  cases r with
  | nil =>
    cases hstep
    refine goto_keeps h (fun k => ?_) h.relies.2
    cases k <;> rfl
  | cons a r =>
    unfold moveArcs at hstep
    rw [hl] at hstep
    cases hstep
    refine (frame_push hl).keeps h.relies (memOk_push h.memory hl) (fun k => ?_)
      (.inr ⟨_, rfl, a :: l, by rw [setTask_self]⟩) fun l hl => by cases hl
    rw [balance_push]
    cases k <;> simp [tokens, Instr.finishes, Instr.locks, Instr.backend]

theorem assignTask_keeps (h : protocol.Enters m .assignTask rest)
    (hstep : assignTask m = .next m' push spawned) :
    protocol.Keeps m .assignTask rest m' push spawned := by
  cases hstep
  refine Frame.keeps ?_ h.relies ?_ (fun k => ?_) (.inr ⟨_, rfl, h.relies.2, rfl⟩)
    fun l hl => by cases hl
  · exact
      { current := fun _ => rfl
        done := id
        set := id
        finish := fun hno => by cases hno
        lock := fun _ _ => rfl }
  · exact { h.memory with current := fun _ => rfl }
  · cases k <;> simp [balance, tokens, Instr.finishes, Instr.locks, Instr.backend]

theorem publish_keeps (h : protocol.Enters m .publish rest)
    (hstep : publish m = .next m' push spawned) :
    protocol.Keeps m .publish rest m' push spawned := by
  cases hstep
  refine (frame_refl m _).keeps h.relies h.memory (fun k => ?_) (.inl rfl) fun l hl => ?_
  · cases k <;> simp [tokens, Instr.finishes, Instr.locks, Instr.backend]
  · obtain rfl := List.mem_singleton.mp hl
    exact ⟨_, rfl, h.relies.2⟩

theorem closeList_keeps {failed : Bool} (h : protocol.Enters m .closeList rest)
    (hstep : closeList m failed = .next m' push spawned) :
    protocol.Keeps m .closeList rest m' push spawned := by
  obtain ⟨⟨r, hr⟩, hcurrent⟩ := h.relies.2
  have hundone : ¬ Done m := by
    rw [Done, hr]
    simp [Head.isDone]
  have hunset : (m.task .writer).completed = false := by
    by_contra hset
    exact hundone (h.memory.completed (by simpa using hset))
  unfold closeList at hstep
  rw [hr] at hstep
  cases hstep
  have hdone : (if failed then Head.terminal 0 else Head.done).isDone = true := by
    cases failed <;> rfl
  refine Frame.keeps ?_ h.relies ?_ (fun k => ?_) (.inr ⟨_, rfl, hdone, hunset⟩)
    fun l hl => by cases hl
  · exact
      { current := id
        done := fun _ => hdone
        set := id
        finish := fun hno => by cases hno
        lock := fun n _ => by cases n <;> rfl }
  · exact ⟨h.memory.never, fun k => by cases k <;> exact h.memory.notified _,
      h.memory.deferredHead, .inl hdone, fun _ => hdone, fun _ => hcurrent⟩
  · cases k with
    | lock n => cases n <;> simp [balance, tokens, Instr.locks, Mem.setTask]
    | _ => simp [balance, tokens, Instr.finishes, Instr.backend, Mem.setTask]

theorem notifyArcs_keeps {r : List ℕ} (h : protocol.Enters m (.notifyArcs r) rest)
    (hstep : notifyArcs m r = .next m' push spawned) :
    protocol.Keeps m (.notifyArcs r) rest m' push spawned := by
  cases r with
  | nil =>
    cases hstep
    refine goto_keeps h (fun k => ?_) h.relies.2
    cases k <;> rfl
  | cons a r =>
    cases hstep
    refine goto_keeps h (fun k => ?_) h.relies.2
    cases k <;> rfl

theorem wakeupSet_keeps (h : protocol.Enters m .wakeupSet rest)
    (hstep : wakeupSet m = .next m' push spawned) :
    protocol.Keeps m .wakeupSet rest m' push spawned := by
  obtain ⟨hdone, hunset⟩ := h.relies.2
  cases hstep
  refine Frame.keeps ?_ h.relies ?_ (fun k => ?_) (.inr ⟨_, rfl, by simp [Fact]⟩)
    fun l hl => by cases hl
  · exact
      { current := id
        done := id
        set := fun _ => rfl
        finish := fun hno => by cases hno
        lock := fun n hn => by
          cases n with
          | deferred => rfl
          | writer => exact absurd rfl hn }
  · exact
      { never := h.memory.never
        notified := fun k hno => by
          cases k with
          | deferred => exact h.memory.notified _ hno
          | writer => cases hno
        deferredHead := h.memory.deferredHead
        writerHead := h.memory.writerHead
        completed := fun _ => hdone
        current := h.memory.current }
  · cases k with
    | lock n => cases n <;> simp [balance, tokens, Instr.locks, Mem.setTask]
    | _ => simp [balance, tokens, Instr.finishes, Instr.backend, Mem.setTask]

theorem wakeupNotify_keeps (h : protocol.Enters m .wakeupNotify rest)
    (hstep : wakeupNotify m = .next m' push spawned) :
    protocol.Keeps m .wakeupNotify rest m' push spawned := by
  have hset : (m.task .writer).completed = true := h.relies.2
  have hzero : (m.task .writer).notified = 0 := by
    have hcov := h.covered .finish
    by_contra hno
    simp [protocol, tokens, balance, Instr.finishes, hno] at hcov
  cases hstep
  refine Frame.keeps ?_ h.relies ?_ (fun k => ?_) (.inl rfl) fun l hl => by cases hl
  · exact
      { current := id
        done := id
        set := id
        finish := fun hno => by cases hno
        lock := fun n _ => by cases n <;> rfl }
  · exact
      { never := h.memory.never
        notified := fun k hno => by
          cases k with
          | deferred => exact h.memory.notified _ hno
          | writer => exact absurd (hset.symm.trans hno) (by decide)
        deferredHead := h.memory.deferredHead
        writerHead := h.memory.writerHead
        completed := h.memory.completed
        current := h.memory.current }
  · cases k with
    | finish => simp [balance, tokens, Instr.finishes, hzero]
    | lock n => cases n <;> simp [balance, tokens, Instr.locks, Mem.setTask]
    | early => simp [balance, tokens, Instr.backend, Mem.setTask]

/-! ### Waiting threads -/

theorem addArc_keeps {a : ℕ} (h : protocol.Enters m (.addArc a) rest)
    (hstep : addArc m a = .next m' push spawned) :
    protocol.Keeps m (.addArc a) rest m' push spawned := by
  unfold addArc at hstep
  split at hstep
  · rename_i l hl
    cases hstep
    refine (frame_push hl).keeps h.relies (memOk_push h.memory hl) (fun k => ?_) (.inl rfl)
      fun l hl => by cases hl
    rw [balance_push]
    cases k <;> simp [tokens, Instr.finishes, Instr.locks, Instr.backend]
  · cases hstep
    refine done_keeps h fun k => ?_
    cases k <;> rfl

theorem waitHead_keeps {n : Who} (h : protocol.Enters m (.waitHead n) rest)
    (hstep : waitHead m n = .next m' push spawned) :
    protocol.Keeps m (.waitHead n) rest m' push spawned := by
  cases hstep
  split
  · refine done_keeps h fun k => ?_
    cases k <;> rfl
  · refine goto_keeps h (fun k => ?_) trivial
    cases k <;> rfl

theorem waitAgain_keeps (h : protocol.Enters m .waitAgain rest)
    (hstep : waitAgain m = .next m' push spawned) :
    protocol.Keeps m .waitAgain rest m' push spawned := by
  cases hstep
  refine Frame.keeps ?_ h.relies ?_ (fun k => ?_) (.inr ⟨_, rfl, trivial⟩) fun l hl => by cases hl
  · exact ⟨id, id, id, fun _ => ⟨rfl, fun _ => id, rfl⟩, fun _ _ => rfl⟩
  · exact ⟨h.memory.never, h.memory.notified, h.memory.deferredHead, h.memory.writerHead,
      h.memory.completed, h.memory.current⟩
  · cases k with
    | early =>
      by_cases hcurrent : m.currentTask = .deferred
      · simp [balance, tokens, Instr.backend, hcurrent]
      · simp [balance, tokens, Instr.backend, hcurrent]
    | _ => simp [balance, tokens, Instr.finishes, Instr.locks]

theorem waitTest_keeps {n : Who} (h : protocol.Enters m (.waitTest n) rest)
    (hstep : waitTest m n = .next m' push spawned) :
    protocol.Keeps m (.waitTest n) rest m' push spawned := by
  cases hstep
  split
  · rename_i hset
    cases n with
    | deferred =>
      rw [h.memory.never] at hset
      cases hset
    | writer =>
      refine goto_keeps h (fun k => ?_) ⟨rfl, hset⟩
      cases k <;> rfl
  · rename_i hunset
    refine goto_keeps h (fun k => ?_) (by simpa [Fact] using hunset)
    cases k <;> rfl

theorem asleep_keeps {spurious : Bool} {n : Who} {seen : ℕ}
    (h : protocol.Enters m (.asleep n seen) rest)
    (hstep : asleep m spurious n seen = .next m' push spawned) :
    protocol.Keeps m (.asleep n seen) rest m' push spawned := by
  unfold asleep at hstep
  split at hstep
  · cases hstep
    refine goto_keeps h (fun k => ?_) trivial
    cases k <;> rfl
  · cases hstep

theorem waitDone_keeps {n : Who} (h : protocol.Enters m (.waitDone n) rest)
    (hstep : waitDone m n = .next m' push spawned) :
    protocol.Keeps m (.waitDone n) rest m' push spawned := by
  unfold waitDone at hstep
  split at hstep
  · cases hstep
    refine done_keeps h fun k => ?_
    cases k <;> rfl
  · cases hstep

end Steps

/-- Every step keeps the protocol. -/
theorem keeps {m m' : Mem} {choice : Bool} {ins : Instr} {rest push : List Instr}
    {spawned : List (List Instr)} (h : protocol.Enters m ins rest)
    (hexec : exec m choice ins = .next m' push spawned) :
    protocol.Keeps m ins rest m' push spawned := by
  cases ins with
  | redirect => exact redirect_keeps h hexec
  | moveArcs r => exact moveArcs_keeps h hexec
  | setNextWriter =>
    cases hexec
    refine goto_keeps h (fun k => ?_) h.relies.2
    cases k <;> rfl
  | assignTask => exact assignTask_keeps h hexec
  | publish => exact publish_keeps h hexec
  | closeList => exact closeList_keeps h hexec
  | notifyArcs r => exact notifyArcs_keeps h hexec
  | wakeupLock => exact lock_keeps .writer .wakeupSet h rfl rfl rfl rfl h.relies.2 hexec
  | wakeupSet => exact wakeupSet_keeps h hexec
  | wakeupUnlock => exact unlock_keeps .writer .wakeupNotify h rfl rfl rfl (by decide) h.relies.2 hexec
  | wakeupNotify => exact wakeupNotify_keeps h hexec
  | addArc a => exact addArc_keeps h hexec
  | waitTask =>
    cases hexec
    refine goto_keeps h (fun k => ?_) trivial
    cases k <;> rfl
  | waitHead n => exact waitHead_keeps h hexec
  | waitAgain => exact waitAgain_keeps h hexec
  | waitLock n => exact lock_keeps n (.waitTest n) h rfl rfl rfl rfl trivial hexec
  | waitTest n => exact waitTest_keeps h hexec
  | waitSleep n =>
    have hzero := h.memory.notified n h.relies.2
    exact unlock_keeps n (.asleep n (m.task n).notified) h rfl rfl rfl Iff.rfl hzero hexec
  | asleep n seen => exact asleep_keeps h hexec
  | waitUnlock n =>
    obtain ⟨rfl, hset⟩ := h.relies.2
    exact unlock_keeps .writer .waitLast h rfl rfl rfl (by decide) hset hexec
  | waitLast =>
    cases hexec
    have hset : (m.task .writer).completed = true := h.relies.2
    refine goto_keeps h (fun k => ?_) ⟨h.memory.current (h.memory.completed hset), hset⟩
    cases k <;> rfl
  | waitDone n => exact waitDone_keeps h hexec

/-! ## Runs -/

theorem tokens_of_use (u : Use) (k : Right) : tokens u.instr k = 0 := by
  cases u <;> cases k <;> rfl

theorem issued_of_use {us : List Use} {ins : Instr} (h : ins ∈ us.map Use.instr) :
    ins.issued = true := by
  obtain ⟨u, -, rfl⟩ := List.mem_map.mp h
  cases u <;> rfl

theorem stackSum_uses (us : List Use) (k : Right) : stackSum tokens (us.map Use.instr) k = 0 := by
  induction us with
  | nil => rfl
  | cons u us ih => rw [List.map_cons, stackSum_cons, ih, tokens_of_use, add_zero]

/-- Uses put on top of a stack of issued instructions. -/
theorem relies_uses {m : Mem} {us : List Use} {rest : List Instr} (hrest : StackOk Relies m rest)
    (hissued : ∀ x ∈ rest, x.issued = true) : StackOk Relies m (us.map Use.instr ++ rest) := by
  induction us with
  | nil => exact hrest
  | cons u us ih =>
    refine ⟨⟨fun x hx => ?_, ?_⟩, ih⟩
    · rcases List.mem_append.mp hx with hx | hx
      · exact issued_of_use hx
      · exact hissued x hx
    · cases u <;> trivial

/-- The protocol holds before the writer is registered. -/
theorem start_holds (before after : List Use) (users : List (List Use)) :
    protocol.Holds (start before after users) where
  memory :=
    { never := rfl
      notified := fun _ _ => rfl
      deferredHead := rfl
      writerHead := .inr ⟨[], rfl⟩
      completed := fun h => by cases h
      current := fun h => by cases h }
  law k := by
    have husers : threadSum tokens (users.map fun l => l.map Use.instr) k = 0 := by
      induction users with
      | nil => rfl
      | cons l users ih => rw [List.map_cons, threadSum_cons, ih, stackSum_uses, add_zero]
    cases k <;> simp [start, protocol, balance, tokens, Instr.finishes, Instr.locks,
      Instr.backend, husers, stackSum_uses]
  relies l hl := by
    have hrest : ∀ us : List Use, StackOk Relies (start before after users).mem (us.map Use.instr) := by
      intro us
      have h : StackOk Relies (start before after users).mem (us.map Use.instr ++ []) :=
        relies_uses trivial fun x hx => by cases hx
      rwa [List.append_nil] at h
    rcases List.mem_cons.mp hl with rfl | hl
    · refine relies_uses ⟨⟨fun x => issued_of_use, rfl, ⟨[], rfl⟩, [], rfl⟩, hrest after⟩ ?_
      intro x hx
      rcases List.mem_cons.mp hx with rfl | hx
      · rfl
      · exact issued_of_use hx
    · obtain ⟨us, -, rfl⟩ := List.mem_map.mp hl
      exact hrest us

theorem holds_of_reach {allowed : State → Turn → Prop} {before after : List Use}
    {users : List (List Use)} {c : State}
    (hreach : Reach exec allowed (start before after users) c) : protocol.Holds c :=
  Protocol.Holds.of_reach (start_holds before after users)
    (fun _ _ _ _ _ _ _ _ _ _ hexec h => keeps h hexec) hreach

/-! ## Nobody is left waiting -/

section Results

variable {c : State}

/-- No assertion fails. -/
theorem not_fault (h : protocol.Holds c) {ins : Instr} {rest : List Instr}
    (hl : ins :: rest ∈ c.threads) (choice : Bool) (cause : Fault) :
    exec c.mem choice ins ≠ .fault cause := by
  have hfact := (h.enters hl).relies.2
  intro hfault
  cases ins with
  | redirect =>
    obtain ⟨-, ⟨r, hr⟩, -⟩ := hfact
    simp [exec, redirect, hr] at hfault
  | moveArcs r =>
    obtain ⟨l, hopen⟩ := hfact
    cases r <;> simp [exec, moveArcs, hopen] at hfault
  | closeList =>
    obtain ⟨⟨r, hr⟩, -⟩ := hfact
    simp [exec, closeList, hr] at hfault
  | notifyArcs r => cases r <;> simp [exec, notifyArcs] at hfault
  | wakeupLock =>
    simp only [exec, lock] at hfault
    split at hfault <;> cases hfault
  | addArc a =>
    simp only [exec, addArc] at hfault
    split at hfault <;> cases hfault
  | waitLock n =>
    simp only [exec, lock] at hfault
    split at hfault <;> cases hfault
  | asleep n seen =>
    simp only [exec, asleep] at hfault
    split at hfault <;> cases hfault
  | waitDone n =>
    obtain ⟨rfl, hset⟩ := hfact
    have hdone : (c.mem.task .writer).head.isDone = true := h.memory.completed hset
    simp [exec, waitDone, hdone] at hfault
  | _ => cases hfault

/-- The instruction at the top of a thread of a stuck configuration takes a mutex that is held,
or sleeps. -/
theorem blocked_cases (h : protocol.Holds c) (hstuck : c.Stuck exec) {ins : Instr}
    {rest : List Instr} (hl : ins :: rest ∈ c.threads) :
    (ins = .wakeupLock ∧ (c.mem.task .writer).locked = true) ∨
    (∃ n, ins = .waitLock n ∧ (c.mem.task n).locked = true) ∨
    ∃ n seen, ins = .asleep n seen ∧ (c.mem.task n).notified = seen := by
  have hblocked := (hstuck.top hl).resolve_right fun ⟨cause, hfault⟩ =>
    not_fault h hl false cause hfault
  cases ins with
  | wakeupLock =>
    simp only [exec, lock] at hblocked
    split at hblocked
    · exact .inl ⟨rfl, ‹_›⟩
    · cases hblocked
  | waitLock n =>
    simp only [exec, lock] at hblocked
    split at hblocked
    · exact .inr (.inl ⟨n, rfl, ‹_›⟩)
    · cases hblocked
  | asleep n seen =>
    simp only [exec, asleep] at hblocked
    split at hblocked
    · cases hblocked
    · rename_i hsame
      exact .inr (.inr ⟨n, seen, rfl, by simpa using hsame⟩)
  | redirect =>
    simp only [exec, redirect] at hblocked
    split at hblocked <;> cases hblocked
  | moveArcs r =>
    cases r with
    | nil => cases hblocked
    | cons a r =>
      simp only [exec, moveArcs] at hblocked
      split at hblocked <;> cases hblocked
  | closeList =>
    simp only [exec, closeList] at hblocked
    split at hblocked <;> cases hblocked
  | notifyArcs r => cases r <;> cases hblocked
  | addArc a =>
    simp only [exec, addArc] at hblocked
    split at hblocked <;> cases hblocked
  | waitDone n =>
    simp only [exec, waitDone] at hblocked
    split at hblocked <;> cases hblocked
  | _ => cases hblocked

/-- An instruction that no thread starts with is at the top of its stack. -/
theorem top_of_not_issued (h : protocol.Holds c) {l : List Instr} (hl : l ∈ c.threads)
    {ins : Instr} (hins : ins ∈ l) (hissued : ins.issued = false) :
    ∃ rest, ins :: rest ∈ c.threads := by
  cases l with
  | nil => cases hins
  | cons x rest =>
    rcases List.mem_cons.mp hins with rfl | hmem
    · exact ⟨rest, hl⟩
    · rw [(h.enters hl).relies.1 ins hmem] at hissued
      cases hissued

/-- No mutex is held when nothing can run: its holder could. -/
theorem not_locked (h : protocol.Holds c) (hstuck : c.Stuck exec) (n : Who) :
    (c.mem.task n).locked = false := by
  by_contra hlocked
  rw [Bool.not_eq_false] at hlocked
  have howed : protocol.balance c.mem (.lock n) < 0 := by
    simp [protocol, balance, hlocked]
  obtain ⟨l, hl, ins, hins, hpos⟩ := h.exists_holder howed
  have hlocks : ins.locks = some n := by
    by_contra hno
    simp [protocol, tokens, hno] at hpos
  have hissued : ins.issued = false := by
    cases ins <;> first | rfl | cases hlocks
  obtain ⟨rest, htop⟩ := top_of_not_issued h hl hins hissued
  rcases blocked_cases h hstuck htop with ⟨rfl, -⟩ | ⟨k, rfl, -⟩ | ⟨k, seen, rfl, -⟩ <;> cases hlocks

/-- Once nothing can run, a complete writer has woken its waiters. -/
theorem notified_of_done (h : protocol.Holds c) (hstuck : c.Stuck exec) (hdone : Done c.mem) :
    (c.mem.task .writer).notified ≠ 0 := by
  intro hzero
  have howed : protocol.balance c.mem .finish < 0 := by
    simp [protocol, balance, hzero]
  obtain ⟨l, hl, ins, hins, hpos⟩ := h.exists_holder howed
  have hfinishes : ins.finishes = true := by
    by_contra hno
    simp [protocol, tokens, hno] at hpos
  obtain ⟨rest, -, hrelies⟩ := (h.relies l hl).exists_rest hins
  have hclosed : ∀ n, n = Who.writer → ¬ Open c.mem n := by
    rintro n rfl ⟨r, hr⟩
    rw [Done, hr] at hdone
    cases hdone
  have hissued : ins.issued = false := by
    cases ins with
    | redirect => exact absurd hrelies.2.2.2 (hclosed _ rfl)
    | addArc a => cases hfinishes
    | waitTask => cases hfinishes
    | _ => rfl
  obtain ⟨rest', htop⟩ := top_of_not_issued h hl hins hissued
  rcases blocked_cases h hstuck htop with ⟨rfl, hlocked⟩ | ⟨k, rfl, -⟩ | ⟨k, seen, rfl, -⟩
  · rw [not_locked h hstuck] at hlocked
    cases hlocked
  · cases hfinishes
  · cases hfinishes

/-- When nothing can run and the writer is complete, all waits have returned if and only if none
of them entered the backend's wait of the deferred node. -/
theorem all_returned_iff {allowed : State → Turn → Prop} {before after : List Use}
    {users : List (List Use)} (hreach : Reach exec allowed (start before after users) c)
    (hstuck : c.Stuck exec) (hdone : Done c.mem) :
    (∀ l ∈ c.threads, l = []) ↔ c.mem.early = 0 := by
  have h := holds_of_reach hreach
  constructor
  · intro hall
    by_contra hearly
    have howed : protocol.balance c.mem .early < 0 := by
      simp only [protocol, balance]
      omega
    obtain ⟨l, hl, ins, hins, -⟩ := h.exists_holder howed
    rw [hall l hl] at hins
    cases hins
  · intro hearly l hl
    cases l with
    | nil => rfl
    | cons ins rest =>
      exfalso
      rcases blocked_cases h hstuck hl with ⟨-, hlocked⟩ | ⟨n, -, hlocked⟩ | ⟨n, seen, rfl, hseen⟩
      · rw [not_locked h hstuck] at hlocked
        cases hlocked
      · rw [not_locked h hstuck] at hlocked
        cases hlocked
      · -- a thread sleeps on the writer, which has been notified after it fell asleep
        have hzero : seen = 0 := (h.enters hl).relies.2
        have hcov := (h.enters hl).covered .early
        cases n with
        | deferred =>
          simp [protocol, tokens, balance, Instr.backend, hearly] at hcov
        | writer => exact notified_of_done h hstuck hdone (hseen.trans hzero)

/-- Only a wait that finds the deferred node in `current_task` is counted. -/
theorem early_step {m m' : Mem} {choice : Bool} {ins : Instr} {push : List Instr}
    {spawned : List (List Instr)} (hexec : exec m choice ins = .next m' push spawned) :
    m'.early = m.early ∨ ins = .waitAgain ∧ m.currentTask = .deferred := by
  by_cases hearly : ins = .waitAgain ∧ m.currentTask = .deferred
  · exact .inr hearly
  · refine .inl ?_
    cases ins with
    | waitAgain =>
      have hcurrent : m.currentTask ≠ .deferred := fun h => hearly ⟨rfl, h⟩
      cases hexec
      simp [hcurrent]
    | redirect =>
      simp only [exec, redirect] at hexec
      split at hexec <;> cases hexec
      rfl
    | moveArcs r =>
      cases r with
      | nil =>
        cases hexec
        rfl
      | cons a r =>
        simp only [exec, moveArcs] at hexec
        split at hexec <;> cases hexec
        rfl
    | closeList =>
      simp only [exec, closeList] at hexec
      split at hexec <;> cases hexec
      rfl
    | notifyArcs r =>
      cases r <;> cases hexec <;> rfl
    | addArc a =>
      simp only [exec, addArc] at hexec
      split at hexec <;> cases hexec <;> rfl
    | wakeupLock =>
      simp only [exec, lock] at hexec
      split at hexec <;> cases hexec
      rfl
    | waitLock n =>
      simp only [exec, lock] at hexec
      split at hexec <;> cases hexec
      rfl
    | asleep n seen =>
      simp only [exec, asleep] at hexec
      split at hexec <;> cases hexec
      rfl
    | waitDone n =>
      simp only [exec, waitDone] at hexec
      split at hexec <;> cases hexec
      rfl
    | _ =>
      cases hexec
      rfl

/-- No wait enters the backend's wait of the deferred node when every turn sees to it. -/
theorem early_eq_zero {before after : List Use} {users : List (List Use)}
    (hreach : Reach exec (fun c e => registered c e = true) (start before after users) c) :
    c.mem.early = 0 := by
  apply hreach.invariant (I := fun c => c.mem.early = 0) rfl
  intro c c' e hzero hregistered hstep
  obtain ⟨ins, rest, push, spawned, htop, hexec, -⟩ := Config.step_cases hstep
  rcases early_step hexec with hsame | ⟨rfl, hcurrent⟩
  · exact hsame.trans hzero
  · unfold registered at hregistered
    rw [htop] at hregistered
    simp [hcurrent] at hregistered

/-- In every run whose waits enter the backend's wait after the writer was registered: when
nothing can run and the writer is complete, no thread is left waiting. -/
theorem all_returned_of_registered {before after : List Use} {users : List (List Use)}
    (hreach : Reach exec (fun c e => registered c e = true) (start before after users) c)
    (hstuck : c.Stuck exec) (hdone : Done c.mem) : ∀ l ∈ c.threads, l = [] :=
  (all_returned_iff hreach hstuck hdone).mpr (early_eq_zero hreach)

end Results

/-- A wait that finds the writer in `current_task` returns. -/
theorem all_returned_of_registered_once : ∃ c,
    Reach exec (fun c e => registered c e = true) (start [] [] [[.wait]]) c ∧
    Done c.mem ∧ ∀ l ∈ c.threads, l = [] := by
  obtain ⟨c, hreach, hc⟩ := Reach.exists_of_runIf exec registered (start [] [] [[.wait]])
    (rounds [(1, 2), (0, 5), (1, 4), (2, 6), (1, 6)])
    (fun c => decide ((c.mem.task .writer).head.isDone = true) && c.isStuck exec)
    (by decide)
  rw [Bool.and_eq_true, decide_eq_true_eq] at hc
  exact ⟨c, hreach, hc.1,
    all_returned_of_registered hreach (Config.stuck_of_isStuck hc.2) hc.1⟩

/-- A wait that began before the writer was registered is never woken. -/
theorem early_wait_is_lost : ∃ c,
    Reach exec (fun _ _ => True) (start [] [] [[.wait]]) c ∧
    c.Stuck exec ∧ Done c.mem ∧ c.threads[1]? = some [Instr.asleep .deferred 0] := by
  obtain ⟨c, hreach, hc⟩ := Reach.exists_of_run exec (start [] [] [[.wait]])
    (rounds [(1, 6), (0, 5), (2, 6)])
    (fun c => decide ((c.mem.task .writer).head.isDone = true ∧
      c.threads[1]? = some [Instr.asleep .deferred 0]) && c.isStuck exec) (by decide)
  rw [Bool.and_eq_true, decide_eq_true_eq] at hc
  exact ⟨c, hreach, Config.stuck_of_isStuck hc.2, hc.1.1, hc.1.2⟩

end Oox.Monitor
