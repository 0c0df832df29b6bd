import Oox.Forwarding.Outcome

/-!
# What a forwarding task takes over

As long as the port of the returned var is 0, or its task gets neither an exception nor a user's
cancellation, and no cancellation takes effect once that task looks for failures no more, each
step keeps the forwarding task on the way to the outcome of the returned var.
-/

set_option autoImplicit false

namespace Oox.Transparent

open Library

/-! ## The condition -/

/-- A mark on the task of the returned var that a wait on that var reports and the forwarding
task takes over alike. -/
def admits (m : Mem) : Instr → Bool
  | .mark .inner b _ => m.port == 0 || b == .dependencyCancelled
  | .cancelMark => m.port == 0 && (m.inner.word.exception || m.inner.word.userCancelled ||
      (!m.inner.head.isDone && (!m.running || m.inner.word.failed)))
  | _ => true

def admitted (c : State) (e : Turn) : Bool :=
  match c.threads[e.thread]? with
  | some (ins :: _) => admits c.mem ins
  | _ => true

/-! ## The protocol -/

/-- The outcome that a wait on the returned var reports. -/
def Mem.returned (m : Mem) : Option Failure := m.inner.failureWaitStatus m.port

inductive Right where
  /-- a unit of the count of the task of the returned var. -/
  | start
  /-- such a unit, with no payload left to mark. -/
  | clean
  /-- to mark the task of the returned var, which has the payload already. -/
  | payload
  /-- to run and complete the task of the returned var. -/
  | inner
  /-- to go on with the forwarding task. -/
  | outer
  /-- to observe the outcome of the forwarding task. -/
  | view
  deriving DecidableEq, Repr

namespace Instr

@[simp] def awaits : Instr → Bool
  | .publish .inner _ .remove => true
  | .mark .inner _ .remove => true
  | .removePrerequisite .inner => true
  | _ => false

@[simp] def isClean : Instr → Bool
  | .publish .inner _ .remove => true
  | .mark .inner b .remove => b != .exception
  | .removePrerequisite .inner => true
  | _ => false

@[simp] def marks : Instr → Bool
  | .mark .inner .exception .remove => true
  | _ => false

@[simp] def runs : Instr → Bool
  | .publish .inner _ .complete => true
  | .mark .inner _ .complete => true
  | .execute .inner => true
  | .complete .inner _ => true
  | .closeList .inner _ _ => true
  | _ => false

@[simp] def forwards : Instr → ℕ
  | .publish .outer _ _ => 1
  | .mark .outer _ _ => 1
  | .publishFrom _ => 1
  | .removePrerequisite .outer => 1
  | .execute .outer => 1
  | .forward => 1
  | .offerArc => 1
  | .checkFailure => 1
  | .complete .outer _ => 1
  | .closeList .outer _ _ => 1
  | .notifyLoad .inner _ l => l.count .arc
  | .notifyArcs .inner _ _ l => l.count .arc
  | _ => 0

@[simp] def views : Instr → ℕ
  | .notifyLoad .outer _ l => l.count .arc
  | .notifyArcs .outer _ _ l => l.count .arc
  | .consume => 1
  | .lateCheck => 1
  | .consumerFailure => 1
  | .wait .outer => 1
  | .hasFailure .outer => 1
  | .failureBits .outer => 1
  | _ => 0

end Instr

def tokens (ins : Instr) : Right → ℤ
  | .start => if ins.awaits then 1 else 0
  | .clean => if ins.isClean then 1 else 0
  | .payload => if ins.marks then 1 else 0
  | .inner => if ins.runs then 1 else 0
  | .outer => ins.forwards
  | .view => ins.views

def balance (m : Mem) : Right → ℤ
  | .start => -m.waiting
  | .clean => m.unmarked - m.waiting
  | .payload => -m.unmarked
  | .inner => -(!m.inner.head.isDone && m.waiting == 0).toNat
  | .outer => m.inner.head.arcs - (!m.outer.head.isDone).toNat
  | .view => m.observed.length + m.outer.head.arcs - m.users

/-- The task of the returned var has completed. -/
def Settled (m : Mem) : Prop := m.inner.head.isDone = true

/-- The body of the forwarding task has returned, and nothing has reached the task since. -/
def Fresh (m : Mem) : Prop :=
  m.outer.word = { count := 1 } ∧ m.outer.head.signals = [] ∧ m.hasValue = true

/-- The forwarding task has taken over the outcome of the returned var. -/
def Mirrored (m : Mem) : Prop :=
  Settled m ∧ m.outer.failureWaitStatus 0 = m.returned ∧
    (m.outer.word.failed = false → m.outer.head.signals = []) ∧ m.hasValue = true

/-- What a thread that notifies the entries of `l` relies on. -/
def Notifying (m : Mem) (t : Who) (canThrow : Bool) (l : List Entry) : Prop :=
  (m.task t).head.isDone = true ∧ canThrow = (m.task t).word.failed ∧
    (canThrow = false → ∀ e, .signal e ∉ l)

def Failure.payloads : Failure → List ℕ
  | .exception e => [e]
  | _ => []

/-- What the template of `notify_successors` was chosen from. -/
def Completing (m : Mem) (canThrow : Bool) : Prop :=
  canThrow = m.inner.word.failed ∧
    (canThrow = false → m.inner.head.signals = [] ∧ m.running = true)

def Task.terminal (x : Task) (canThrow : Bool) : Option ℕ :=
  if canThrow && x.word.exception then x.handle else none

/-- What an instruction relies on. -/
def Fact (m : Mem) : Instr → Prop
  | .publish .inner f .complete => f ≠ none
  | .publish .outer f _ => Fresh m ∧ Settled m ∧ f = m.returned ∧ f ≠ none
  | .mark .outer b _ => Settled m ∧ m.hasValue = true ∧ m.outer.word = { count := 1 } ∧
      ∃ f : Failure, m.returned = some f ∧ f.bit = b ∧ m.outer.head.signals = f.payloads
  | .publishFrom _ => Fresh m ∧ Settled m ∧ m.inner.word.failed = true
  | .removePrerequisite .outer => Mirrored m ∧ m.outer.word.count = 1
  | .execute .inner => m.inner.head.signals ≠ [] → m.inner.word.exception = true
  | .execute .outer => Mirrored m ∨
      m.hasValue = false ∧ m.outer.word.failed = false ∧ m.outer.head.signals = []
  | .forward => m.hasValue = true ∧ m.outer.head.signals = []
  | .offerArc => Fresh m
  | .checkFailure => Fresh m ∧ Settled m
  | .complete .inner canThrow => Completing m canThrow
  | .complete .outer canThrow => Mirrored m ∧ canThrow = m.outer.word.failed
  | .closeList .inner canThrow terminal =>
      Completing m canThrow ∧ terminal = m.inner.terminal canThrow
  | .closeList .outer canThrow terminal =>
      Mirrored m ∧ canThrow = m.outer.word.failed ∧ terminal = m.outer.terminal canThrow
  | .notifyLoad .inner canThrow l => Notifying m .inner canThrow l ∧ (.arc ∈ l → Fresh m)
  | .notifyLoad .outer canThrow l => Notifying m .outer canThrow l
  | .notifyArcs .inner canThrow failed l =>
      Notifying m .inner canThrow l ∧ (.arc ∈ l → Fresh m) ∧ failed = canThrow
  | .notifyArcs .outer canThrow failed l => Notifying m .outer canThrow l ∧ failed = canThrow
  | .lateCheck => m.outer.head.isDone = true
  | .consumerFailure => m.outer.head.isDone = true ∧ m.outer.word.failed = true
  | .hasFailure t => (m.task t).head.isDone = true
  | .failureBits t => (m.task t).head.isDone = true ∧ (m.task t).word.failed = true
  | _ => True

def Relies (m : Mem) (ins : Instr) (_rest : List Instr) : Prop := Fact m ins

structure MemOk (m : Mem) : Prop where
  flag : ∀ t, (m.task t).word.failureFlag = (m.task t).word.failed
  ports : m.port ≠ 0 → m.inner.word.exception = false ∧ m.inner.word.userCancelled = false
  waiting : 0 < m.waiting → m.inner.head.isDone = false ∧ m.inner.word.count = m.waiting
  marked : 0 < m.waiting → m.inner.head.signals ≠ [] →
    m.inner.word.exception = true ∨ 0 < m.unmarked
  outer : m.outer.head.isDone = true → Settled m ∧ m.outer.failureWaitStatus 0 = m.returned
  fresh : 0 < m.inner.head.arcs → Fresh m
  observed : ∀ o ∈ m.observed, Settled m ∧ o = m.returned
  reported : ∀ o ∈ m.reported, Settled m ∧ o = m.returned

def protocol : Protocol Mem Instr Right where
  balance := balance
  tokens := tokens
  memory := MemOk
  relies := Relies
  tokens_nonneg ins k := by
    cases k with
    | outer => exact Int.natCast_nonneg _
    | view => exact Int.natCast_nonneg _
    | _ =>
      simp only [tokens]
      split_ifs <;> omega

/-! ## Outcomes -/

theorem mark_failed (w : StartCount) (b : FailureBit) :
    (w.mark b).failed = true ∧ (w.mark b).failureFlag = true := by
  cases b <;> simp [StartCount.mark, StartCount.failed]

/-- A failed version publishes what a wait on it reports. -/
theorem published_of_failed {x : Task} (h : x.word.failed = true) :
    x.publishedFailure 0 = x.failureWaitStatus 0 := by
  have hbits := h
  simp only [StartCount.failed, Bool.or_eq_true] at hbits
  unfold Task.publishedFailure Task.failureWaitStatus Task.failureForPort
  simp only [h, if_true, ne_eq, not_true_eq_false, if_false]
  by_cases hexc : x.word.exception = true
  · rw [if_pos hexc, if_pos hexc]
    cases x.handle <;> rfl
  · rw [if_neg hexc, if_neg hexc]
    by_cases huser : x.word.userCancelled = true
    · rw [if_pos huser, if_pos huser]
    · rw [if_neg huser, if_neg huser, if_pos (by tauto)]

/-- The forwarding task publishes to itself what a wait on the returned var reports. -/
theorem published_eq {m : Mem} (h : MemOk m) (hfailed : m.inner.word.failed = true) :
    m.inner.publishedFailure 0 = m.returned := by
  rw [published_of_failed hfailed]
  by_cases hport : m.port = 0
  · rw [Mem.returned, hport]
  · obtain ⟨hexc, huser⟩ := h.ports hport
    unfold Mem.returned Task.failureWaitStatus Task.failureForPort
    simp [hfailed, hport, hexc, huser]

theorem returned_of_failed {m : Mem} (hfailed : m.inner.word.failed = true) :
    m.returned ≠ none := by
  unfold Mem.returned Task.failureWaitStatus
  rw [if_pos hfailed]
  exact Option.some_ne_none _

theorem returned_of_not_failed {m : Mem} (hfine : m.inner.word.failed = false) :
    m.returned = none := by
  unfold Mem.returned Task.failureWaitStatus
  rw [hfine]
  rfl

/-- The user's cancellation of a version with an exception or already cancelled changes
nothing. -/
theorem status_mark_user {x : Task} {port : ℕ}
    (h : x.word.exception = true ∨ x.word.userCancelled = true) :
    ({ x with word := x.word.mark .userCancelled } : Task).failureWaitStatus port =
      x.failureWaitStatus port := by
  have hfailed : x.word.failed = true := by
    simp only [StartCount.failed, Bool.or_eq_true]
    tauto
  unfold Task.failureWaitStatus Task.failureForPort Task.handle
  rw [if_pos (mark_failed x.word .userCancelled).1, if_pos hfailed]
  by_cases hexc : x.word.exception = true
  · simp [StartCount.mark, hexc]
  · have huser : x.word.userCancelled = true := by tauto
    simp [StartCount.mark, hexc, huser]

/-- The list is exchanged for a terminal arc exactly when a wait reports its payload. -/
theorem status_close {x : Task} {canThrow : Bool} {port : ℕ} (hthrow : canThrow = x.word.failed) :
    ({ x with head := .closed (x.terminal canThrow) } : Task).failureWaitStatus port =
      x.failureWaitStatus port := by
  unfold Task.failureWaitStatus Task.failureForPort
  by_cases hfailed : x.word.failed = true
  · rw [if_pos hfailed, if_pos hfailed]
    by_cases hexc : x.word.exception = true
    · have hterminal : x.terminal canThrow = x.handle := by
        simp [Task.terminal, hthrow, hfailed, hexc]
      have hhandle : ({ x with head := .closed x.handle } : Task).handle = x.handle := by
        cases x.handle <;> rfl
      rw [hterminal]
      dsimp only
      rw [if_pos hexc, if_pos hexc, hhandle]
    · dsimp only
      rw [if_neg hexc, if_neg hexc]
  · rw [if_neg hfailed, if_neg hfailed]

/-! ## Steps -/

section Steps

variable {m m' : Mem} {ins : Instr} {rest push : List Instr} {spawned : List (List Instr)}

/-- Who runs the task of the returned var finds it open, with all prerequisites gone. -/
theorem running_of (hheld : 1 ≤ -balance m .inner) :
    m.inner.head.isDone = false ∧ m.waiting = 0 := by
  have hbusy : (!m.inner.head.isDone && m.waiting == 0) = true := by
    by_contra hno
    rw [Bool.not_eq_true] at hno
    simp [balance, hno] at hheld
  simpa using hbusy

/-- Who goes on with the forwarding task finds it open, and no arc of it elsewhere. -/
theorem forwarding_of (hheld : 1 ≤ -balance m .outer) :
    m.outer.head.isDone = false ∧ m.inner.head.arcs = 0 := by
  cases hdone : m.outer.head.isDone with
  | true =>
    simp only [balance, hdone, Bool.not_true, Bool.toNat_false] at hheld
    omega
  | false =>
    simp only [balance, hdone, Bool.not_false, Bool.toNat_true] at hheld
    exact ⟨rfl, by omega⟩

theorem runs_alone {other : Instr} (hother : other.runs = true)
    (hwith : Together balance tokens m ins other) : ins.runs = false ∧ ins.awaits = false := by
  have hinner := hwith .inner
  have hstart := hwith .start
  simp only [tokens, hother, if_true] at hinner
  have hle : 1 ≤ -balance m .inner := by
    split_ifs at hinner <;> omega
  obtain ⟨hopen, hzero⟩ := running_of hle
  simp only [balance, hopen, hzero, tokens] at hinner hstart
  constructor
  · cases hins : ins.runs with
    | false => rfl
    | true =>
      rw [hins, if_pos rfl] at hinner
      norm_num at hinner
  · cases hins : ins.awaits with
    | false => rfl
    | true =>
      simp only [hins, if_true] at hstart
      split_ifs at hstart <;> norm_num at hstart

theorem forwards_alone {other : Instr} (hother : 0 < other.forwards)
    (hwith : Together balance tokens m ins other) : ins.forwards = 0 := by
  have hk := hwith .outer
  have hle := Bool.toNat_le (!m.outer.head.isDone)
  simp only [tokens, balance] at hk
  omega

/-- What a step must leave alone for the sake of the other threads. -/
structure Frame (m m' : Mem) (ins : Instr) : Prop where
  settled : Settled m →
    Settled m' ∧ m'.inner.word.failed = m.inner.word.failed ∧ m'.returned = m.returned
  inner : ins.awaits = false → ins.runs = false →
    m'.inner.head.signals = m.inner.head.signals ∧
    m'.inner.word.exception = m.inner.word.exception ∧ m'.inner.handle = m.inner.handle ∧
    m'.running = m.running ∧ (m.inner.word.failed = true ∨ m.running = true →
      m'.inner.word.failed = m.inner.word.failed)
  outer : ins.forwards = 0 → m'.outer.word = m.outer.word ∧
    m'.outer.head.signals = m.outer.head.signals ∧ m'.outer.handle = m.outer.handle ∧
    m'.hasValue = m.hasValue
  served : m.outer.head.isDone = true → m'.outer = m.outer

namespace Frame

theorem fresh (hframe : Frame m m' ins) (hins : ins.forwards = 0) (h : Fresh m) : Fresh m' := by
  obtain ⟨hword, hsignals, -, hvalue⟩ := hframe.outer hins
  exact ⟨hword.trans h.1, hsignals.trans h.2.1, hvalue.trans h.2.2⟩

theorem mirrored (hframe : Frame m m' ins) (hins : ins.forwards = 0) (h : Mirrored m) :
    Mirrored m' := by
  obtain ⟨hword, hsignals, hhandle, hvalue⟩ := hframe.outer hins
  obtain ⟨hsettled, -, hreturned⟩ := hframe.settled h.1
  refine ⟨hsettled, ?_, ?_, hvalue.trans h.2.2.2⟩
  · rw [hreturned, ← h.2.1]
    simp only [Task.failureWaitStatus, Task.failureForPort, hword, hhandle]
  · rw [hword, hsignals]
    exact h.2.2.1

theorem notifying (hframe : Frame m m' ins) {t : Who} {canThrow : Bool} {l : List Entry}
    (h : Notifying m t canThrow l) : Notifying m' t canThrow l := by
  obtain ⟨hdone, hthrow, hsignals⟩ := h
  cases t with
  | inner =>
    obtain ⟨hsettled, hfailed, -⟩ := hframe.settled hdone
    exact ⟨hsettled, hthrow.trans hfailed.symm, hsignals⟩
  | outer =>
    have hsame : m'.outer = m.outer := hframe.served hdone
    refine ⟨?_, ?_, hsignals⟩
    · rw [← hdone]
      simp only [Mem.task, hsame]
    · rw [hthrow]
      simp only [Mem.task, hsame]

theorem completing (hframe : Frame m m' ins) (hawaits : ins.awaits = false)
    (hruns : ins.runs = false) {canThrow : Bool} (h : Completing m canThrow) :
    Completing m' canThrow ∧ m'.inner.terminal canThrow = m.inner.terminal canThrow := by
  obtain ⟨hsignals, hexc, hhandle, hrunning, hfailed⟩ := hframe.inner hawaits hruns
  obtain ⟨hthrow, hclean⟩ := h
  have hsame : m'.inner.word.failed = m.inner.word.failed := by
    apply hfailed
    cases canThrow with
    | true => exact .inl hthrow.symm
    | false => exact .inr (hclean rfl).2
  refine ⟨⟨hthrow.trans hsame.symm, fun hc => ?_⟩, ?_⟩
  · exact ⟨hsignals.trans (hclean hc).1, hrunning.trans (hclean hc).2⟩
  · simp only [Task.terminal, hexc, hhandle]

theorem done (hframe : Frame m m' ins) {t : Who} (h : (m.task t).head.isDone = true) :
    (m'.task t).head.isDone = true ∧ (m'.task t).word.failed = (m.task t).word.failed := by
  cases t with
  | inner => exact ⟨(hframe.settled h).1, (hframe.settled h).2.1⟩
  | outer =>
    have hsame : m'.outer = m.outer := hframe.served h
    simp only [Mem.task, hsame]
    exact ⟨h, trivial⟩

theorem stable (hframe : Frame m m' ins) {other : Instr} (h : Fact m other)
    (hwith : Together balance tokens m ins other) : Fact m' other := by
  have hruns : other.runs = true → ins.runs = false ∧ ins.awaits = false :=
    fun hother => runs_alone hother hwith
  have hforwards : 0 < other.forwards → ins.forwards = 0 :=
    fun hother => forwards_alone hother hwith
  cases other with
  | publish t f next =>
    cases t with
    | inner =>
      cases next with
      | remove => trivial
      | complete => exact h
    | outer =>
      obtain ⟨hfresh, hsettled, hf, hsome⟩ := h
      obtain ⟨hsettled', -, hreturned⟩ := hframe.settled hsettled
      exact ⟨hframe.fresh (hforwards Nat.one_pos) hfresh, hsettled', hf.trans hreturned.symm, hsome⟩
  | mark t b next =>
    cases t with
    | inner => cases next <;> trivial
    | outer =>
      obtain ⟨hsettled, hvalue, hword, f, hf, hbit, hsignals⟩ := h
      obtain ⟨hsettled', -, hreturned⟩ := hframe.settled hsettled
      obtain ⟨hword', hsignals', -, hvalue'⟩ := hframe.outer (hforwards Nat.one_pos)
      exact ⟨hsettled', hvalue'.trans hvalue, hword'.trans hword, f, hreturned.trans hf, hbit,
        hsignals'.trans hsignals⟩
  | publishFrom next =>
    obtain ⟨hfresh, hsettled, hfailed⟩ := h
    obtain ⟨hsettled', hfailed', -⟩ := hframe.settled hsettled
    exact ⟨hframe.fresh (hforwards Nat.one_pos) hfresh, hsettled', hfailed'.trans hfailed⟩
  | removePrerequisite t =>
    cases t with
    | inner => trivial
    | outer =>
      have hins := hforwards Nat.one_pos
      refine ⟨hframe.mirrored hins h.1, ?_⟩
      rw [(hframe.outer hins).1]
      exact h.2
  | execute t =>
    cases t with
    | inner =>
      obtain ⟨hruns', hawaits⟩ := hruns rfl
      obtain ⟨hsignals, hexc, -⟩ := hframe.inner hawaits hruns'
      show m'.inner.head.signals ≠ [] → m'.inner.word.exception = true
      rw [hsignals, hexc]
      exact h
    | outer =>
      have hins := hforwards Nat.one_pos
      obtain ⟨hword, hsignals, -, hvalue⟩ := hframe.outer hins
      rcases h with hmirrored | ⟨hnone, hfine, hempty⟩
      · exact .inl (hframe.mirrored hins hmirrored)
      · exact .inr ⟨hvalue.trans hnone, by rw [hword]; exact hfine, hsignals.trans hempty⟩
  | forward =>
    obtain ⟨-, hsignals, -, hvalue⟩ := hframe.outer (hforwards Nat.one_pos)
    exact ⟨hvalue.trans h.1, hsignals.trans h.2⟩
  | offerArc => exact hframe.fresh (hforwards Nat.one_pos) h
  | checkFailure => exact ⟨hframe.fresh (hforwards Nat.one_pos) h.1, (hframe.settled h.2).1⟩
  | complete t canThrow =>
    cases t with
    | inner =>
      obtain ⟨hruns', hawaits⟩ := hruns rfl
      exact (hframe.completing hawaits hruns' h).1
    | outer =>
      have hins := hforwards Nat.one_pos
      exact ⟨hframe.mirrored hins h.1, by rw [(hframe.outer hins).1]; exact h.2⟩
  | closeList t canThrow terminal =>
    cases t with
    | inner =>
      obtain ⟨hruns', hawaits⟩ := hruns rfl
      obtain ⟨hcompleting, hterminal⟩ := hframe.completing hawaits hruns' h.1
      exact ⟨hcompleting, h.2.trans hterminal.symm⟩
    | outer =>
      have hins := hforwards Nat.one_pos
      obtain ⟨hword, -, hhandle, -⟩ := hframe.outer hins
      refine ⟨hframe.mirrored hins h.1, by rw [hword]; exact h.2.1, h.2.2.trans ?_⟩
      simp only [Task.terminal, hword, hhandle]
  | notifyLoad t canThrow l =>
    cases t with
    | inner =>
      refine ⟨hframe.notifying h.1, fun hmem => hframe.fresh (hforwards ?_) (h.2 hmem)⟩
      exact List.count_pos_iff.mpr hmem
    | outer => exact hframe.notifying h
  | notifyArcs t canThrow failed l =>
    cases t with
    | inner =>
      refine ⟨hframe.notifying h.1, fun hmem => hframe.fresh (hforwards ?_) (h.2.1 hmem), h.2.2⟩
      exact List.count_pos_iff.mpr hmem
    | outer => exact ⟨hframe.notifying h.1, h.2⟩
  | lateCheck => exact (hframe.done (t := .outer) h).1
  | consumerFailure =>
    obtain ⟨hdone, hfailed⟩ := hframe.done (t := .outer) h.1
    exact ⟨hdone, hfailed.trans h.2⟩
  | hasFailure t => exact (hframe.done h).1
  | failureBits t =>
    obtain ⟨hdone, hfailed⟩ := hframe.done h.1
    exact ⟨hdone, hfailed.trans h.2⟩
  | _ => trivial

end Frame

/-- Instructions put on a stack in order. -/
theorem stackOk_append {l : List Instr} (hpush : ∀ x ∈ push, Fact m x)
    (hrest : StackOk Relies m l) : StackOk Relies m (push ++ l) := by
  induction push with
  | nil => exact hrest
  | cons x push ih =>
    exact ⟨hpush x List.mem_cons_self, ih fun y hy => hpush y (List.mem_cons_of_mem _ hy)⟩

/-- A step keeps the protocol when it keeps the memory in order, leaves alone what others rely
on, and pushes in order. -/
theorem Frame.keeps (hframe : Frame m m' ins) (hok : MemOk m')
    (hcons : Conserves balance tokens m ins m' push spawned) (hpush : ∀ x ∈ push, Fact m' x)
    (hspawned : ∀ l ∈ spawned, ∀ x ∈ l, Fact m' x) :
    protocol.Keeps m ins rest m' push spawned where
  memory := hok
  conserves := hcons
  stable other _ hrelies hwith := hframe.stable hrelies (hwith other List.mem_cons_self)
  push := stackOk_append hpush
  spawned l hl := by
    have h := stackOk_append (l := []) (hspawned l hl) trivial
    rwa [List.append_nil] at h

theorem frame_refl (m : Mem) (ins : Instr) : Frame m m ins where
  settled h := ⟨h, rfl, rfl⟩
  inner _ _ := ⟨rfl, rfl, rfl, rfl, fun _ => rfl⟩
  outer _ := ⟨rfl, rfl, rfl, rfl⟩
  served _ := rfl

/-- A step that only goes on, with the same rights. -/
theorem goto_keeps (h : protocol.Enters m ins rest)
    (hsame : ∀ k, stackSum tokens push k = tokens ins k) (hfacts : ∀ x ∈ push, Fact m x) :
    protocol.Keeps m ins rest m push [] :=
  (frame_refl m ins).keeps h.memory (fun k => by rw [hsame k, threadSum_nil, add_zero]) hfacts
    fun l hl => by cases hl

/-- A change of the task of the returned var before it has completed. -/
theorem MemOk.of_inner (h : MemOk m) (hopen : m.inner.head.isDone = false)
    (houter : m'.outer = m.outer) (hvalue : m'.hasValue = m.hasValue)
    (hobserved : m'.observed = m.observed) (hreported : m'.reported = m.reported)
    (hflag : m'.inner.word.failureFlag = m'.inner.word.failed)
    (hports : m'.port ≠ 0 →
      m'.inner.word.exception = false ∧ m'.inner.word.userCancelled = false)
    (hwaiting : 0 < m'.waiting →
      m'.inner.head.isDone = false ∧ m'.inner.word.count = m'.waiting)
    (hmarked : 0 < m'.waiting → m'.inner.head.signals ≠ [] →
      m'.inner.word.exception = true ∨ 0 < m'.unmarked)
    (harcs : m'.inner.head.arcs ≤ m.inner.head.arcs) : MemOk m' := by
  have hnot : ¬Settled m := by
    intro hsettled
    rw [Settled, hopen] at hsettled
    cases hsettled
  exact
    { flag := fun t => by
        cases t with
        | inner => exact hflag
        | outer =>
          have hsame := h.flag .outer
          simp only [Mem.task, houter] at hsame ⊢
          exact hsame
      ports := hports
      waiting := hwaiting
      marked := hmarked
      outer := fun hdone => by
        rw [houter] at hdone
        exact absurd (h.outer hdone).1 hnot
      fresh := fun hpos => by
        have hfresh := h.fresh (by omega)
        simp only [Fresh, houter, hvalue]
        exact hfresh
      observed := fun o ho => by
        rw [hobserved] at ho
        exact absurd (h.observed o ho).1 hnot
      reported := fun o ho => by
        rw [hreported] at ho
        exact absurd (h.reported o ho).1 hnot }

/-- A change of the forwarding task by the thread that goes on with it. -/
theorem MemOk.of_outer (h : MemOk m) (harcs : m.inner.head.arcs = 0) {x : Task} {v : Bool}
    (hflag : x.word.failureFlag = x.word.failed)
    (hdone : x.head.isDone = true → Settled m ∧ x.failureWaitStatus 0 = m.returned) :
    MemOk { m with outer := x, hasValue := v } where
  flag t := by
    cases t with
    | inner => exact h.flag .inner
    | outer => exact hflag
  ports := h.ports
  waiting := h.waiting
  marked := h.marked
  outer := hdone
  fresh hpos := by
    dsimp only at hpos
    omega
  observed := h.observed
  reported := h.reported

theorem MemOk.of_outer_open (h : MemOk m) (harcs : m.inner.head.arcs = 0) {x : Task} {v : Bool}
    (hopen : x.head.isDone = false) (hflag : x.word.failureFlag = x.word.failed) :
    MemOk { m with outer := x, hasValue := v } := by
  refine h.of_outer harcs hflag fun hdone => ?_
  rw [hopen] at hdone
  cases hdone

/-- A change of the forwarding task leaves the returned var alone. -/
theorem frame_outer {x : Task} {v : Bool} (hins : 0 < ins.forwards)
    (hopen : m.outer.head.isDone = false) : Frame m { m with outer := x, hasValue := v } ins where
  settled h := ⟨h, rfl, rfl⟩
  inner _ _ := ⟨rfl, rfl, rfl, rfl, fun _ => rfl⟩
  outer hno := by omega
  served hdone := by
    rw [hopen] at hdone
    cases hdone

/-- A change of the task of the returned var before it has completed, by a thread with a right
to it. -/
theorem frame_inner (hins : ins.awaits = true ∨ ins.runs = true)
    (hopen : m.inner.head.isDone = false) (houter : m'.outer = m.outer)
    (hvalue : m'.hasValue = m.hasValue) : Frame m m' ins where
  settled h := by
    rw [Settled, hopen] at h
    cases h
  inner hawaits hruns := by
    rw [hawaits, hruns] at hins
    simp at hins
  outer _ := by rw [houter, hvalue]; exact ⟨rfl, rfl, rfl, rfl⟩
  served _ := houter

/-! ### Failures -/

theorem tokens_next (t : Who) (f : Option Failure) (next : After) (k : Right) :
    tokens (next.instr t) k = tokens (.publish t f next) k := by
  cases t <;> cases next <;> cases k <;> rfl

/-- The task of the returned var is open for those who have a right to it. -/
theorem open_of_start (h : protocol.Enters m ins rest) (hins : ins.awaits = true) :
    m.inner.head.isDone = false ∧ 0 < m.waiting := by
  have hk : tokens ins .start ≤ -balance m .start := h.covered .start
  simp only [tokens, hins, if_true, balance] at hk
  have hpos : 0 < m.waiting := by omega
  exact ⟨(h.memory.waiting hpos).1, hpos⟩

theorem open_of_runs (h : protocol.Enters m ins rest) (hins : ins.runs = true) :
    m.inner.head.isDone = false ∧ m.waiting = 0 := by
  have hk : tokens ins .inner ≤ -balance m .inner := h.covered .inner
  simp only [tokens, hins, if_true] at hk
  exact running_of hk

theorem open_of_forwards (h : protocol.Enters m ins rest) (hins : 0 < ins.forwards) :
    m.outer.head.isDone = false ∧ m.inner.head.arcs = 0 := by
  have hk : tokens ins .outer ≤ -balance m .outer := h.covered .outer
  simp only [tokens] at hk
  exact forwarding_of (by omega)

theorem exists_list {x : ListHead} (h : x.isDone = false) : ∃ l, x = .list l := by
  cases x with
  | list l => exact ⟨l, rfl⟩
  | done => cases h
  | terminal e => cases h

theorem publish_inner_keeps {f : Option Failure} {next : After}
    (h : protocol.Enters m (.publish .inner f next) rest)
    (hstep : publish m .inner f next = .next m' push spawned) :
    protocol.Keeps m (.publish .inner f next) rest m' push spawned := by
  have hopen : m.inner.head.isDone = false := by
    cases next with
    | remove => exact (open_of_start h rfl).1
    | complete => exact (open_of_runs h rfl).1
  obtain ⟨l, hl⟩ := exists_list hopen
  have hright : (Instr.publish .inner f next).awaits = true ∨
      (Instr.publish .inner f next).runs = true := by
    cases next with
    | remove => exact .inl rfl
    | complete => exact .inr rfl
  cases f with
  | none =>
    cases hstep
    refine goto_keeps h (fun k => ?_) (fun x hx => ?_)
    · rw [stackSum_cons, stackSum_nil, add_zero, tokens_next]
    · obtain rfl := List.mem_singleton.mp hx
      cases next with
      | remove => trivial
      | complete => exact absurd rfl (show (none : Option Failure) ≠ none from h.relies)
  | some f =>
    cases f with
    | exception e =>
      simp only [publish, Mem.task, hl] at hstep
      cases hstep
      refine Frame.keeps (frame_inner hright hopen rfl rfl) ?_ (fun k => ?_) (fun x hx => ?_)
        fun l hl => by cases hl
      · refine h.memory.of_inner hopen rfl rfl rfl rfl (h.memory.flag .inner) h.memory.ports ?_ ?_ ?_
        · exact fun hpos => ⟨rfl, (h.memory.waiting hpos).2⟩
        · intro hpos _
          cases next with
          | remove => exact .inr (by simp)
          | complete =>
            have hzero := (open_of_runs h rfl).2
            have hpos : 0 < m.waiting := hpos
            omega
        · simp [hl]
      · cases next <;> cases k <;>
          simp [balance, tokens, hl]
        omega
      · obtain rfl := List.mem_singleton.mp hx
        cases next <;> trivial
    | userCancelled =>
      cases hstep
      refine goto_keeps h (fun k => ?_) (fun x hx => ?_)
      · rw [stackSum_cons, stackSum_nil, add_zero]
        cases next <;> cases k <;> rfl
      · obtain rfl := List.mem_singleton.mp hx
        cases next <;> trivial
    | dependencyCancelled =>
      cases hstep
      refine goto_keeps h (fun k => ?_) (fun x hx => ?_)
      · rw [stackSum_cons, stackSum_nil, add_zero]
        cases next <;> cases k <;> rfl
      · obtain rfl := List.mem_singleton.mp hx
        cases next <;> trivial

theorem publish_outer_keeps {f : Option Failure} {next : After}
    (h : protocol.Enters m (.publish .outer f next) rest)
    (hstep : publish m .outer f next = .next m' push spawned) :
    protocol.Keeps m (.publish .outer f next) rest m' push spawned := by
  obtain ⟨hopen, harcs⟩ := open_of_forwards h Nat.one_pos
  obtain ⟨l, hl⟩ := exists_list hopen
  obtain ⟨⟨hword, hsignals, hvalue⟩, hsettled, hf, hsome⟩ :
      Fresh m ∧ Settled m ∧ f = m.returned ∧ f ≠ none := by
    cases next <;> exact h.relies
  obtain ⟨f, rfl⟩ := Option.ne_none_iff_exists'.mp hsome
  have hmark : ∀ m'' : Mem, m''.inner = m.inner → m''.port = m.port → m''.hasValue = true →
      m''.outer.word = { count := 1 } → m''.outer.head.signals = f.payloads →
      Fact m'' (.mark .outer f.bit next) := by
    intro m'' hinner hport hvalue' hword' hsignals'
    have hsame : m''.returned = m.returned := by simp only [Mem.returned, hinner, hport]
    refine ⟨?_, hvalue', hword', f, hsame.trans hf.symm, rfl, hsignals'⟩
    rw [Settled, hinner]
    exact hsettled
  cases f with
  | exception e =>
    simp only [publish, Mem.task, hl] at hstep
    cases hstep
    refine Frame.keeps (frame_outer Nat.one_pos hopen)
      (h.memory.of_outer_open harcs rfl (h.memory.flag .outer)) (fun k => ?_)
      (fun x hx => ?_) fun l hl => by cases hl
    · cases next <;> cases k <;>
        simp [balance, tokens, hl]
    · obtain rfl := List.mem_singleton.mp hx
      refine hmark _ rfl rfl hvalue hword ?_
      rw [hl] at hsignals
      simp only [ListHead.signals] at hsignals
      simp [ListHead.signals, Failure.payloads, Entry.payload?, Mem.setHead, Mem.set, hsignals]
  | userCancelled =>
    cases hstep
    refine goto_keeps h (fun k => ?_) (fun x hx => ?_)
    · rw [stackSum_cons, stackSum_nil, add_zero]
      cases next <;> cases k <;> rfl
    · obtain rfl := List.mem_singleton.mp hx
      exact hmark m rfl rfl hvalue hword hsignals
  | dependencyCancelled =>
    cases hstep
    refine goto_keeps h (fun k => ?_) (fun x hx => ?_)
    · rw [stackSum_cons, stackSum_nil, add_zero]
      cases next <;> cases k <;> rfl
    · obtain rfl := List.mem_singleton.mp hx
      exact hmark m rfl rfl hvalue hword hsignals

theorem mark_inner_keeps {b : FailureBit} {next : After}
    (h : protocol.Enters m (.mark .inner b next) rest)
    (hadmits : m.port = 0 ∨ b = .dependencyCancelled)
    (hstep : mark m .inner b next = .next m' push spawned) :
    protocol.Keeps m (.mark .inner b next) rest m' push spawned := by
  have hopen : m.inner.head.isDone = false := by
    cases next with
    | remove => exact (open_of_start h rfl).1
    | complete => exact (open_of_runs h rfl).1
  have hright : (Instr.mark .inner b next).awaits = true ∨
      (Instr.mark .inner b next).runs = true := by
    cases next with
    | remove => exact .inl rfl
    | complete => exact .inr rfl
  simp only [mark, Mem.task_inner, hopen, Bool.false_eq_true, if_false] at hstep
  cases hstep
  refine Frame.keeps (frame_inner hright hopen rfl rfl) ?_ (fun k => ?_) (fun x hx => ?_)
    fun l hl => by cases hl
  · refine h.memory.of_inner hopen rfl rfl rfl rfl ?_ ?_ ?_ ?_ le_rfl
    · exact (mark_failed _ b).2.trans (mark_failed _ b).1.symm
    · intro hport
      have hports := h.memory.ports hport
      rcases hadmits with hzero | rfl
      · exact absurd hzero hport
      · exact hports
    · exact fun hpos => ⟨hopen, (StartCount.mark_count _ b).trans (h.memory.waiting hpos).2⟩
    · intro hpos hsignals
      cases b with
      | exception => exact .inl rfl
      | userCancelled => simpa [StartCount.mark] using h.memory.marked hpos hsignals
      | dependencyCancelled => simpa [StartCount.mark] using h.memory.marked hpos hsignals
  · cases next with
    | complete => cases b <;> cases k <;> simp [balance, tokens, After.instr]
    | remove =>
      cases b with
      | exception =>
        have hk : tokens (.mark .inner .exception .remove) .payload ≤ -balance m .payload :=
          h.covered .payload
        simp only [tokens, balance, Instr.marks, if_true] at hk
        cases k <;> simp [balance, tokens, After.instr] <;> omega
      | _ => cases k <;> simp [balance, tokens, After.instr]
  · obtain rfl := List.mem_singleton.mp hx
    cases next with
    | remove => trivial
    | complete =>
      refine ⟨?_, fun hno => by cases hno⟩
      exact (mark_failed _ b).1.symm

/-- The outcome of a task that failed in one way. -/
theorem status_mark {x : Task} {f : Failure} (hopen : x.head.isDone = false)
    (hword : x.word = ({ count := 1 } : StartCount).mark f.bit) (hsignals : x.head.signals = f.payloads) :
    x.failureWaitStatus 0 = some f := by
  have hhandle : x.handle = f.payloads.head? := by
    obtain ⟨l, hl⟩ := exists_list hopen
    rw [← hsignals, Task.handle, hl]
  unfold Task.failureWaitStatus Task.failureForPort
  rw [hhandle, hword]
  cases f <;> rfl

theorem mark_outer_keeps {b : FailureBit} {next : After}
    (h : protocol.Enters m (.mark .outer b next) rest)
    (hstep : mark m .outer b next = .next m' push spawned) :
    protocol.Keeps m (.mark .outer b next) rest m' push spawned := by
  obtain ⟨hopen, harcs⟩ := open_of_forwards h Nat.one_pos
  obtain ⟨hsettled, hvalue, hword, f, hf, rfl, hsignals⟩ := h.relies
  simp only [mark, Mem.task_outer, hopen, Bool.false_eq_true, if_false, reduceCtorEq,
    false_and] at hstep
  cases hstep
  refine Frame.keeps (frame_outer Nat.one_pos hopen) ?_ (fun k => ?_) (fun x hx => ?_)
    fun l hl => by cases hl
  · refine h.memory.of_outer_open harcs hopen ?_
    exact (mark_failed _ f.bit).2.trans (mark_failed _ f.bit).1.symm
  · cases next <;> cases k <;> simp [balance, tokens, After.instr]
  · obtain rfl := List.mem_singleton.mp hx
    have hfailed := (mark_failed m.outer.word f.bit).1
    have hmirrored : Mirrored (m.setWord .outer (m.outer.word.mark f.bit)) := by
      refine ⟨hsettled, ?_, fun hno => ?_, hvalue⟩
      · refine (status_mark (x := (m.setWord .outer (m.outer.word.mark f.bit)).outer) hopen ?_
          hsignals).trans hf.symm
        simp only [Mem.setWord_outer, hword]
      · simp only [Mem.setWord_outer, hfailed] at hno
        cases hno
    cases next with
    | remove =>
      refine ⟨hmirrored, ?_⟩
      simp only [Mem.setWord_outer, StartCount.mark_count, hword]
    | complete => exact ⟨hmirrored, hfailed.symm⟩

theorem publishFrom_keeps {next : After} (h : protocol.Enters m (.publishFrom next) rest)
    (hstep : publishFrom m next = .next m' push spawned) :
    protocol.Keeps m (.publishFrom next) rest m' push spawned := by
  obtain ⟨hfresh, hsettled, hfailed⟩ := h.relies
  have hpublished := published_eq h.memory hfailed
  cases hstep
  refine goto_keeps h (fun k => ?_) (fun x hx => ?_)
  · rw [stackSum_cons, stackSum_nil, add_zero]
    cases k <;> rfl
  · obtain rfl := List.mem_singleton.mp hx
    refine ⟨hfresh, hsettled, hpublished, ?_⟩
    rw [hpublished]
    exact returned_of_failed hfailed

/-! ### remove_prerequisite -/

theorem failed_of_skips {w : StartCount} (h : w.skips = true) : w.failed = true := by
  simp only [StartCount.skips, StartCount.failed, Bool.or_eq_true] at h ⊢
  tauto

theorem removePrerequisite_inner_keeps (h : protocol.Enters m (.removePrerequisite .inner) rest)
    (hstep : removePrerequisite m .inner = .next m' push spawned) :
    protocol.Keeps m (.removePrerequisite .inner) rest m' push spawned := by
  obtain ⟨hopen, hpos⟩ := open_of_start h rfl
  have hcount := (h.memory.waiting hpos).2
  have hclean : tokens (.removePrerequisite .inner) .clean ≤ -balance m .clean := h.covered .clean
  simp only [tokens, balance, Instr.isClean, if_true] at hclean
  have hframe : Frame m { m.setWord .inner { m.inner.word with count := m.inner.word.count - 1 } with
      waiting := m.waiting - 1 } (.removePrerequisite .inner) :=
    frame_inner (.inl rfl) hopen rfl rfl
  have hok : MemOk { m.setWord .inner { m.inner.word with count := m.inner.word.count - 1 } with
      waiting := m.waiting - 1 } := by
    refine h.memory.of_inner hopen rfl rfl rfl rfl (h.memory.flag .inner) h.memory.ports ?_ ?_ le_rfl
    · intro _
      refine ⟨hopen, ?_⟩
      simp only [Mem.setWord_inner, hcount]
    · exact fun _ hsignals => h.memory.marked hpos hsignals
  -- with the last prerequisite gone, every payload on the list is marked
  have hmarked : m.waiting = 1 → m.inner.head.signals ≠ [] → m.inner.word.exception = true := by
    intro hone hsignals
    rcases h.memory.marked hpos hsignals with hexc | hunmarked
    · exact hexc
    · omega
  unfold removePrerequisite at hstep
  simp only [Mem.task_inner, if_true, hcount] at hstep hframe hok
  split at hstep
  · cases hstep
  · split at hstep
    · rename_i hone
      split at hstep
      · rename_i hskips
        cases hstep
        refine Frame.keeps hframe hok (fun k => ?_) (fun x hx => ?_) fun l hl => by cases hl
        · cases k <;> simp [balance, tokens, hone, hopen]
        · obtain rfl := List.mem_singleton.mp hx
          exact ⟨(failed_of_skips hskips).symm, fun hno => by cases hno⟩
      · cases hstep
        refine Frame.keeps hframe hok (fun k => ?_) (fun x hx => by cases hx) fun l hl x hx => ?_
        · cases k <;> simp [balance, tokens, hone, hopen]
        · obtain rfl := List.mem_singleton.mp hl
          obtain rfl := List.mem_singleton.mp hx
          exact hmarked hone
    · rename_i hne
      cases hstep
      refine Frame.keeps hframe hok (fun k => ?_) (fun x hx => by cases hx) fun l hl => by cases hl
      cases k with
      | inner =>
        have hsub : (m.waiting - 1 == 0) = false := by
          rw [beq_eq_false_iff_ne]
          omega
        have hnz : (m.waiting == 0) = false := by
          rw [beq_eq_false_iff_ne]
          omega
        simp [balance, tokens, hsub, hnz]
      | start =>
        simp only [balance, tokens, Instr.awaits, if_true, stackSum_nil, threadSum_nil]
        omega
      | clean =>
        simp only [balance, tokens, Instr.isClean, if_true, stackSum_nil, threadSum_nil]
        dsimp only [Mem.setWord_inner]
        omega
      | _ => simp [balance, tokens]

theorem removePrerequisite_outer_keeps (h : protocol.Enters m (.removePrerequisite .outer) rest)
    (hstep : removePrerequisite m .outer = .next m' push spawned) :
    protocol.Keeps m (.removePrerequisite .outer) rest m' push spawned := by
  obtain ⟨hopen, harcs⟩ := open_of_forwards h Nat.one_pos
  obtain ⟨⟨hsettled, hstatus, hempty, hvalue⟩, hcount⟩ := h.relies
  have hframe : Frame m (m.setWord .outer { m.outer.word with count := 0 })
      (.removePrerequisite .outer) := frame_outer Nat.one_pos hopen
  have hok : MemOk (m.setWord .outer { m.outer.word with count := 0 }) :=
    h.memory.of_outer_open harcs hopen (h.memory.flag .outer)
  have hmirrored : Mirrored (m.setWord .outer { m.outer.word with count := 0 }) :=
    ⟨hsettled, hstatus, hempty, hvalue⟩
  simp only [removePrerequisite, Mem.task_outer, hcount, lt_irrefl, if_false, if_true,
    reduceCtorEq] at hstep
  split at hstep
  · rename_i hskips
    cases hstep
    refine Frame.keeps hframe hok (fun k => ?_) (fun x hx => ?_) fun l hl => by cases hl
    · cases k <;> simp [balance, tokens]
    · obtain rfl := List.mem_singleton.mp hx
      exact ⟨hmirrored, (failed_of_skips hskips).symm⟩
  · cases hstep
    refine Frame.keeps hframe hok (fun k => ?_) (fun x hx => by cases hx) fun l hl x hx => ?_
    · cases k <;> simp [balance, tokens]
    · obtain rfl := List.mem_singleton.mp hl
      obtain rfl := List.mem_singleton.mp hx
      exact .inl hmirrored

/-! ### The two tasks run -/

theorem executeInner_keeps (h : protocol.Enters m (.execute .inner) rest)
    (hstep : executeInner m = .next m' push spawned) :
    protocol.Keeps m (.execute .inner) rest m' push spawned := by
  obtain ⟨hopen, hzero⟩ := open_of_runs h rfl
  have hmarked : m.inner.head.signals ≠ [] → m.inner.word.exception = true := h.relies
  have hflag := h.memory.flag .inner
  have hnone : ∀ P : Prop, 0 < m.waiting → P := fun P hpos => by omega
  unfold executeInner at hstep
  split at hstep
  · rename_i hfailed
    cases hstep
    refine goto_keeps h (fun k => ?_) (fun x hx => ?_)
    · cases k <;> rfl
    · obtain rfl := List.mem_singleton.mp hx
      exact ⟨hfailed.symm, fun hno => by cases hno⟩
  · rename_i hfine
    rw [Bool.not_eq_true] at hfine
    have hempty : m.inner.head.signals = [] := by
      by_contra hsignals
      have hexc := hmarked hsignals
      simp [StartCount.failed, hexc] at hfine
    split at hstep
    · cases hstep
      refine Frame.keeps (frame_inner (.inr rfl) hopen rfl rfl) ?_ (fun k => ?_) (fun x hx => ?_)
        fun l hl => by cases hl
      · exact h.memory.of_inner hopen rfl rfl rfl rfl hflag h.memory.ports h.memory.waiting
          h.memory.marked le_rfl
      · cases k <;> simp [balance, tokens]
      · obtain rfl := List.mem_singleton.mp hx
        exact ⟨hfine.symm, fun _ => ⟨hempty, rfl⟩⟩
    · cases hstep
      refine goto_keeps h (fun k => ?_) (fun x hx => ?_)
      · cases k <;> rfl
      · obtain rfl := List.mem_singleton.mp hx
        exact Option.some_ne_none _
    · cases hstep
      refine Frame.keeps (frame_inner (.inr rfl) hopen rfl rfl) ?_ (fun k => ?_) (fun x hx => ?_)
        fun l hl => by cases hl
      · exact h.memory.of_inner hopen rfl rfl rfl rfl rfl (fun _ => ⟨rfl, rfl⟩) (hnone _) (hnone _)
          le_rfl
      · cases k <;> simp [balance, tokens]
      · obtain rfl := List.mem_singleton.mp hx
        exact ⟨rfl, fun _ => ⟨hempty, rfl⟩⟩
    · cases hstep
      refine Frame.keeps (frame_inner (.inr rfl) hopen rfl rfl) ?_ (fun k => ?_) (fun x hx => ?_)
        fun l hl => by cases hl
      · exact h.memory.of_inner hopen rfl rfl rfl rfl rfl (fun _ => ⟨rfl, rfl⟩) (hnone _) (hnone _)
          le_rfl
      · cases k <;> simp [balance, tokens]
      · obtain rfl := List.mem_singleton.mp hx
        exact Option.some_ne_none _
    · cases hstep
      refine Frame.keeps (frame_inner (.inr rfl) hopen rfl rfl) ?_ (fun k => ?_)
        (fun x hx => by cases hx) fun l hl x hx => ?_
      · exact h.memory.of_inner hopen rfl rfl rfl rfl rfl (fun _ => ⟨rfl, rfl⟩)
          (fun _ => ⟨hopen, rfl⟩) (fun _ hno => absurd hempty hno) le_rfl
      · cases k <;> simp [balance, tokens, hopen, hzero]
      · obtain rfl := List.mem_singleton.mp hl
        obtain rfl := List.mem_singleton.mp hx
        trivial

theorem executeOuter_keeps (h : protocol.Enters m (.execute .outer) rest)
    (hstep : executeOuter m = .next m' push spawned) :
    protocol.Keeps m (.execute .outer) rest m' push spawned := by
  have hrelies : Mirrored m ∨ m.hasValue = false ∧ m.outer.word.failed = false ∧
    m.outer.head.signals = [] := h.relies
  unfold executeOuter at hstep
  split at hstep
  · rename_i hfailed
    cases hstep
    refine goto_keeps h (fun k => ?_) (fun x hx => ?_)
    · cases k <;> rfl
    · obtain rfl := List.mem_singleton.mp hx
      rcases hrelies with hmirrored | ⟨-, hfine, -⟩
      · exact ⟨hmirrored, hfailed.symm⟩
      · rw [hfine] at hfailed
        cases hfailed
  · rename_i hfine
    rw [Bool.not_eq_true] at hfine
    split at hstep
    · rename_i hvalue
      cases hstep
      refine goto_keeps h (fun k => ?_) (fun x hx => ?_)
      · cases k <;> rfl
      · obtain rfl := List.mem_singleton.mp hx
        rcases hrelies with hmirrored | ⟨hnone, -⟩
        · exact ⟨hmirrored, hfine.symm⟩
        · rw [hnone] at hvalue
          cases hvalue
    · rename_i hvalue
      obtain ⟨hopen, harcs⟩ := open_of_forwards h Nat.one_pos
      cases hstep
      refine Frame.keeps (frame_outer Nat.one_pos hopen)
        (h.memory.of_outer_open harcs hopen (h.memory.flag .outer)) (fun k => ?_) (fun x hx => ?_)
        fun l hl => by cases hl
      · cases k <;> simp [balance, tokens]
      · obtain rfl := List.mem_singleton.mp hx
        rcases hrelies with hmirrored | ⟨-, -, hempty⟩
        · exact absurd hmirrored.2.2.2 hvalue
        · exact ⟨rfl, hempty⟩

theorem forward_keeps (h : protocol.Enters m .forward rest)
    (hstep : forward m = .next m' push spawned) :
    protocol.Keeps m .forward rest m' push spawned := by
  obtain ⟨hopen, harcs⟩ := open_of_forwards h Nat.one_pos
  obtain ⟨hvalue, hempty⟩ := h.relies
  cases hstep
  refine Frame.keeps (frame_outer Nat.one_pos hopen) (h.memory.of_outer_open harcs hopen rfl)
    (fun k => ?_) (fun x hx => ?_) fun l hl => by cases hl
  · cases k <;> simp [balance, tokens]
  · obtain rfl := List.mem_singleton.mp hx
    exact ⟨rfl, hempty, hvalue⟩

theorem offerArc_keeps (h : protocol.Enters m .offerArc rest)
    (hstep : offerArc m = .next m' push spawned) :
    protocol.Keeps m .offerArc rest m' push spawned := by
  have hfresh : Fresh m := h.relies
  unfold offerArc at hstep
  split at hstep
  · rename_i l hl
    have hopen : m.inner.head.isDone = false := by
      rw [hl]
      rfl
    have hnot : ¬Settled m := by
      intro hsettled
      rw [Settled, hopen] at hsettled
      cases hsettled
    cases hstep
    refine Frame.keeps ?_ ?_ (fun k => ?_) (fun x hx => by cases hx) fun l hl => by cases hl
    · exact
        { settled := fun hsettled => absurd hsettled hnot
          inner := fun _ _ => ⟨by simp [hl], rfl, by simp [Task.handle, hl], rfl, fun _ => rfl⟩
          outer := fun _ => ⟨rfl, rfl, rfl, rfl⟩
          served := fun _ => rfl }
    · exact
        { flag := fun t => by
            cases t with
            | inner => exact h.memory.flag .inner
            | outer => exact h.memory.flag .outer
          ports := h.memory.ports
          waiting := fun hpos => ⟨rfl, (h.memory.waiting hpos).2⟩
          marked := fun hpos hsignals => by
            refine h.memory.marked hpos ?_
            rw [hl]
            exact hsignals
          outer := fun hdone => absurd (h.memory.outer hdone).1 hnot
          fresh := fun _ => hfresh
          observed := fun o ho => absurd (h.memory.observed o ho).1 hnot
          reported := fun o ho => absurd (h.memory.reported o ho).1 hnot }
    · cases k <;> simp [balance, tokens, hl]
      omega
  · rename_i hclosed
    have hsettled : Settled m := by
      cases hhead : m.inner.head with
      | list l => exact absurd hhead (hclosed l)
      | done => simp [Settled, hhead]
      | terminal e => simp [Settled, hhead]
    cases hstep
    refine goto_keeps h (fun k => ?_) (fun x hx => ?_)
    · cases k <;> rfl
    · obtain rfl := List.mem_singleton.mp hx
      exact ⟨hfresh, hsettled⟩

/-- A forwarding task that nothing has reached, when the returned var succeeded. -/
theorem Fresh.mirrored (hfresh : Fresh m) (hsettled : Settled m)
    (hfine : m.inner.word.failed = false) : Mirrored m := by
  obtain ⟨hword, hempty, hvalue⟩ := hfresh
  refine ⟨hsettled, ?_, fun _ => hempty, hvalue⟩
  rw [returned_of_not_failed hfine, Task.failureWaitStatus, hword]
  rfl

theorem checkFailure_keeps (h : protocol.Enters m .checkFailure rest)
    (hstep : checkFailure m = .next m' push spawned) :
    protocol.Keeps m .checkFailure rest m' push spawned := by
  obtain ⟨hfresh, hsettled⟩ : Fresh m ∧ Settled m := h.relies
  cases hstep
  refine goto_keeps h (fun k => ?_) (fun x hx => ?_)
  · split_ifs <;> cases k <;> rfl
  · obtain rfl := List.mem_singleton.mp hx
    split_ifs with hfailed
    · exact ⟨hfresh, hsettled, hfailed⟩
    · rw [Bool.not_eq_true] at hfailed
      refine ⟨hfresh.mirrored hsettled hfailed, ?_⟩
      rw [hfresh.1]
      rfl

/-! ### notify_successors -/

theorem complete_keeps {t : Who} {canThrow : Bool}
    (h : protocol.Enters m (.complete t canThrow) rest)
    (hstep : complete m t canThrow = .next m' push spawned) :
    protocol.Keeps m (.complete t canThrow) rest m' push spawned := by
  cases hstep
  refine goto_keeps h (fun k => ?_) (fun x hx => ?_)
  · cases t <;> cases k <;> rfl
  · obtain rfl := List.mem_singleton.mp hx
    cases t with
    | inner => exact ⟨h.relies, rfl⟩
    | outer => exact ⟨h.relies.1, h.relies.2, rfl⟩

/-- The exchange of the list, and what is pushed to notify it. -/
theorem closeList_cases {t : Who} {canThrow : Bool} {terminal : Option ℕ} {l : List Entry}
    (hl : (m.task t).head = .list l) (hstep : closeList m t canThrow terminal = .next m' push spawned) :
    m' = m.setHead t (.closed terminal) ∧ spawned = [] ∧
    push = if l = [] then [] else [.notifyLoad t canThrow l] := by
  unfold closeList at hstep
  rw [hl] at hstep
  cases l with
  | nil =>
    cases hstep
    exact ⟨rfl, rfl, rfl⟩
  | cons x l =>
    cases hstep
    exact ⟨rfl, rfl, rfl⟩

theorem not_mem_signal {l : List Entry} (h : (ListHead.list l).signals = []) (e : ℕ) :
    Entry.signal e ∉ l := by
  intro hmem
  have hin : e ∈ (ListHead.list l).signals :=
    List.mem_filterMap.mpr ⟨.signal e, hmem, rfl⟩
  rw [h] at hin
  cases hin

theorem closeList_inner_keeps {canThrow : Bool} {terminal : Option ℕ}
    (h : protocol.Enters m (.closeList .inner canThrow terminal) rest)
    (hstep : closeList m .inner canThrow terminal = .next m' push spawned) :
    protocol.Keeps m (.closeList .inner canThrow terminal) rest m' push spawned := by
  obtain ⟨hopen, hzero⟩ := open_of_runs h rfl
  obtain ⟨⟨hthrow, hclean⟩, hterminal⟩ := h.relies
  obtain ⟨l, hl⟩ := exists_list hopen
  obtain ⟨rfl, rfl, rfl⟩ := closeList_cases (t := .inner) hl hstep
  have hnone : ∀ P : Prop, 0 < m.waiting → P := fun P hpos => by omega
  refine Frame.keeps (frame_inner (.inr rfl) hopen rfl rfl) ?_ (fun k => ?_) (fun x hx => ?_)
    fun l hl => by cases hl
  · refine h.memory.of_inner hopen rfl rfl rfl rfl (h.memory.flag .inner) h.memory.ports (hnone _)
      (hnone _) ?_
    simp
  · split_ifs with hempty
    · cases k <;> simp [balance, tokens, hl, hzero, hempty]
    · cases k <;> simp [balance, tokens, hl, hzero]
      omega
  · split_ifs at hx with hempty
    · cases hx
    · obtain rfl := List.mem_singleton.mp hx
      refine ⟨⟨ListHead.isDone_closed terminal, hthrow, fun hc e => ?_⟩, fun hmem => ?_⟩
      · have hsignals := (hclean hc).1
        rw [hl] at hsignals
        exact not_mem_signal hsignals e
      · apply h.memory.fresh
        rw [hl, ListHead.arcs_list]
        exact List.count_pos_iff.mpr hmem

theorem closeList_outer_keeps {canThrow : Bool} {terminal : Option ℕ}
    (h : protocol.Enters m (.closeList .outer canThrow terminal) rest)
    (hstep : closeList m .outer canThrow terminal = .next m' push spawned) :
    protocol.Keeps m (.closeList .outer canThrow terminal) rest m' push spawned := by
  obtain ⟨hopen, harcs⟩ := open_of_forwards h Nat.one_pos
  obtain ⟨⟨hsettled, hstatus, hempty, -⟩, hthrow, rfl⟩ := h.relies
  obtain ⟨l, hl⟩ := exists_list hopen
  obtain ⟨rfl, rfl, rfl⟩ := closeList_cases (t := .outer) hl hstep
  refine Frame.keeps (frame_outer Nat.one_pos hopen) ?_ (fun k => ?_) (fun x hx => ?_)
    fun l hl => by cases hl
  · refine h.memory.of_outer harcs (h.memory.flag .outer) fun _ => ⟨hsettled, ?_⟩
    rw [← hstatus, ← status_close hthrow]
    rfl
  · split_ifs with hnil
    · cases k <;> simp [balance, tokens, hl, hnil]
    · cases k <;> simp [balance, tokens, hl]
      omega
  · split_ifs at hx with hnil
    · cases hx
    · obtain rfl := List.mem_singleton.mp hx
      refine ⟨ListHead.isDone_closed _, hthrow, fun hc e => ?_⟩
      have hsignals := hempty (hthrow.symm.trans hc)
      rw [hl] at hsignals
      exact not_mem_signal hsignals e

theorem notifyLoad_keeps {t : Who} {canThrow : Bool} {l : List Entry}
    (h : protocol.Enters m (.notifyLoad t canThrow l) rest)
    (hstep : notifyLoad m t canThrow l = .next m' push spawned) :
    protocol.Keeps m (.notifyLoad t canThrow l) rest m' push spawned := by
  have hflag := h.memory.flag t
  have hnotifying : Notifying m t canThrow l := by
    cases t with
    | inner => exact h.relies.1
    | outer => exact h.relies
  have hfailed : (canThrow && (m.task t).word.failureFlag) = canThrow := by
    rw [hflag, ← hnotifying.2.1, Bool.and_self]
  cases hstep
  rw [hfailed]
  refine goto_keeps h (fun k => ?_) (fun x hx => ?_)
  · rw [stackSum_cons, stackSum_nil, add_zero]
    cases t <;> cases k <;> rfl
  · obtain rfl := List.mem_singleton.mp hx
    cases t with
    | inner => exact ⟨hnotifying, h.relies.2, rfl⟩
    | outer => exact ⟨hnotifying, rfl⟩

/-- The rest of the entries to notify. -/
theorem Notifying.tail {t : Who} {canThrow : Bool} {x : Entry} {l : List Entry}
    (h : Notifying m t canThrow (x :: l)) : Notifying m t canThrow l :=
  ⟨h.1, h.2.1, fun hc e hmem => h.2.2 hc e (List.mem_cons_of_mem x hmem)⟩

/-- One more outcome is observed: the one the forwarding task has. -/
theorem observe_keeps {o : Option Failure} (h : protocol.Enters m ins rest)
    (hdone : m.outer.head.isDone = true) (ho : o = m.outer.failureWaitStatus 0)
    (hsame : ∀ k, stackSum tokens push k = if k = .view then tokens ins k - 1 else tokens ins k)
    (hfacts : ∀ x ∈ push, Fact (m.observe o) x) :
    protocol.Keeps m ins rest (m.observe o) push [] := by
  obtain ⟨hsettled, hstatus⟩ := h.memory.outer hdone
  refine Frame.keeps ?_ ?_ (fun k => ?_) hfacts fun l hl => by cases hl
  · exact
      { settled := fun h => ⟨h, rfl, rfl⟩
        inner := fun _ _ => ⟨rfl, rfl, rfl, rfl, fun _ => rfl⟩
        outer := fun _ => ⟨rfl, rfl, rfl, rfl⟩
        served := fun _ => rfl }
  · exact
      { flag := h.memory.flag
        ports := h.memory.ports
        waiting := h.memory.waiting
        marked := h.memory.marked
        outer := h.memory.outer
        fresh := h.memory.fresh
        observed := fun x hx => by
          rcases List.mem_cons.mp hx with rfl | hx
          · exact ⟨hsettled, ho.trans hstatus⟩
          · exact h.memory.observed x hx
        reported := h.memory.reported }
  · rw [hsame k, threadSum_nil, add_zero]
    cases k with
    | view =>
      simp only [balance, Mem.observe, List.length_cons, if_true]
      push_cast
      omega
    | _ => rfl

theorem notifyArcs_inner_keeps {canThrow failed : Bool} {l : List Entry}
    (h : protocol.Enters m (.notifyArcs .inner canThrow failed l) rest)
    (hstep : notifyArcs m .inner canThrow failed l = .next m' push spawned) :
    protocol.Keeps m (.notifyArcs .inner canThrow failed l) rest m' push spawned := by
  obtain ⟨hnotifying, hfresh, rfl⟩ := h.relies
  cases l with
  | nil =>
    cases hstep
    refine goto_keeps h (fun k => ?_) fun x hx => by cases hx
    cases k <;> rfl
  | cons x l =>
    cases x with
    | signal e =>
      unfold notifyArcs at hstep
      dsimp only at hstep
      split at hstep
      · cases hstep
        refine goto_keeps h (fun k => ?_) (fun x hx => ?_)
        · cases k <;> simp [tokens]
        · obtain rfl := List.mem_singleton.mp hx
          exact ⟨hnotifying.tail, fun hmem => hfresh (List.mem_cons_of_mem _ hmem), rfl⟩
      · cases hstep
    | arc =>
      have hfresh' := hfresh List.mem_cons_self
      -- the arc in hand is the only one
      have hlast : Entry.arc ∉ l := by
        intro hmem
        have hk : tokens (.notifyArcs .inner failed failed (.arc :: l)) .outer ≤
            -balance m .outer := h.covered .outer
        have hle := Bool.toNat_le (!m.outer.head.isDone)
        have hpos := List.count_pos_iff.mpr hmem
        simp only [tokens, Instr.forwards, List.count_cons_self, balance] at hk
        omega
      cases hstep
      refine goto_keeps h (fun k => ?_) (fun x hx => ?_)
      · split_ifs <;> cases k <;> simp [tokens] <;> omega
      · rcases List.mem_cons.mp hx with rfl | hx
        · split_ifs with hfailed
          · exact ⟨hfresh', hnotifying.1, hnotifying.2.1.symm.trans hfailed⟩
          · rw [Bool.not_eq_true] at hfailed
            refine ⟨hfresh'.mirrored hnotifying.1 (hnotifying.2.1.symm.trans hfailed), ?_⟩
            rw [hfresh'.1]
        · obtain rfl := List.mem_singleton.mp hx
          exact ⟨hnotifying.tail, fun hmem => absurd hmem hlast, rfl⟩

theorem notifyArcs_outer_keeps {canThrow failed : Bool} {l : List Entry}
    (h : protocol.Enters m (.notifyArcs .outer canThrow failed l) rest)
    (hstep : notifyArcs m .outer canThrow failed l = .next m' push spawned) :
    protocol.Keeps m (.notifyArcs .outer canThrow failed l) rest m' push spawned := by
  obtain ⟨hnotifying, rfl⟩ := h.relies
  cases l with
  | nil =>
    cases hstep
    refine goto_keeps h (fun k => ?_) fun x hx => by cases hx
    cases k <;> rfl
  | cons x l =>
    cases x with
    | signal e =>
      unfold notifyArcs at hstep
      dsimp only at hstep
      split at hstep
      · cases hstep
        refine goto_keeps h (fun k => ?_) (fun x hx => ?_)
        · cases k <;> simp [tokens]
        · obtain rfl := List.mem_singleton.mp hx
          exact ⟨hnotifying.tail, rfl⟩
      · cases hstep
    | arc =>
      unfold notifyArcs at hstep
      dsimp only at hstep
      split at hstep
      · rename_i hfailed
        cases hstep
        refine goto_keeps h (fun k => ?_) (fun x hx => ?_)
        · cases k <;> simp [tokens]
          omega
        · rcases List.mem_cons.mp hx with rfl | hx
          · exact ⟨hnotifying.1, hnotifying.2.1.symm.trans hfailed⟩
          · obtain rfl := List.mem_singleton.mp hx
            exact ⟨hnotifying.tail, rfl⟩
      · rename_i hfine
        rw [Bool.not_eq_true] at hfine
        cases hstep
        refine observe_keeps h hnotifying.1 ?_ (fun k => ?_) (fun x hx => ?_)
        · have hword : m.outer.word.failed = false := hnotifying.2.1.symm.trans hfine
          rw [Task.failureWaitStatus, hword]
          rfl
        · cases k <;> simp [tokens]
        · obtain rfl := List.mem_singleton.mp hx
          exact ⟨hnotifying.tail, rfl⟩

/-! ### Other threads -/

theorem cancel_keeps (h : protocol.Enters m .cancel rest)
    (hstep : cancel m = .next m' push spawned) :
    protocol.Keeps m .cancel rest m' push spawned := by
  unfold cancel at hstep
  split at hstep
  · cases hstep
    refine goto_keeps h (fun k => ?_) fun x hx => by cases hx
    cases k <;> rfl
  · cases hstep
    refine goto_keeps h (fun k => ?_) fun x hx => ?_
    · cases k <;> rfl
    · obtain rfl := List.mem_singleton.mp hx
      trivial

theorem cancelMark_keeps (h : protocol.Enters m .cancelMark rest)
    (hadmits : admits m .cancelMark = true) (hstep : cancelMark m = .next m' push spawned) :
    protocol.Keeps m .cancelMark rest m' push spawned := by
  have hcond : m.port = 0 ∧ (m.inner.word.exception = true ∨ m.inner.word.userCancelled = true ∨
      m.inner.head.isDone = false ∧ (m.running = false ∨ m.inner.word.failed = true)) := by
    simpa [admits, or_assoc] using hadmits
  obtain ⟨hport, hstate⟩ := hcond
  have hfailed := (mark_failed m.inner.word .userCancelled).1
  have hsettled : Settled m → m.inner.word.failed = true ∧
      (m.setWord .inner (m.inner.word.mark .userCancelled)).returned = m.returned := by
    intro hsettled
    have hbits : m.inner.word.exception = true ∨ m.inner.word.userCancelled = true := by
      rcases hstate with hexc | huser | ⟨hopen, -⟩
      · exact .inl hexc
      · exact .inr huser
      · rw [Settled, hopen] at hsettled
        cases hsettled
    refine ⟨?_, status_mark_user hbits⟩
    simp only [StartCount.failed, Bool.or_eq_true]
    tauto
  cases hstep
  refine Frame.keeps ?_ ?_ (fun k => ?_) (fun x hx => by cases hx) fun l hl => by cases hl
  · exact
      { settled := fun hs => ⟨hs, hfailed.trans (hsettled hs).1.symm, (hsettled hs).2⟩
        inner := fun _ _ => by
          refine ⟨rfl, rfl, rfl, rfl, fun hor => ?_⟩
          have hsame : m.inner.word.failed = true := by
            rcases hor with hyes | hrunning
            · exact hyes
            · simp only [StartCount.failed, Bool.or_eq_true] at hstate ⊢
              rw [hrunning] at hstate
              tauto
          exact hfailed.trans hsame.symm
        outer := fun _ => ⟨rfl, rfl, rfl, rfl⟩
        served := fun _ => rfl }
  · exact
      { flag := fun t => by
          cases t with
          | inner => exact (mark_failed _ .userCancelled).2.trans hfailed.symm
          | outer => exact h.memory.flag .outer
        ports := fun hno => absurd hport hno
        waiting := h.memory.waiting
        marked := h.memory.marked
        outer := fun hdone => by
          obtain ⟨hs, hstatus⟩ := h.memory.outer hdone
          exact ⟨hs, hstatus.trans (hsettled hs).2.symm⟩
        fresh := h.memory.fresh
        observed := fun o ho => by
          obtain ⟨hs, hsame⟩ := h.memory.observed o ho
          exact ⟨hs, hsame.trans (hsettled hs).2.symm⟩
        reported := fun o ho => by
          obtain ⟨hs, hsame⟩ := h.memory.reported o ho
          exact ⟨hs, hsame.trans (hsettled hs).2.symm⟩ }
  · cases k <;> simp [balance, tokens]

theorem isDone_of_not_list {x : ListHead} (h : ∀ l, x ≠ .list l) : x.isDone = true := by
  cases x with
  | list l => exact absurd rfl (h l)
  | done => rfl
  | terminal e => rfl

theorem consume_keeps (h : protocol.Enters m .consume rest)
    (hstep : consume m = .next m' push spawned) :
    protocol.Keeps m .consume rest m' push spawned := by
  unfold consume at hstep
  split at hstep
  · rename_i l hl
    have hopen : m.outer.head.isDone = false := by
      rw [hl]
      rfl
    cases hstep
    refine Frame.keeps ?_ ?_ (fun k => ?_) (fun x hx => by cases hx) fun l hl => by cases hl
    · exact
        { settled := fun h => ⟨h, rfl, rfl⟩
          inner := fun _ _ => ⟨rfl, rfl, rfl, rfl, fun _ => rfl⟩
          outer := fun _ => ⟨rfl, by simp [hl], by simp [Task.handle, hl], rfl⟩
          served := fun hdone => by
            rw [hopen] at hdone
            cases hdone }
    · exact
        { flag := fun t => by
            cases t with
            | inner => exact h.memory.flag .inner
            | outer => exact h.memory.flag .outer
          ports := h.memory.ports
          waiting := h.memory.waiting
          marked := h.memory.marked
          outer := fun hdone => by cases hdone
          fresh := fun hpos => by
            obtain ⟨hword, hempty, hvalue⟩ := h.memory.fresh hpos
            rw [hl] at hempty
            exact ⟨hword, hempty, hvalue⟩
          observed := h.memory.observed
          reported := h.memory.reported }
    · cases k <;> simp [balance, tokens, hl]
      omega
  · rename_i hclosed
    cases hstep
    refine goto_keeps h (fun k => ?_) (fun x hx => ?_)
    · cases k <;> rfl
    · obtain rfl := List.mem_singleton.mp hx
      exact isDone_of_not_list hclosed

theorem lateCheck_keeps (h : protocol.Enters m .lateCheck rest)
    (hstep : lateCheck m = .next m' push spawned) :
    protocol.Keeps m .lateCheck rest m' push spawned := by
  have hdone : m.outer.head.isDone = true := h.relies
  unfold lateCheck at hstep
  split at hstep
  · rename_i hfailed
    cases hstep
    refine goto_keeps h (fun k => ?_) (fun x hx => ?_)
    · cases k <;> rfl
    · obtain rfl := List.mem_singleton.mp hx
      exact ⟨hdone, hfailed⟩
  · rename_i hfine
    cases hstep
    refine observe_keeps h hdone ?_ (fun k => ?_) fun x hx => by cases hx
    · rw [Task.failureWaitStatus, if_neg hfine]
    · cases k <;> rfl

theorem consumerFailure_keeps (h : protocol.Enters m .consumerFailure rest)
    (hstep : consumerFailure m = .next m' push spawned) :
    protocol.Keeps m .consumerFailure rest m' push spawned := by
  obtain ⟨hdone, hfailed⟩ : m.outer.head.isDone = true ∧ m.outer.word.failed = true := h.relies
  cases hstep
  refine observe_keeps h hdone (published_of_failed hfailed) (fun k => ?_) fun x hx => by cases hx
  cases k <;> rfl

theorem wait_keeps {t : Who} (h : protocol.Enters m (.wait t) rest)
    (hstep : wait m t = .next m' push spawned) :
    protocol.Keeps m (.wait t) rest m' push spawned := by
  unfold wait at hstep
  split at hstep
  · rename_i hdone
    cases hstep
    refine goto_keeps h (fun k => ?_) (fun x hx => ?_)
    · cases t <;> cases k <;> rfl
    · obtain rfl := List.mem_singleton.mp hx
      exact hdone
  · cases hstep

/-- One more wait reports the outcome that the task has. -/
theorem report_keeps {t : Who} {o : Option Failure} (h : protocol.Enters m ins rest)
    (hdone : (m.task t).head.isDone = true)
    (ho : o = (m.task t).failureWaitStatus (m.portOf t))
    (hsame : ∀ k, tokens ins k = if t = .outer ∧ k = .view then 1 else 0) :
    protocol.Keeps m ins rest (m.report t o) [] [] := by
  cases t with
  | outer =>
    refine observe_keeps h hdone ho (fun k => ?_) fun x hx => by cases hx
    rw [hsame k, stackSum_nil]
    cases k <;> rfl
  | inner =>
    refine Frame.keeps ?_ ?_ (fun k => ?_) (fun x hx => by cases hx) fun l hl => by cases hl
    · exact
        { settled := fun h => ⟨h, rfl, rfl⟩
          inner := fun _ _ => ⟨rfl, rfl, rfl, rfl, fun _ => rfl⟩
          outer := fun _ => ⟨rfl, rfl, rfl, rfl⟩
          served := fun _ => rfl }
    · exact
        { flag := fun u => by
            cases u with
            | inner => exact h.memory.flag .inner
            | outer => exact h.memory.flag .outer
          ports := h.memory.ports
          waiting := h.memory.waiting
          marked := h.memory.marked
          outer := h.memory.outer
          fresh := h.memory.fresh
          observed := h.memory.observed
          reported := fun x hx => by
            rcases List.mem_cons.mp hx with rfl | hx
            · exact ⟨hdone, ho⟩
            · exact h.memory.reported x hx }
    · rw [hsame k, stackSum_nil, threadSum_nil]
      cases k <;> simp [balance, Mem.report]

theorem hasFailure_keeps {t : Who} (h : protocol.Enters m (.hasFailure t) rest)
    (hstep : hasFailure m t = .next m' push spawned) :
    protocol.Keeps m (.hasFailure t) rest m' push spawned := by
  have hdone : (m.task t).head.isDone = true := h.relies
  unfold hasFailure at hstep
  split at hstep
  · rename_i hfailed
    cases hstep
    refine goto_keeps h (fun k => ?_) (fun x hx => ?_)
    · cases t <;> cases k <;> rfl
    · obtain rfl := List.mem_singleton.mp hx
      exact ⟨hdone, hfailed⟩
  · rename_i hfine
    cases hstep
    refine report_keeps h hdone ?_ fun k => ?_
    · rw [Task.failureWaitStatus, if_neg hfine]
    · cases t <;> cases k <;> rfl

theorem failureBits_keeps {t : Who} (h : protocol.Enters m (.failureBits t) rest)
    (hstep : failureBits m t = .next m' push spawned) :
    protocol.Keeps m (.failureBits t) rest m' push spawned := by
  obtain ⟨hdone, hfailed⟩ : (m.task t).head.isDone = true ∧ (m.task t).word.failed = true :=
    h.relies
  cases hstep
  refine report_keeps h hdone ?_ fun k => ?_
  · rw [Task.failureWaitStatus, if_pos hfailed]
  · cases t <;> cases k <;> rfl

end Steps

/-- Every step that meets the condition keeps the protocol. -/
theorem keeps {m m' : Mem} {choice : Bool} {ins : Instr} {rest push : List Instr}
    {spawned : List (List Instr)} (hadmits : admits m ins = true) (h : protocol.Enters m ins rest)
    (hexec : exec m choice ins = .next m' push spawned) :
    protocol.Keeps m ins rest m' push spawned := by
  cases ins with
  | publish t f next =>
    cases t with
    | inner => exact publish_inner_keeps h hexec
    | outer => exact publish_outer_keeps h hexec
  | mark t b next =>
    cases t with
    | inner =>
      refine mark_inner_keeps h ?_ hexec
      simpa [admits] using hadmits
    | outer => exact mark_outer_keeps h hexec
  | publishFrom next => exact publishFrom_keeps h hexec
  | removePrerequisite t =>
    cases t with
    | inner => exact removePrerequisite_inner_keeps h hexec
    | outer => exact removePrerequisite_outer_keeps h hexec
  | execute t =>
    cases t with
    | inner => exact executeInner_keeps h hexec
    | outer => exact executeOuter_keeps h hexec
  | forward => exact forward_keeps h hexec
  | offerArc => exact offerArc_keeps h hexec
  | checkFailure => exact checkFailure_keeps h hexec
  | complete t canThrow => exact complete_keeps h hexec
  | closeList t canThrow terminal =>
    cases t with
    | inner => exact closeList_inner_keeps h hexec
    | outer => exact closeList_outer_keeps h hexec
  | notifyLoad t canThrow l => exact notifyLoad_keeps h hexec
  | notifyArcs t canThrow failed l =>
    cases t with
    | inner => exact notifyArcs_inner_keeps h hexec
    | outer => exact notifyArcs_outer_keeps h hexec
  | cancel => exact cancel_keeps h hexec
  | cancelMark => exact cancelMark_keeps h hadmits hexec
  | consume => exact consume_keeps h hexec
  | lateCheck => exact lateCheck_keeps h hexec
  | consumerFailure => exact consumerFailure_keeps h hexec
  | wait t => exact wait_keeps h hexec
  | hasFailure t => exact hasFailure_keeps h hexec
  | failureBits t => exact failureBits_keeps h hexec

end Oox.Transparent
