import Oox.Cancellation.Task

/-!
# One outcome for everybody

As long as `cancel` sets its bit only where the completion of the task still looks at it, or where
it changes nothing any more, all consumers and waits get the same answer, and a complete task
keeps its outcome.
-/

set_option autoImplicit false

namespace Oox.Cancellation

open Library
open Transparent (Failure Entry ListHead Task Body mark_failed failed_of_skips
  published_of_failed status_mark_user status_close exists_list not_mem_signal)

/-! ## The protocol -/

inductive Right where
  /-- a unit of the count of the task. -/
  | start
  /-- such a unit, with no payload left to mark. -/
  | clean
  /-- to mark the task, which has the payload already. -/
  | payload
  /-- to run and complete the task. -/
  | run
  deriving DecidableEq, Repr

namespace Instr

@[simp] def awaits : Instr → Bool
  | .publish _ .remove => true
  | .mark _ .remove => true
  | .markCas _ .remove => true
  | .removePrerequisite => true
  | _ => false

@[simp] def isClean : Instr → Bool
  | .publish _ .remove => true
  | .mark b .remove => b != .exception
  | .markCas b .remove => b != .exception
  | .removePrerequisite => true
  | _ => false

@[simp] def marks : Instr → Bool
  | .mark .exception .remove => true
  | .markCas .exception .remove => true
  | _ => false

@[simp] def runs : Instr → Bool
  | .publish _ .complete => true
  | .mark _ .complete => true
  | .markCas _ .complete => true
  | .execute => true
  | .runBody => true
  | .complete _ => true
  | .closeList _ _ => true
  | _ => false

end Instr

def tokens (ins : Instr) : Right → ℤ
  | .start => if ins.awaits then 1 else 0
  | .clean => if ins.isClean then 1 else 0
  | .payload => if ins.marks then 1 else 0
  | .run => if ins.runs then 1 else 0

def balance (m : Mem) : Right → ℤ
  | .start => -m.waiting
  | .clean => m.unmarked - m.waiting
  | .payload => -m.unmarked
  | .run => -(!m.task.head.isDone && m.waiting == 0).toNat

/-- The task has completed. -/
def Settled (m : Mem) : Prop := m.task.head.isDone = true

/-- What a thread that notifies the entries of `l` relies on. -/
def Notifying (m : Mem) (canThrow : Bool) (l : List Entry) : Prop :=
  Settled m ∧ canThrow = m.task.word.failed ∧ (canThrow = false → ∀ e, .signal e ∉ l)

/-- What the template of `notify_successors` was chosen from. -/
def Completing (m : Mem) (canThrow : Bool) : Prop :=
  canThrow = m.task.word.failed ∧
    (canThrow = false → m.task.head.signals = [] ∧ m.running = true)

/-- What an instruction relies on. -/
def Fact (m : Mem) : Instr → Prop
  | .publish f .complete => f ≠ none
  | .publish _ .return => False
  | .mark b .return => b = .userCancelled
  | .markCas b .return => b = .userCancelled
  | .execute => m.task.head.signals ≠ [] → m.task.word.exception = true
  | .runBody => m.task.head.signals = [] ∧
      (m.body = .returns → m.running = true ∧ m.task.word.failed = false)
  | .complete canThrow => Completing m canThrow
  | .closeList canThrow terminal => Completing m canThrow ∧ terminal = m.task.terminal canThrow
  | .notifyLoad canThrow l => Notifying m canThrow l
  | .notifyArcs canThrow failed l => Notifying m canThrow l ∧ failed = canThrow
  | .lateCheck => Settled m
  | .consumerFailure => Settled m ∧ m.task.word.failed = true
  | .consumerStart w => Settled m ∧ w.failed = m.outcome.isSome
  | .hasFailure => Settled m
  | .failureBits => Settled m ∧ m.task.word.failed = true
  | _ => True

def Relies (m : Mem) (ins : Instr) (_rest : List Instr) : Prop := Fact m ins

structure MemOk (m : Mem) : Prop where
  flag : m.task.word.failureFlag = m.task.word.failed
  waiting : 0 < m.waiting → m.task.head.isDone = false ∧ m.task.word.count = m.waiting
  marked : 0 < m.waiting → m.task.head.signals ≠ [] →
    m.task.word.exception = true ∨ 0 < m.unmarked
  ran : ∀ b ∈ m.ran, Settled m ∧ b = m.outcome.isNone
  reported : ∀ o ∈ m.reported, Settled m ∧ o = m.outcome

def protocol : Protocol Mem Instr Right where
  balance := balance
  tokens := tokens
  memory := MemOk
  relies := Relies
  tokens_nonneg ins k := by
    cases k <;> simp only [tokens] <;> split_ifs <;> omega

/-! ## Outcomes -/

theorem outcome_of_failed {m : Mem} (h : m.task.word.failed = true) :
    m.outcome = some (m.task.failureForPort 0) := by
  unfold Mem.outcome Task.failureWaitStatus
  rw [if_pos h]

theorem outcome_of_not_failed {m : Mem} (h : m.task.word.failed = false) : m.outcome = none := by
  unfold Mem.outcome Task.failureWaitStatus
  rw [h]
  rfl

/-! ## Steps -/

section Steps

variable {m m' : Mem} {ins : Instr} {rest push : List Instr} {spawned : List (List Instr)}

/-- Who runs the task finds it open, with all prerequisites gone. -/
theorem running_of (hheld : 1 ≤ -balance m .run) :
    m.task.head.isDone = false ∧ m.waiting = 0 := by
  have hbusy : (!m.task.head.isDone && m.waiting == 0) = true := by
    by_contra hno
    rw [Bool.not_eq_true] at hno
    simp [balance, hno] at hheld
  simpa using hbusy

theorem runs_alone {other : Instr} (hother : other.runs = true)
    (hwith : Together balance tokens m ins other) : ins.runs = false ∧ ins.awaits = false := by
  have hrun := hwith .run
  have hstart := hwith .start
  simp only [tokens, hother, if_true] at hrun
  have hle : 1 ≤ -balance m .run := by
    split_ifs at hrun <;> omega
  obtain ⟨hopen, hzero⟩ := running_of hle
  simp only [balance, hopen, hzero, tokens] at hrun hstart
  constructor
  · cases hins : ins.runs with
    | false => rfl
    | true =>
      rw [hins, if_pos rfl] at hrun
      norm_num at hrun
  · cases hins : ins.awaits with
    | false => rfl
    | true =>
      simp only [hins, if_true] at hstart
      split_ifs at hstart <;> norm_num at hstart

/-- What a step must leave alone for the sake of the other threads. -/
structure Frame (m m' : Mem) (ins : Instr) : Prop where
  settled : Settled m →
    Settled m' ∧ m'.task.word.failed = m.task.word.failed ∧ m'.outcome = m.outcome
  alone : ins.awaits = false → ins.runs = false →
    m'.task.head.signals = m.task.head.signals ∧
    m'.task.word.exception = m.task.word.exception ∧ m'.task.handle = m.task.handle ∧
    m'.running = m.running ∧ m'.body = m.body ∧
    (m.task.word.failed = true ∨ m.running = true → m'.task.word.failed = m.task.word.failed)

namespace Frame

theorem notifying (hframe : Frame m m' ins) {canThrow : Bool} {l : List Entry}
    (h : Notifying m canThrow l) : Notifying m' canThrow l := by
  obtain ⟨hdone, hthrow, hsignals⟩ := h
  obtain ⟨hdone', hfailed, -⟩ := hframe.settled hdone
  exact ⟨hdone', hthrow.trans hfailed.symm, hsignals⟩

theorem completing (hframe : Frame m m' ins) (hawaits : ins.awaits = false)
    (hruns : ins.runs = false) {canThrow : Bool} (h : Completing m canThrow) :
    Completing m' canThrow ∧ m'.task.terminal canThrow = m.task.terminal canThrow := by
  obtain ⟨hsignals, hexc, hhandle, hrunning, -, hfailed⟩ := hframe.alone hawaits hruns
  obtain ⟨hthrow, hclean⟩ := h
  have hsame : m'.task.word.failed = m.task.word.failed := by
    apply hfailed
    cases canThrow with
    | true => exact .inl hthrow.symm
    | false => exact .inr (hclean rfl).2
  refine ⟨⟨hthrow.trans hsame.symm, fun hc => ?_⟩, ?_⟩
  · exact ⟨hsignals.trans (hclean hc).1, hrunning.trans (hclean hc).2⟩
  · simp only [Task.terminal, hexc, hhandle]

theorem stable (hframe : Frame m m' ins) {other : Instr} (h : Fact m other)
    (hwith : Together balance tokens m ins other) : Fact m' other := by
  have hruns : other.runs = true → ins.runs = false ∧ ins.awaits = false :=
    fun hother => runs_alone hother hwith
  cases other with
  | publish f next =>
    cases next with
    | remove => trivial
    | complete => exact h
    | «return» => exact h
  | mark b next =>
    cases next with
    | «return» => exact h
    | _ => trivial
  | markCas b next =>
    cases next with
    | «return» => exact h
    | _ => trivial
  | execute =>
    obtain ⟨hruns', hawaits⟩ := hruns rfl
    obtain ⟨hsignals, hexc, -⟩ := hframe.alone hawaits hruns'
    show m'.task.head.signals ≠ [] → m'.task.word.exception = true
    rw [hsignals, hexc]
    exact h
  | runBody =>
    obtain ⟨hruns', hawaits⟩ := hruns rfl
    obtain ⟨hsignals, -, -, hrunning, hbody, hfailed⟩ := hframe.alone hawaits hruns'
    refine ⟨hsignals.trans h.1, fun hreturns => ?_⟩
    obtain ⟨hrun, hfine⟩ := h.2 (hbody.symm.trans hreturns)
    exact ⟨hrunning.trans hrun, (hfailed (.inr hrun)).trans hfine⟩
  | complete canThrow =>
    obtain ⟨hruns', hawaits⟩ := hruns rfl
    exact (hframe.completing hawaits hruns' h).1
  | closeList canThrow terminal =>
    obtain ⟨hruns', hawaits⟩ := hruns rfl
    obtain ⟨hcompleting, hterminal⟩ := hframe.completing hawaits hruns' h.1
    exact ⟨hcompleting, h.2.trans hterminal.symm⟩
  | notifyLoad canThrow l => exact hframe.notifying h
  | notifyArcs canThrow failed l => exact ⟨hframe.notifying h.1, h.2⟩
  | lateCheck => exact (hframe.settled h).1
  | consumerFailure =>
    obtain ⟨hdone, hfailed, -⟩ := hframe.settled h.1
    exact ⟨hdone, hfailed.trans h.2⟩
  | consumerStart w =>
    obtain ⟨hdone, -, hsame⟩ := hframe.settled h.1
    exact ⟨hdone, by rw [hsame]; exact h.2⟩
  | hasFailure => exact (hframe.settled h).1
  | failureBits =>
    obtain ⟨hdone, hfailed, -⟩ := hframe.settled h.1
    exact ⟨hdone, hfailed.trans h.2⟩
  | _ => trivial

end Frame

/-- Instructions put on a stack in order. -/
theorem stackOk_append {l : List Instr} (hpush : ∀ x ∈ push, Fact m x)
    (hrest : StackOk Relies m l) : StackOk Relies m (push ++ l) := by
  induction push with
  | nil => exact hrest
  | cons x push ih =>
    exact ⟨hpush x List.mem_cons_self, ih fun y hy => hpush y (List.mem_cons_of_mem _ hy)⟩

/-- A step that keeps the protocol and leaves alone what others rely on. -/
structure Carries (m : Mem) (ins : Instr) (rest : List Instr) (m' : Mem) (push : List Instr)
    (spawned : List (List Instr)) : Prop extends protocol.Keeps m ins rest m' push spawned where
  frame : Frame m m' ins

/-- A step keeps the protocol when it keeps the memory in order, leaves alone what others rely
on, and pushes in order. -/
theorem Frame.keeps (hframe : Frame m m' ins) (hok : MemOk m')
    (hcons : Conserves balance tokens m ins m' push spawned) (hpush : ∀ x ∈ push, Fact m' x)
    (hspawned : ∀ l ∈ spawned, ∀ x ∈ l, Fact m' x) :
    Carries m ins rest m' push spawned where
  frame := hframe
  memory := hok
  conserves := hcons
  stable other _ hrelies hwith := hframe.stable hrelies (hwith other List.mem_cons_self)
  push := stackOk_append hpush
  spawned l hl := by
    have h := stackOk_append (l := []) (hspawned l hl) trivial
    rwa [List.append_nil] at h

theorem frame_refl (m : Mem) (ins : Instr) : Frame m m ins where
  settled h := ⟨h, rfl, rfl⟩
  alone _ _ := ⟨rfl, rfl, rfl, rfl, rfl, fun _ => rfl⟩

/-- A step that only goes on, with the same rights. -/
theorem goto_keeps (h : protocol.Enters m ins rest)
    (hsame : ∀ k, stackSum tokens push k = tokens ins k) (hfacts : ∀ x ∈ push, Fact m x) :
    Carries m ins rest m push [] :=
  (frame_refl m ins).keeps h.memory (fun k => by rw [hsame k, threadSum_nil, add_zero]) hfacts
    fun l hl => by cases hl

/-- A change of the task before it has completed, by a thread with a right to it. -/
theorem frame_open (hins : ins.awaits = true ∨ ins.runs = true)
    (hopen : m.task.head.isDone = false) : Frame m m' ins where
  settled h := by
    rw [Settled, hopen] at h
    cases h
  alone hawaits hruns := by
    rw [hawaits, hruns] at hins
    simp at hins

/-- Before the task has completed nobody has an answer. -/
theorem MemOk.of_open (h : MemOk m) (hopen : m.task.head.isDone = false) (hran : m'.ran = m.ran)
    (hreported : m'.reported = m.reported) (hflag : m'.task.word.failureFlag = m'.task.word.failed)
    (hwaiting : 0 < m'.waiting → m'.task.head.isDone = false ∧ m'.task.word.count = m'.waiting)
    (hmarked : 0 < m'.waiting → m'.task.head.signals ≠ [] →
      m'.task.word.exception = true ∨ 0 < m'.unmarked) : MemOk m' where
  flag := hflag
  waiting := hwaiting
  marked := hmarked
  ran b hb := by
    rw [hran] at hb
    have hdone := (h.ran b hb).1
    rw [Settled, hopen] at hdone
    cases hdone
  reported o ho := by
    rw [hreported] at ho
    have hdone := (h.reported o ho).1
    rw [Settled, hopen] at hdone
    cases hdone

theorem settled_of_head {m : Mem} (h : ∀ l, m.task.head ≠ .list l) : Settled m := by
  unfold Settled
  cases hhead : m.task.head with
  | list l => exact absurd hhead (h l)
  | done => rfl
  | terminal e => rfl

/-! ### Failures -/

/-- The task is open for those who have a right to it. -/
theorem open_of_start (h : protocol.Enters m ins rest) (hins : ins.awaits = true) :
    m.task.head.isDone = false ∧ 0 < m.waiting := by
  have hk : tokens ins .start ≤ -balance m .start := h.covered .start
  simp only [tokens, hins, if_true, balance] at hk
  have hpos : 0 < m.waiting := by omega
  exact ⟨(h.memory.waiting hpos).1, hpos⟩

theorem open_of_runs (h : protocol.Enters m ins rest) (hins : ins.runs = true) :
    m.task.head.isDone = false ∧ m.waiting = 0 := by
  have hk : tokens ins .run ≤ -balance m .run := h.covered .run
  simp only [tokens, hins, if_true] at hk
  exact running_of hk

theorem publish_keeps {f : Option Failure} {next : After}
    (h : protocol.Enters m (.publish f next) rest)
    (hstep : publish m f next = .next m' push spawned) :
    Carries m (.publish f next) rest m' push spawned := by
  have hright : (Instr.publish f next).awaits = true ∨ (Instr.publish f next).runs = true := by
    cases next with
    | remove => exact .inl rfl
    | complete => exact .inr rfl
    | «return» => exact absurd h.relies id
  have hopen : m.task.head.isDone = false := by
    rcases hright with hawaits | hruns
    · exact (open_of_start h hawaits).1
    · exact (open_of_runs h hruns).1
  obtain ⟨l, hl⟩ := exists_list hopen
  cases f with
  | none =>
    cases hstep
    cases next with
    | remove =>
      refine goto_keeps h (fun k => ?_) (fun x hx => ?_)
      · cases k <;> rfl
      · obtain rfl := List.mem_singleton.mp hx
        trivial
    | complete => exact absurd rfl (show (none : Option Failure) ≠ none from h.relies)
    | «return» => exact absurd h.relies id
  | some f =>
    cases f with
    | exception e =>
      simp only [publish, hl] at hstep
      cases hstep
      refine Frame.keeps (frame_open hright hopen) ?_ (fun k => ?_) (fun x hx => ?_)
        fun l hl => by cases hl
      · refine h.memory.of_open hopen rfl rfl h.memory.flag ?_ ?_
        · exact fun hpos => ⟨rfl, (h.memory.waiting hpos).2⟩
        · intro hpos _
          cases next with
          | remove => exact .inr (by simp)
          | complete =>
            have hzero := (open_of_runs h rfl).2
            have hpos : 0 < m.waiting := hpos
            omega
          | «return» => exact absurd h.relies id
      · cases next <;> cases k <;> simp [balance, tokens, Mem.setHead, hl]
        omega
      · obtain rfl := List.mem_singleton.mp hx
        cases next with
        | «return» => exact absurd h.relies id
        | _ => trivial
    | _ =>
      cases hstep
      refine goto_keeps h (fun k => ?_) (fun x hx => ?_)
      · rw [stackSum_cons, stackSum_nil, add_zero]
        cases next <;> cases k <;> rfl
      · obtain rfl := List.mem_singleton.mp hx
        cases next with
        | «return» => exact absurd h.relies id
        | _ => trivial

/-- What follows a mark. -/
theorem fact_push {next : After} (hcomplete : next = .complete → Completing m true) :
    ∀ x ∈ next.push, Fact m x := by
  intro x hx
  cases next with
  | remove =>
    obtain rfl := List.mem_singleton.mp hx
    trivial
  | complete =>
    obtain rfl := List.mem_singleton.mp hx
    exact hcomplete rfl
  | «return» => cases hx

theorem mark_keeps {b : FailureBit} {next : After} (h : protocol.Enters m (.mark b next) rest)
    (hstep : mark m b next = .next m' push spawned) :
    Carries m (.mark b next) rest m' push spawned := by
  unfold mark at hstep
  split at hstep
  · rename_i hdone
    cases hstep
    -- only a cancellation comes too late
    cases next with
    | remove =>
      rw [(open_of_start h rfl).1] at hdone
      cases hdone
    | complete =>
      rw [(open_of_runs h rfl).1] at hdone
      cases hdone
    | «return» =>
      refine goto_keeps h (fun k => ?_) (fun x hx => by cases hx)
      cases b <;> cases k <;> rfl
  · cases hstep
    refine goto_keeps h (fun k => ?_) (fun x hx => ?_)
    · rw [stackSum_cons, stackSum_nil, add_zero]
      cases next <;> cases b <;> cases k <;> rfl
    · obtain rfl := List.mem_singleton.mp hx
      cases next with
      | «return» => exact h.relies
      | _ => trivial

/-- A mark by a thread with a right to the task. -/
theorem markCas_keeps {b : FailureBit} {next : After} {fails : Bool} (hnext : next ≠ .return)
    (h : protocol.Enters m (.markCas b next) rest)
    (hstep : markCas m fails b next = .next m' push spawned) :
    Carries m (.markCas b next) rest m' push spawned := by
  have hright : (Instr.markCas b next).awaits = true ∨ (Instr.markCas b next).runs = true := by
    cases next with
    | remove => exact .inl rfl
    | complete => exact .inr rfl
    | «return» => exact absurd rfl hnext
  have hopen : m.task.head.isDone = false := by
    rcases hright with hawaits | hruns
    · exact (open_of_start h hawaits).1
    · exact (open_of_runs h hruns).1
  unfold markCas at hstep
  split at hstep
  · cases hstep
    refine goto_keeps h (fun k => ?_) (fun x hx => ?_)
    · rw [stackSum_cons, stackSum_nil, add_zero]
      cases next <;> cases b <;> cases k <;> rfl
    · obtain rfl := List.mem_singleton.mp hx
      cases next with
      | «return» => exact absurd rfl hnext
      | _ => trivial
  · cases hstep
    refine Frame.keeps (frame_open hright hopen) ?_ (fun k => ?_) (fact_push fun _ => ?_)
      fun l hl => by cases hl
    · refine h.memory.of_open hopen rfl rfl ?_ ?_ ?_
      · exact (mark_failed _ b).2.trans (mark_failed _ b).1.symm
      · exact fun hpos => ⟨hopen, (StartCount.mark_count _ b).trans (h.memory.waiting hpos).2⟩
      · intro hpos hsignals
        cases b with
        | exception => exact .inl rfl
        | userCancelled => simpa [Mem.setWord, StartCount.mark] using h.memory.marked hpos hsignals
        | dependencyCancelled =>
          simpa [Mem.setWord, StartCount.mark] using h.memory.marked hpos hsignals
    · cases next with
      | «return» => exact absurd rfl hnext
      | complete => cases b <;> cases k <;> simp [balance, tokens, After.push, Mem.setWord]
      | remove =>
        cases b with
        | exception =>
          have hk : tokens (.markCas .exception .remove) .payload ≤ -balance m .payload :=
            h.covered .payload
          simp only [tokens, balance, Instr.marks, if_true] at hk
          cases k <;> simp [balance, tokens, After.push, Mem.setWord] <;> omega
        | _ => cases k <;> simp [balance, tokens, After.push, Mem.setWord]
    · refine ⟨?_, fun hno => by cases hno⟩
      exact (mark_failed _ b).1.symm

/-- A cancellation that is admitted is still looked at, or changes nothing any more. -/
theorem cancel_keeps {b : FailureBit} {fails : Bool}
    (h : protocol.Enters m (.markCas b .return) rest)
    (hadmits : admits m fails (.markCas b .return) = true)
    (hstep : markCas m fails b .return = .next m' push spawned) :
    Carries m (.markCas b .return) rest m' push spawned := by
  obtain rfl : b = .userCancelled := h.relies
  unfold markCas at hstep
  split at hstep
  · cases hstep
    refine goto_keeps h (fun k => ?_) (fun x hx => ?_)
    · cases k <;> rfl
    · obtain rfl := List.mem_singleton.mp hx
      rfl
  · rename_i hsucceeds
    have hcases : (m.task.word.exception = true ∨ m.task.word.userCancelled = true) ∨
        m.task.head.isDone = false ∧ (m.running = false ∨ m.task.word.failed = true) := by
      simp only [admits, hsucceeds, Bool.false_or, Bool.or_eq_true, Bool.and_eq_true,
        Bool.not_eq_true'] at hadmits
      tauto
    have hfailed := (mark_failed m.task.word .userCancelled).1
    have hbitsFailed : m.task.word.exception = true ∨ m.task.word.userCancelled = true →
        m.task.word.failed = true := by
      intro hbits
      simp only [StartCount.failed, Bool.or_eq_true]
      tauto
    have hsettled : Settled m → m.task.word.failed = true ∧
        (m.setWord (m.task.word.mark .userCancelled)).outcome = m.outcome := by
      intro hdone
      rcases hcases with hbits | ⟨hopen, -⟩
      · exact ⟨hbitsFailed hbits, status_mark_user hbits⟩
      · rw [Settled, hopen] at hdone
        cases hdone
    cases hstep
    refine Frame.keeps ?_ ?_ (fun k => ?_) (fun x hx => by cases hx) fun l hl => by cases hl
    · refine ⟨fun hdone => ⟨hdone, ?_, (hsettled hdone).2⟩, fun _ _ => ?_⟩
      · exact hfailed.trans (hsettled hdone).1.symm
      · refine ⟨rfl, rfl, rfl, rfl, rfl, fun hstill => hfailed.trans ?_⟩
        rcases hcases with hbits | ⟨-, hlooks⟩
        · exact (hbitsFailed hbits).symm
        · rcases hstill with hstill | hrunning
          · exact hstill.symm
          · rcases hlooks with hno | hstill
            · rw [hno] at hrunning
              cases hrunning
            · exact hstill.symm
    · exact
        { flag := (mark_failed _ _).2.trans hfailed.symm
          waiting := fun hpos =>
            ⟨(h.memory.waiting hpos).1, (StartCount.mark_count _ _).trans (h.memory.waiting hpos).2⟩
          marked := h.memory.marked
          ran := fun b hb => by
            obtain ⟨hdone, hran⟩ := h.memory.ran b hb
            exact ⟨hdone, hran.trans (congrArg Option.isNone (hsettled hdone).2.symm)⟩
          reported := fun o ho => by
            obtain ⟨hdone, hreported⟩ := h.memory.reported o ho
            exact ⟨hdone, hreported.trans (hsettled hdone).2.symm⟩ }
    · cases k <;> simp [balance, tokens, After.push, Mem.setWord]

/-! ### remove_prerequisite -/

theorem removePrerequisite_keeps (h : protocol.Enters m .removePrerequisite rest)
    (hstep : removePrerequisite m = .next m' push spawned) :
    Carries m .removePrerequisite rest m' push spawned := by
  obtain ⟨hopen, hpos⟩ := open_of_start h rfl
  have hcount := (h.memory.waiting hpos).2
  have hclean : tokens .removePrerequisite .clean ≤ -balance m .clean := h.covered .clean
  simp only [tokens, balance, Instr.isClean, if_true] at hclean
  have hok : MemOk { m.setWord { m.task.word with count := m.waiting - 1 } with
      waiting := m.waiting - 1 } := by
    refine h.memory.of_open hopen rfl rfl h.memory.flag ?_ ?_
    · exact fun _ => ⟨hopen, rfl⟩
    · exact fun _ hsignals => h.memory.marked hpos hsignals
  have hframe : Frame m { m.setWord { m.task.word with count := m.waiting - 1 } with
      waiting := m.waiting - 1 } .removePrerequisite := frame_open (.inl rfl) hopen
  -- with the last prerequisite gone, every payload on the list is marked
  have hmarked : m.waiting = 1 → m.task.head.signals ≠ [] → m.task.word.exception = true := by
    intro hone hsignals
    rcases h.memory.marked hpos hsignals with hexc | hunmarked
    · exact hexc
    · omega
  unfold removePrerequisite at hstep
  simp only [hcount] at hstep
  split at hstep
  · cases hstep
  · split at hstep
    · rename_i hone
      split at hstep
      · rename_i hskips
        cases hstep
        refine Frame.keeps hframe hok (fun k => ?_) (fun x hx => ?_) fun l hl => by cases hl
        · cases k <;> simp [balance, tokens, Mem.setWord, hone, hopen]
        · obtain rfl := List.mem_singleton.mp hx
          exact ⟨(failed_of_skips hskips).symm, fun hno => by cases hno⟩
      · cases hstep
        refine Frame.keeps hframe hok (fun k => ?_) (fun x hx => by cases hx) fun l hl x hx => ?_
        · cases k <;> simp [balance, tokens, Mem.setWord, hone, hopen]
        · obtain rfl := List.mem_singleton.mp hl
          obtain rfl := List.mem_singleton.mp hx
          exact hmarked hone
    · rename_i hne
      cases hstep
      refine Frame.keeps hframe hok (fun k => ?_) (fun x hx => by cases hx) fun l hl => by cases hl
      cases k with
      | run =>
        have hsub : (m.waiting - 1 == 0) = false := by
          rw [beq_eq_false_iff_ne]
          omega
        have hnz : (m.waiting == 0) = false := by
          rw [beq_eq_false_iff_ne]
          omega
        simp [balance, tokens, hsub, hnz]
      | start =>
        simp only [balance, tokens, Instr.awaits, if_true, stackSum_nil, threadSum_nil]
        omega
      | clean =>
        simp only [balance, tokens, Instr.isClean, if_true, stackSum_nil, threadSum_nil]
        dsimp only [Mem.setWord]
        omega
      | payload => simp [balance, tokens, Mem.setWord]

/-! ### The task runs -/

theorem execute_keeps (h : protocol.Enters m .execute rest)
    (hstep : execute m = .next m' push spawned) :
    Carries m .execute rest m' push spawned := by
  obtain ⟨hopen, hzero⟩ := open_of_runs h rfl
  have hmarked : m.task.head.signals ≠ [] → m.task.word.exception = true := h.relies
  unfold execute at hstep
  split at hstep
  · rename_i hfailed
    cases hstep
    refine goto_keeps h (fun k => ?_) (fun x hx => ?_)
    · cases k <;> rfl
    · obtain rfl := List.mem_singleton.mp hx
      exact ⟨hfailed.symm, fun hno => by cases hno⟩
  · rename_i hfine
    rw [Bool.not_eq_true] at hfine
    cases hstep
    refine Frame.keeps (frame_open (.inr rfl) hopen) ?_ (fun k => ?_) (fun x hx => ?_)
      fun l hl => by cases hl
    · exact h.memory.of_open hopen rfl rfl h.memory.flag h.memory.waiting h.memory.marked
    · cases k <;> simp [balance, tokens]
    · obtain rfl := List.mem_singleton.mp hx
      refine ⟨?_, fun hreturns => ⟨?_, hfine⟩⟩
      · by_contra hsignals
        have hexc := hmarked hsignals
        simp [StartCount.failed, hexc] at hfine
      · have hbody : m.body = .returns := hreturns
        simp [hbody]

theorem runBody_keeps (h : protocol.Enters m .runBody rest)
    (hstep : runBody m = .next m' push spawned) :
    Carries m .runBody rest m' push spawned := by
  obtain ⟨hopen, hzero⟩ := open_of_runs h rfl
  obtain ⟨hempty, hreturns⟩ : m.task.head.signals = [] ∧
    (m.body = .returns → m.running = true ∧ m.task.word.failed = false) := h.relies
  have hnone : ∀ P : Prop, 0 < m.waiting → P := fun P hpos => by omega
  unfold runBody at hstep
  split at hstep
  · rename_i hbody
    obtain ⟨hrunning, hfine⟩ := hreturns hbody
    cases hstep
    refine goto_keeps h (fun k => ?_) (fun x hx => ?_)
    · cases k <;> rfl
    · obtain rfl := List.mem_singleton.mp hx
      exact ⟨hfine.symm, fun _ => ⟨hempty, hrunning⟩⟩
  · cases hstep
    refine goto_keeps h (fun k => ?_) (fun x hx => ?_)
    · cases k <;> rfl
    · obtain rfl := List.mem_singleton.mp hx
      exact Option.some_ne_none _
  · cases hstep
    refine Frame.keeps (frame_open (.inr rfl) hopen) ?_ (fun k => ?_) (fun x hx => ?_)
      fun l hl => by cases hl
    · exact h.memory.of_open hopen rfl rfl rfl (hnone _) (hnone _)
    · cases k <;> simp [balance, tokens, Mem.setWord]
    · obtain rfl := List.mem_singleton.mp hx
      exact ⟨rfl, fun _ => ⟨hempty, rfl⟩⟩
  · cases hstep
    refine Frame.keeps (frame_open (.inr rfl) hopen) ?_ (fun k => ?_) (fun x hx => ?_)
      fun l hl => by cases hl
    · exact h.memory.of_open hopen rfl rfl rfl (hnone _) (hnone _)
    · cases k <;> simp [balance, tokens, Mem.setWord]
    · obtain rfl := List.mem_singleton.mp hx
      exact Option.some_ne_none _
  · cases hstep
    refine Frame.keeps (frame_open (.inr rfl) hopen) ?_ (fun k => ?_) (fun x hx => by cases hx)
      fun l hl x hx => ?_
    · exact h.memory.of_open hopen rfl rfl rfl (fun _ => ⟨hopen, rfl⟩)
        fun _ hno => absurd hempty hno
    · cases k <;> simp [balance, tokens, Mem.setWord, hopen, hzero]
    · obtain rfl := List.mem_singleton.mp hl
      obtain rfl := List.mem_singleton.mp hx
      trivial

/-! ### notify_successors -/

theorem complete_keeps {canThrow : Bool} (h : protocol.Enters m (.complete canThrow) rest)
    (hstep : complete m canThrow = .next m' push spawned) :
    Carries m (.complete canThrow) rest m' push spawned := by
  cases hstep
  refine goto_keeps h (fun k => ?_) (fun x hx => ?_)
  · cases k <;> rfl
  · obtain rfl := List.mem_singleton.mp hx
    exact ⟨h.relies, rfl⟩

theorem closeList_keeps {canThrow : Bool} {terminal : Option ℕ}
    (h : protocol.Enters m (.closeList canThrow terminal) rest)
    (hstep : closeList m canThrow terminal = .next m' push spawned) :
    Carries m (.closeList canThrow terminal) rest m' push spawned := by
  obtain ⟨hopen, hzero⟩ := open_of_runs h rfl
  obtain ⟨⟨hthrow, hclean⟩, hterminal⟩ := h.relies
  obtain ⟨l, hl⟩ := exists_list hopen
  have hnone : ∀ P : Prop, 0 < m.waiting → P := fun P hpos => by omega
  have hframe : Frame m (m.setHead (.closed terminal)) (.closeList canThrow terminal) :=
    frame_open (.inr rfl) hopen
  have hok : MemOk (m.setHead (.closed terminal)) :=
    h.memory.of_open hopen rfl rfl h.memory.flag (hnone _) (hnone _)
  have hlaw : ∀ k, balance (m.setHead (.closed terminal)) k =
      balance m k + tokens (.closeList canThrow terminal) k := by
    intro k
    cases k <;> simp [balance, tokens, Mem.setHead, hopen, hzero]
  unfold closeList at hstep
  rw [hl] at hstep
  split at hstep
  · cases hstep
    refine hframe.keeps hok (fun k => ?_) (fun x hx => by cases hx) fun l hl => by cases hl
    rw [hlaw, stackSum_nil, threadSum_nil, add_zero, add_zero]
  · rename_i l' _ hsame
    obtain rfl := (ListHead.list.inj hsame).symm
    cases hstep
    refine hframe.keeps hok (fun k => ?_) (fun x hx => ?_) fun l hl => by cases hl
    · rw [hlaw, threadSum_nil]
      cases k <;> simp [tokens]
    · obtain rfl := List.mem_singleton.mp hx
      refine ⟨ListHead.isDone_closed terminal, hthrow, fun hc e => ?_⟩
      have hsignals := (hclean hc).1
      rw [hl] at hsignals
      exact not_mem_signal hsignals e
  · cases hstep

theorem notifyLoad_keeps {canThrow : Bool} {l : List Entry}
    (h : protocol.Enters m (.notifyLoad canThrow l) rest)
    (hstep : notifyLoad m canThrow l = .next m' push spawned) :
    Carries m (.notifyLoad canThrow l) rest m' push spawned := by
  have hnotifying : Notifying m canThrow l := h.relies
  have hfailed : (canThrow && m.task.word.failureFlag) = canThrow := by
    rw [h.memory.flag, ← hnotifying.2.1, Bool.and_self]
  cases hstep
  rw [hfailed]
  refine goto_keeps h (fun k => ?_) (fun x hx => ?_)
  · cases k <;> rfl
  · obtain rfl := List.mem_singleton.mp hx
    exact ⟨hnotifying, rfl⟩

/-- The rest of the entries to notify. -/
theorem Notifying.tail {canThrow : Bool} {x : Entry} {l : List Entry}
    (h : Notifying m canThrow (x :: l)) : Notifying m canThrow l :=
  ⟨h.1, h.2.1, fun hc e hmem => h.2.2 hc e (List.mem_cons_of_mem x hmem)⟩

/-- A consumer that nothing was published to starts like the consumer of a success. -/
theorem fact_released (hdone : Settled m) (hfine : m.task.word.failed = false) :
    Fact m (.consumerStart {}) := by
  refine ⟨hdone, ?_⟩
  rw [outcome_of_not_failed hfine]
  rfl

theorem notifyArcs_keeps {canThrow failed : Bool} {l : List Entry}
    (h : protocol.Enters m (.notifyArcs canThrow failed l) rest)
    (hstep : notifyArcs m canThrow failed l = .next m' push spawned) :
    Carries m (.notifyArcs canThrow failed l) rest m' push spawned := by
  obtain ⟨hnotifying, rfl⟩ := h.relies
  have htail : ∀ {x l'}, l = x :: l' → Fact m (.notifyArcs failed failed l') := by
    rintro x l' rfl
    exact ⟨hnotifying.tail, rfl⟩
  unfold notifyArcs at hstep
  split at hstep
  · cases hstep
    refine goto_keeps h (fun k => ?_) fun x hx => by cases hx
    cases k <;> rfl
  · split at hstep
    · cases hstep
      refine goto_keeps h (fun k => ?_) (fun x hx => ?_)
      · cases k <;> rfl
      · obtain rfl := List.mem_singleton.mp hx
        exact htail rfl
    · cases hstep
  · cases hstep
    refine goto_keeps h (fun k => ?_) (fun x hx => ?_)
    · split_ifs <;> cases k <;> rfl
    · rcases List.mem_cons.mp hx with rfl | hx
      · split_ifs with hfailed
        · exact ⟨hnotifying.1, hnotifying.2.1.symm.trans hfailed⟩
        · rw [Bool.not_eq_true] at hfailed
          apply fact_released hnotifying.1
          exact hnotifying.2.1.symm.trans hfailed
      · obtain rfl := List.mem_singleton.mp hx
        exact htail rfl

/-! ### Consumers and waits -/

theorem consume_keeps (h : protocol.Enters m .consume rest)
    (hstep : consume m = .next m' push spawned) :
    Carries m .consume rest m' push spawned := by
  unfold consume at hstep
  split at hstep
  · rename_i l hl
    have hopen : m.task.head.isDone = false := by
      rw [hl]
      rfl
    cases hstep
    refine Frame.keeps ?_ ?_ (fun k => ?_) (fun x hx => by cases hx) fun l hl => by cases hl
    · refine ⟨fun hdone => ?_, fun _ _ => ?_⟩
      · rw [Settled, hopen] at hdone
        cases hdone
      · exact ⟨by simp [Mem.setHead, hl], rfl, by simp [Mem.setHead, Task.handle, hl], rfl, rfl,
          fun _ => rfl⟩
    · refine h.memory.of_open hopen rfl rfl h.memory.flag ?_ ?_
      · exact fun hpos => ⟨rfl, (h.memory.waiting hpos).2⟩
      · intro hpos hsignals
        refine h.memory.marked hpos ?_
        rw [hl]
        exact hsignals
    · cases k <;> simp [balance, tokens, Mem.setHead, hl]
  · rename_i hclosed
    cases hstep
    refine goto_keeps h (fun k => ?_) (fun x hx => ?_)
    · cases k <;> rfl
    · obtain rfl := List.mem_singleton.mp hx
      exact settled_of_head hclosed

theorem lateCheck_keeps (h : protocol.Enters m .lateCheck rest)
    (hstep : lateCheck m = .next m' push spawned) :
    Carries m .lateCheck rest m' push spawned := by
  have hdone : Settled m := h.relies
  cases hstep
  refine goto_keeps h (fun k => ?_) (fun x hx => ?_)
  · split_ifs <;> cases k <;> rfl
  · obtain rfl := List.mem_singleton.mp hx
    split_ifs with hfailed
    · exact ⟨hdone, hfailed⟩
    · rw [Bool.not_eq_true] at hfailed
      exact fact_released hdone hfailed

theorem consumerFailure_keeps (h : protocol.Enters m .consumerFailure rest)
    (hstep : consumerFailure m = .next m' push spawned) :
    Carries m .consumerFailure rest m' push spawned := by
  obtain ⟨hdone, hfailed⟩ : Settled m ∧ m.task.word.failed = true := h.relies
  have hsome := outcome_of_failed hfailed
  have hpublished : m.task.publishedFailure 0 = some (m.task.failureForPort 0) :=
    (published_of_failed hfailed).trans hsome
  unfold consumerFailure at hstep
  rw [hpublished] at hstep
  cases hstep
  refine goto_keeps h (fun k => ?_) (fun x hx => ?_)
  · cases k <;> rfl
  · obtain rfl := List.mem_singleton.mp hx
    refine ⟨hdone, ?_⟩
    rw [hsome]
    exact (mark_failed _ _).1

/-- One more answer, and it is the outcome of the complete task. -/
theorem answer_keeps (h : protocol.Enters m ins rest) (hins : ∀ k, tokens ins k = 0)
    (hdone : Settled m) (htask : m'.task = m.task) (hbody : m'.body = m.body)
    (hwaiting : m'.waiting = m.waiting) (hunmarked : m'.unmarked = m.unmarked)
    (hrunning : m'.running = m.running) (hran : ∀ b ∈ m'.ran, b ∈ m.ran ∨ b = m.outcome.isNone)
    (hreported : ∀ o ∈ m'.reported, o ∈ m.reported ∨ o = m.outcome) :
    Carries m ins rest m' [] [] := by
  have hsame : m'.outcome = m.outcome := by
    simp only [Mem.outcome, htask]
  have hdone' : Settled m' := by
    rw [Settled, htask]
    exact hdone
  refine Frame.keeps ?_ ?_ (fun k => ?_) (fun x hx => by cases hx) fun l hl => by cases hl
  · exact ⟨fun _ => ⟨hdone', by rw [htask], hsame⟩,
      fun _ _ => ⟨by rw [htask], by rw [htask], by rw [htask], hrunning, hbody, fun _ => by rw [htask]⟩⟩
  · refine ⟨?_, ?_, ?_, fun b hb => ⟨hdone', ?_⟩, fun o ho => ⟨hdone', ?_⟩⟩
    · rw [htask]
      exact h.memory.flag
    · rw [htask, hwaiting]
      exact h.memory.waiting
    · rw [htask, hwaiting, hunmarked]
      exact h.memory.marked
    · rw [hsame]
      rcases hran b hb with hb | hb
      · exact (h.memory.ran b hb).2
      · exact hb
    · rw [hsame]
      rcases hreported o ho with ho | ho
      · exact (h.memory.reported o ho).2
      · exact ho
  · rw [hins, stackSum_nil, threadSum_nil]
    cases k <;> simp [balance, htask, hwaiting, hunmarked]

theorem consumerStart_keeps {w : StartCount} (h : protocol.Enters m (.consumerStart w) rest)
    (hstep : consumerStart m w = .next m' push spawned) :
    Carries m (.consumerStart w) rest m' push spawned := by
  obtain ⟨hdone, hw⟩ : Settled m ∧ w.failed = m.outcome.isSome := h.relies
  cases hstep
  refine answer_keeps h (fun k => by cases k <;> rfl) hdone rfl rfl rfl rfl rfl (fun b hb => ?_)
    fun o ho => .inl ho
  rcases List.mem_cons.mp hb with rfl | hb
  · refine .inr ?_
    rw [hw]
    cases m.outcome <;> rfl
  · exact .inl hb

theorem report_keeps {o : Option Failure} (h : protocol.Enters m ins rest)
    (hins : ∀ k, tokens ins k = 0) (hdone : Settled m) (ho : o = m.outcome) :
    Carries m ins rest (m.report o) [] [] := by
  refine answer_keeps h hins hdone rfl rfl rfl rfl rfl (fun b hb => .inl hb) fun x hx => ?_
  rcases List.mem_cons.mp hx with rfl | hx
  · exact .inr ho
  · exact .inl hx

theorem wait_keeps (h : protocol.Enters m .wait rest) (hstep : wait m = .next m' push spawned) :
    Carries m .wait rest m' push spawned := by
  unfold wait at hstep
  split at hstep
  · rename_i hdone
    cases hstep
    refine goto_keeps h (fun k => ?_) (fun x hx => ?_)
    · cases k <;> rfl
    · obtain rfl := List.mem_singleton.mp hx
      exact hdone
  · cases hstep

theorem hasFailure_keeps (h : protocol.Enters m .hasFailure rest)
    (hstep : hasFailure m = .next m' push spawned) :
    Carries m .hasFailure rest m' push spawned := by
  have hdone : Settled m := h.relies
  unfold hasFailure at hstep
  split at hstep
  · rename_i hfailed
    cases hstep
    refine goto_keeps h (fun k => ?_) (fun x hx => ?_)
    · cases k <;> rfl
    · obtain rfl := List.mem_singleton.mp hx
      exact ⟨hdone, hfailed⟩
  · rename_i hfine
    rw [Bool.not_eq_true] at hfine
    cases hstep
    exact report_keeps h (fun k => by cases k <;> rfl) hdone (outcome_of_not_failed hfine).symm

theorem failureBits_keeps (h : protocol.Enters m .failureBits rest)
    (hstep : failureBits m = .next m' push spawned) :
    Carries m .failureBits rest m' push spawned := by
  obtain ⟨hdone, hfailed⟩ : Settled m ∧ m.task.word.failed = true := h.relies
  cases hstep
  exact report_keeps h (fun k => by cases k <;> rfl) hdone (outcome_of_failed hfailed).symm

/-- Every admitted step keeps the protocol. -/
theorem keeps {choice : Bool} (hadmits : admits m choice ins = true)
    (h : protocol.Enters m ins rest) (hstep : exec m choice ins = .next m' push spawned) :
    Carries m ins rest m' push spawned := by
  cases ins with
  | publish f next => exact publish_keeps h hstep
  | mark b next => exact mark_keeps h hstep
  | markCas b next =>
    cases next with
    | «return» => exact cancel_keeps h hadmits hstep
    | remove => exact markCas_keeps (by simp) h hstep
    | complete => exact markCas_keeps (by simp) h hstep
  | removePrerequisite => exact removePrerequisite_keeps h hstep
  | execute => exact execute_keeps h hstep
  | runBody => exact runBody_keeps h hstep
  | complete canThrow => exact complete_keeps h hstep
  | closeList canThrow terminal => exact closeList_keeps h hstep
  | notifyLoad canThrow l => exact notifyLoad_keeps h hstep
  | notifyArcs canThrow failed l => exact notifyArcs_keeps h hstep
  | consume => exact consume_keeps h hstep
  | lateCheck => exact lateCheck_keeps h hstep
  | consumerFailure => exact consumerFailure_keeps h hstep
  | consumerStart w => exact consumerStart_keeps h hstep
  | wait => exact wait_keeps h hstep
  | hasFailure => exact hasFailure_keeps h hstep
  | failureBits => exact failureBits_keeps h hstep

end Steps

/-! ## Runs -/

/-- The threads of the users have no part in the completion of the task. -/
theorem threadSum_users (users : List (List Use)) (k : Right) :
    threadSum tokens (users.map fun l => l.map Use.instr) k = 0 := by
  have hstack : ∀ l : List Use, stackSum tokens (l.map Use.instr) k = 0 := by
    intro l
    induction l with
    | nil => rfl
    | cons u l ih =>
      rw [List.map_cons, stackSum_cons, ih]
      cases u <;> cases k <;> rfl
  induction users with
  | nil => rfl
  | cons l users ih => rw [List.map_cons, threadSum_cons, ih, hstack, add_zero]

theorem threadSum_prerequisites (l : List (Option Failure)) (k : Right) :
    threadSum tokens (l.map fun f => [.publish f .remove]) k =
      if k = .start ∨ k = .clean then (l.length : ℤ) else 0 := by
  induction l with
  | nil => split_ifs <;> rfl
  | cons f l ih =>
    rw [List.map_cons, threadSum_cons, ih, stackSum_cons, stackSum_nil, List.length_cons]
    cases k <;> simp [tokens, add_comm]

theorem relies_uses (m : Mem) (us : List Use) : StackOk Relies m (us.map Use.instr) := by
  induction us with
  | nil => trivial
  | cons u us ih =>
    refine ⟨?_, ih⟩
    cases u with
    | cancel => rfl
    | _ => trivial

/-- The protocol holds before the task has started. -/
theorem start_holds (prerequisites : List (Option Failure)) (body : Body)
    (users : List (List Use)) : protocol.Holds (start prerequisites body users) where
  memory :=
    { flag := rfl
      waiting := fun _ => ⟨rfl, rfl⟩
      marked := fun _ hno => absurd rfl hno
      ran := fun b hb => by cases hb
      reported := fun o ho => by cases ho }
  law k := by
    simp only [start, protocol, List.cons_append, threadSum_cons, threadSum_append,
      threadSum_users, threadSum_prerequisites, stackSum_cons, stackSum_nil]
    cases k <;> simp [balance, tokens] <;> omega
  relies l hl := by
    rw [start, List.cons_append] at hl
    rcases List.mem_cons.mp hl with rfl | hl
    · exact ⟨trivial, trivial⟩
    · rcases List.mem_append.mp hl with hl | hl
      · obtain ⟨f, -, rfl⟩ := List.mem_map.mp hl
        exact ⟨trivial, trivial⟩
      · obtain ⟨us, -, rfl⟩ := List.mem_map.mp hl
        exact relies_uses _ us

section Results

variable {c c' : State}

/-- What an admitted turn runs carries the protocol. -/
theorem carries_of_step (h : protocol.Holds c) {e : Turn} (hadmitted : admitted c e = true)
    {ins : Instr} {rest push : List Instr} {m' : Mem} {spawned : List (List Instr)}
    (htop : c.threads[e.thread]? = some (ins :: rest))
    (hexec : exec c.mem e.choice ins = .next m' push spawned) :
    Carries c.mem ins rest m' push spawned := by
  refine keeps ?_ (h.enters (List.mem_of_getElem? htop)) hexec
  unfold admitted at hadmitted
  rw [htop] at hadmitted
  exact hadmitted

theorem holds_of_reach {c₀ : State} (h₀ : protocol.Holds c₀)
    (hreach : Reach exec (fun c e => admitted c e = true) c₀ c) : protocol.Holds c :=
  Protocol.Holds.of_reach h₀ (fun _ _ _ _ _ _ _ h hadmitted htop hexec _ =>
    (carries_of_step h hadmitted htop hexec).toKeeps) hreach

/-- All answers are the outcome of the task, so they agree. -/
theorem agreed_of_holds (h : protocol.Holds c) : Agreed c.mem := by
  cases houtcome : c.mem.outcome with
  | none =>
    refine .inl ⟨fun b hb => ?_, fun o ho => ?_⟩
    · rw [(h.memory.ran b hb).2, houtcome]
      rfl
    · exact (h.memory.reported o ho).2.trans houtcome
  | some f =>
    refine .inr ⟨f, fun b hb => ?_, fun o ho => ?_⟩
    · rw [(h.memory.ran b hb).2, houtcome]
      rfl
    · exact (h.memory.reported o ho).2.trans houtcome

/-- A run leaves the outcome of a complete task alone. -/
theorem outcome_of_settled (h : protocol.Holds c) (hdone : Settled c.mem)
    (hreach : Reach exec (fun c e => admitted c e = true) c c') :
    Settled c'.mem ∧ c'.mem.outcome = c.mem.outcome := by
  have hall := hreach.invariant (I := fun c' => protocol.Holds c' ∧ Settled c'.mem ∧
    c'.mem.outcome = c.mem.outcome) ⟨h, hdone, rfl⟩ ?_
  · exact hall.2
  · rintro c₁ c₂ e ⟨h₁, hdone₁, hsame⟩ hadmitted hstep
    have hholds : protocol.Holds c₂ := holds_of_reach h₁ (.step e .start hadmitted hstep)
    obtain ⟨ins, rest, push, spawned, htop, hexec, -⟩ := Config.step_cases hstep
    have hframe := (carries_of_step h₁ hadmitted htop hexec).frame
    obtain ⟨hdone₂, -, hsame₂⟩ := hframe.settled hdone₁
    exact ⟨hholds, hdone₂, hsame₂.trans hsame⟩

/-- As long as every cancellation that takes effect is still looked at or changes nothing, all
consumers and waits agree, and a complete task keeps its outcome. -/
theorem one_outcome {prerequisites : List (Option Failure)} {body : Body}
    {users : List (List Use)}
    (hreach : Reach exec (fun c e => admitted c e = true) (start prerequisites body users) c) :
    Agreed c.mem ∧ (c.mem.task.head.isDone = true →
      ∀ c', Reach exec (fun c e => admitted c e = true) c c' →
        Agreed c'.mem ∧ c'.mem.task.head.isDone = true ∧ c'.mem.outcome = c.mem.outcome) := by
  have h := holds_of_reach (start_holds prerequisites body users) hreach
  refine ⟨agreed_of_holds h, fun hdone c' hlater => ?_⟩
  exact ⟨agreed_of_holds (holds_of_reach h hlater), outcome_of_settled h hdone hlater⟩

end Results

/-- Two consumers, one of them late, two waits and a cancellation in time: everybody is told of
the cancellation. -/
theorem one_outcome_cancelled : ∃ c,
    Reach exec (fun c e => admitted c e = true)
      (start [none] .returns [[.consume, .wait], [.cancel], [.wait, .consume]]) c ∧
    c.mem.ran = [false, false] ∧
    c.mem.reported = [some .userCancelled, some .userCancelled] ∧ Agreed c.mem := by
  obtain ⟨c, hreach, hc⟩ := Reach.exists_of_runIf exec admitted
    (start [none] .returns [[.consume, .wait], [.cancel], [.wait, .consume]])
    (rounds [(0, 1), (2, 1), (1, 2), (3, 2), (5, 8), (2, 3), (4, 7)])
    (fun c => decide (c.mem.ran = [false, false] ∧
      c.mem.reported = [some .userCancelled, some .userCancelled])) (by decide)
  obtain ⟨hran, hreported⟩ := of_decide_eq_true hc
  exact ⟨c, hreach, hran, hreported, (one_outcome hreach).1⟩

/-- A cancellation between the check at the start of `execute` and the completion: the consumer
on the list runs, and the wait reports a cancellation. -/
theorem cancelled_while_running : ∃ c,
    Reach exec (fun _ _ => True) (start [] .returns [[.consume, .wait], [.cancel]]) c ∧
    c.mem.ran = [true] ∧ c.mem.reported = [some .userCancelled] ∧ ¬ Agreed c.mem := by
  obtain ⟨c, hreach, hc⟩ := Reach.exists_of_run exec
    (start [] .returns [[.consume, .wait], [.cancel]])
    (rounds [(1, 1), (0, 1), (3, 1), (2, 2), (3, 6), (1, 3)])
    (fun c => decide (c.mem.ran = [true] ∧ c.mem.reported = [some .userCancelled]))
    (by decide)
  obtain ⟨hran, hreported⟩ := of_decide_eq_true hc
  refine ⟨c, hreach, hran, hreported, ?_⟩
  rintro (⟨-, hnone⟩ | ⟨f, hfalse, -⟩)
  · rw [hreported] at hnone
    cases hnone _ List.mem_cons_self
  · rw [hran] at hfalse
    cases hfalse true List.mem_cons_self

end Oox.Cancellation
