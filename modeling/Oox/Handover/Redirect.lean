import Oox.Handover.Deferred

/-!
# The readers of a deferred var and its first writer

The ledger counts, for each reader, where its arc is, which unit of which count and which charge
of which slot it stands for; every step keeps it.
-/

set_option autoImplicit false

namespace Oox.Deferred

open Library

/-! ## The protocol -/

/-- How many of these arcs a reader has. -/
def countOf (r : ℕ) (l : List ReaderArc) : ℕ := l.countP fun a => a.reader = r

@[simp] theorem countOf_nil (r : ℕ) : countOf r [] = 0 := rfl

@[simp] theorem countOf_cons (r : ℕ) (a : ReaderArc) (l : List ReaderArc) :
    countOf r (a :: l) = countOf r l + if a.reader = r then 1 else 0 := by
  simp [countOf, List.countP_cons]

/-- How many of these arcs name a slot. -/
def countAt (q : ℕ) (l : List ReaderArc) : ℕ := l.countP fun a => a.port = q

@[simp] theorem countAt_nil (q : ℕ) : countAt q [] = 0 := rfl

@[simp] theorem countAt_cons (q : ℕ) (a : ReaderArc) (l : List ReaderArc) :
    countAt q (a :: l) = countAt q l + if a.port = q then 1 else 0 := by
  simp [countAt, List.countP_cons]

def arcsOf (l : List Entry) : List ReaderArc := l.filterMap Entry.arc?

@[simp] theorem arcsOf_nil : arcsOf [] = [] := rfl

@[simp] theorem arcsOf_arc (a : ReaderArc) (l : List Entry) : arcsOf (.arc a :: l) = a :: arcsOf l :=
  rfl

@[simp] theorem arcsOf_signal (l : List Entry) : arcsOf (.signal :: l) = arcsOf l := rfl

def Mem.deferredArcs (m : Mem) : List ReaderArc := m.deferred.getD []

def Mem.headArcs (m : Mem) : List ReaderArc := arcsOf (m.head.getD [])

inductive Right where
  /-- a unit of the count of a task. -/
  | start (t : Who)
  /-- a reader's dependency, from `assign_prerequisite` until the writer's completion is passed
  on to it. -/
  | dependency (r : ℕ)
  /-- to become dependent on the writer. -/
  | pending (r : ℕ)
  /-- to be charged to a slot of the writer. -/
  | charge (r : ℕ)
  /-- a unit of the countdown of a slot of the writer. -/
  | unit (q : ℕ)
  /-- to exchange the deferred node's list for the redirect. -/
  | redirect
  /-- to hand the deferred node's slot over. -/
  | handover
  /-- to run and complete the writer. -/
  | complete
  deriving DecidableEq, Repr

namespace Instr

/-- The reader that is still in `assign_prerequisite`, and how many other prerequisites it has. -/
@[simp] def assigns : Instr → Option (ℕ × ℕ)
  | .assign r k => some (r, k)
  | .assignWriter r k => some (r, k)
  | .lateCheck r k => some (r, k)
  | .increment r k => some (r, k)
  | .publishFailure a (some k) => some (a.reader, k)
  | _ => none

/-- The reader that is about to lose its prerequisite. -/
@[simp] def notifies : Instr → Option ℕ
  | .notifyReader r => some r
  | .publishFailure a none => some a.reader
  | _ => none

/-- The arcs taken off a list. -/
@[simp] def arcs : Instr → List ReaderArc
  | .moveArcs r => r
  | .notifyLoad l _ => arcsOf l
  | .notifyArcs l _ _ => arcsOf l
  | _ => []

/-- The units of a count that are not a reader's dependency. -/
@[simp] def removes : Instr → Who → ℕ
  | .removePrerequisite t n, u => if t = u then n else 0
  | .other t _, u => if t = u then 1 else 0
  | .setNextWriter, u => if u = .writer then 1 else 0
  | .removeBackArc, u => if u = .writer then 1 else 0
  | _, _ => 0

@[simp] def completes : Instr → Bool
  | .execute => true
  | .storeCountdown _ _ => true
  | .closeList _ => true
  | .notifyLoad _ _ => true
  | .notifyArcs _ _ _ => true
  | .notifyOut _ => true
  | _ => false

@[simp] def handsOver : Instr → Bool
  | .setNextWriter => true
  | .removeBackArc => true
  | _ => false

@[simp] def moves : Instr → Bool
  | .redirect => true
  | .moveArcs _ => true
  | _ => false

/-- Whether the reader `r` is in `assign_prerequisite`. -/
def assigning (ins : Instr) (r : ℕ) : ℕ :=
  match ins.assigns with
  | some (x, _) => if x = r then 1 else 0
  | none => 0

/-- A reader that has not been published, and how many other prerequisites it has. -/
@[simp] def unpublished : Instr → Option (ℕ × ℕ)
  | .addBackArc a k => some (a.reader, k)
  | ins => ins.assigns

/-- The units its guard will give back. -/
def guarded (ins : Instr) (r : ℕ) : ℕ :=
  match ins.unpublished with
  | some (x, k) => if x = r then guard - k else 0
  | none => 0

def notifying (ins : Instr) (r : ℕ) : ℕ := if ins.notifies = some r then 1 else 0

end Instr

def tokens (ins : Instr) : Right → ℤ
  | .start .writer => ins.removes .writer
  | .start (.reader r) =>
    (ins.removes (.reader r) + ins.guarded r + countOf r ins.arcs + ins.notifying r : ℕ)
  | .dependency r => (ins.assigning r + countOf r ins.arcs + ins.notifying r : ℕ)
  | .pending r =>
    (ins.assigning r + (match ins with | .moveArcs l => countOf r l | _ => 0) : ℕ)
  | .charge r =>
    (ins.assigning r + countOf r ins.arcs +
      (match ins with | .addBackArc a _ => if a.reader = r then 1 else 0 | _ => 0) : ℕ)
  | .unit q => (match ins with | .addBackArc a _ => if a.port = q then 1 else 0 | _ => 0 : ℕ)
  | .redirect => if ins = .redirect then 1 else 0
  | .handover => if ins.handsOver then 1 else 0
  | .complete => if ins.completes then 1 else 0

/-- What each reader owes at most once. -/
def Mem.expected (m : Mem) (r : ℕ) : ℤ := if r < m.readers then 1 else 0

def balance (m : Mem) : Right → ℤ
  | .start .writer => -(m.word .writer).count
  | .start (.reader r) =>
    countOf r m.deferredArcs + countOf r m.headArcs - (m.word (.reader r)).count
  | .dependency r =>
    countOf r m.deferredArcs + countOf r m.headArcs + m.settled r - m.expected r
  | .pending r => countOf r m.deferredArcs + m.depends r - m.expected r
  | .charge r =>
    countOf r m.deferredArcs + countOf r m.headArcs + countOf r m.back - m.expected r
  | .unit q =>
    let o := m.out q
    if o.armed then countAt q m.back + (if o.handed then 1 else m.count q) - o.countdown else 0
  | .redirect => if m.deferred.isSome then -1 else 0
  | .handover => if m.slot.countdown = 0 then 0 else -1
  | .complete => m.finished - m.dispatched .writer

/-- The writer has failed. -/
def Mem.failed (m : Mem) : Bool := (m.word .writer).failed

/-- The writer is dispatched and has not completed. -/
def Running (m : Mem) : Prop :=
  (m.word .writer).count = 0 ∧ m.head ≠ none ∧ ∀ q, (m.out q).handed = false

/-- What a thread that notifies the arcs of `l` relies on. -/
def Notifying (m : Mem) (l : List Entry) (canThrow : Bool) : Prop :=
  m.head = none ∧ (∀ q, (m.out q).handed = false) ∧ canThrow = m.failed ∧
    (∀ a, .arc a ∈ l → a.port = m.port) ∧ (canThrow = false → .signal ∉ l)

/-- What an instruction relies on. -/
def Fact (m : Mem) : Instr → Prop
  | .setNextWriter => m.slot = { nextWriter := .ready }
  | .removeBackArc => m.slot = { nextWriter := .node 0 }
  | .removePrerequisite _ n => 0 < n
  | .execute => Running m ∧ ∀ q, (m.out q).armed = false
  | .storeCountdown i canThrow =>
    Running m ∧ i ≤ m.slots ∧ (∀ q, (m.out q).armed = decide (q < i)) ∧ canThrow = m.failed
  | .closeList canThrow =>
    Running m ∧ (∀ q, (m.out q).armed = decide (q < m.slots)) ∧ canThrow = m.failed
  | .notifyLoad l canThrow => Notifying m l canThrow
  | .notifyArcs l canThrow failed => Notifying m l canThrow ∧ failed = m.failed
  | .notifyOut i => m.head = none ∧ i ≤ m.slots ∧ ∀ q, (m.out q).handed = decide (q < i)
  | .notifyReader r => m.head = none ∧ m.received r = m.failed
  | .assign _ k => k + 1 < guard
  | .assignWriter _ k => k + 1 < guard
  | .lateCheck _ k => k + 1 < guard ∧ m.head = none
  | .increment r k => k + 1 < guard ∧ m.head = none ∧ m.received r = m.failed
  | .addBackArc a k => k + 1 < guard ∧ a.port = m.port ∧ m.head = none
  | .publishFailure a late => (∀ k, late = some k → k + 1 < guard) ∧ m.head = none ∧
    a.port = m.port ∧ m.failed = true
  | _ => True

/-- While the deferred arcs are moved, the guard of the writer is on the stack. -/
def Relies (m : Mem) (ins : Instr) (rest : List Instr) : Prop :=
  Fact m ins ∧ (ins.moves = true → ∃ n, 0 < n ∧ Instr.removePrerequisite .writer n ∈ rest)

structure MemOk (m : Mem) : Prop where
  port : 0 < m.port ∧ m.port < m.slots
  flag : (m.word .writer).failureFlag = m.failed
  signal : ∀ l, m.head = some l → .signal ∈ l → m.failed = true
  headPort : ∀ l a, m.head = some l → .arc a ∈ l → a.port = m.port
  backPort : ∀ a ∈ m.back, a.port = m.port
  closed : m.head = none →
    (m.word .writer).count = 0 ∧ ∀ q, (m.out q).armed = decide (q < m.slots)
  writer : m.dispatched .writer = if (m.word .writer).count = 0 then 1 else 0
  reader : ∀ r, m.dispatched (.reader r) =
    if r < m.readers ∧ (m.word (.reader r)).count = 0 then 1 else 0
  idle : ∀ r, m.readers ≤ r → (m.word (.reader r)).count = 0
  untouched : (m.word .writer).count ≠ 0 →
    ∀ q, (m.out q).armed = false ∧ (m.out q).handed = false
  fresh : m.head ≠ none → m.back = []
  unarmed : ∀ q, (m.out q).armed = false → (m.out q).countdown = 1
  next : ∀ q, (m.out q).handed = false → (m.out q).nextWriter = .null
  count : ∀ q, (m.out q).armed = true → countdownBias ≤ m.count q + countAt q m.back
  settled : ∀ r, 0 < m.settled r → m.head = none ∧ m.received r = m.failed
  finished : 0 < m.finished → m.head = none ∧ ∀ q, (m.out q).armed = (m.out q).handed
  received : ∀ r, m.received r = true →
    m.head = none ∧ m.failed = true ∧ (m.word (.reader r)).dependencyCancelled = true

def protocol : Protocol Mem Instr Right where
  balance := balance
  tokens := tokens
  memory := MemOk
  relies := Relies
  tokens_nonneg ins k := by
    cases k with
    | start t => cases t <;> exact Int.natCast_nonneg _
    | dependency r => exact Int.natCast_nonneg _
    | pending r => exact Int.natCast_nonneg _
    | charge r => exact Int.natCast_nonneg _
    | unit q => exact Int.natCast_nonneg _
    | _ =>
      simp only [tokens]
      split_ifs <;> omega

/-! ## Steps -/

section Steps

variable {m m' : Mem} {ins : Instr} {rest push : List Instr} {spawned : List (List Instr)}

theorem not_completes_of_together {other : Instr} (h : MemOk m) (hother : other.completes = true)
    (hwith : Together balance tokens m ins other) : ins.completes = false := by
  have hk := hwith .complete
  by_contra hins
  rw [Bool.not_eq_false] at hins
  have hwriter := h.writer
  simp only [tokens, hins, hother, if_true, balance] at hk
  split_ifs at hwriter <;> omega

/-- What a step must leave alone for the sake of the other threads. -/
structure Frame (m m' : Mem) (ins : Instr) : Prop where
  slots : m'.slots = m.slots
  port : m'.port = m.port
  closed : m.head = none → m'.head = none ∧ m'.word .writer = m.word .writer
  complete : ins.completes = false → (m.head ≠ none → m'.head ≠ none) ∧
    (∀ q, (m'.out q).armed = (m.out q).armed) ∧ (∀ q, (m'.out q).handed = (m.out q).handed) ∧
    ((m.word .writer).count = 0 → m'.word .writer = m.word .writer)
  received : ∀ r, tokens ins (.dependency r) = 0 → m'.received r = m.received r
  slot : ins.handsOver = false → m'.slot = m.slot

theorem Frame.running (hframe : Frame m m' ins) (hins : ins.completes = false)
    (h : Running m) : Running m' ∧ m'.failed = m.failed := by
  obtain ⟨hhead, -, hhanded, hword⟩ := hframe.complete hins
  have hsame := hword h.1
  refine ⟨⟨by rw [hsame]; exact h.1, hhead h.2.1, fun q => (hhanded q).trans (h.2.2 q)⟩, ?_⟩
  simp only [Mem.failed, hsame]

theorem Frame.failed (hframe : Frame m m' ins) (hclosed : m.head = none) : m'.failed = m.failed := by
  simp only [Mem.failed, (hframe.closed hclosed).2]

theorem Frame.notifying (hframe : Frame m m' ins) (hins : ins.completes = false) {l : List Entry}
    {canThrow : Bool} (h : Notifying m l canThrow) : Notifying m' l canThrow := by
  obtain ⟨hclosed, hhanded, hthrow, hport, hsignal⟩ := h
  refine ⟨(hframe.closed hclosed).1, ?_, ?_, ?_, hsignal⟩
  · exact fun q => ((hframe.complete hins).2.2.1 q).trans (hhanded q)
  · rw [hframe.failed hclosed]
    exact hthrow
  · rw [hframe.port]
    exact hport

/-- A reader's failure is published by one thread. -/
theorem Frame.received_eq (hframe : Frame m m' ins) {other : Instr} {r : ℕ}
    (hother : 1 ≤ tokens other (.dependency r)) (hwith : Together balance tokens m ins other) :
    m'.received r = m.received r := by
  apply hframe.received
  have hk := hwith (.dependency r)
  have hpos : 0 ≤ tokens ins (.dependency r) := Int.natCast_nonneg _
  simp only [balance, Mem.expected] at hk
  split_ifs at hk <;> omega

theorem Frame.stable (hframe : Frame m m' ins) (hok : MemOk m) {other : Instr} (h : Fact m other)
    (hwith : Together balance tokens m ins other) : Fact m' other := by
  have hcomplete : other.completes = true → ins.completes = false :=
    fun hother => not_completes_of_together hok hother hwith
  have hslot : other.handsOver = true → m'.slot = m.slot := by
    intro hother
    apply hframe.slot
    have hk := hwith .handover
    by_contra hins
    rw [Bool.not_eq_false] at hins
    simp only [tokens, hins, hother, if_true, balance] at hk
    split_ifs at hk <;> omega
  cases other with
  | setNextWriter => exact (hslot rfl).trans h
  | removeBackArc => exact (hslot rfl).trans h
  | execute =>
    have hins := hcomplete rfl
    exact ⟨(hframe.running hins h.1).1, fun q => ((hframe.complete hins).2.1 q).trans (h.2 q)⟩
  | storeCountdown i canThrow =>
    have hins := hcomplete rfl
    obtain ⟨hrunning, hle, harmed, hthrow⟩ := h
    obtain ⟨hrunning', hfailed⟩ := hframe.running hins hrunning
    exact ⟨hrunning', by rw [hframe.slots]; exact hle,
      fun q => ((hframe.complete hins).2.1 q).trans (harmed q), by rw [hfailed]; exact hthrow⟩
  | closeList canThrow =>
    have hins := hcomplete rfl
    obtain ⟨hrunning, harmed, hthrow⟩ := h
    obtain ⟨hrunning', hfailed⟩ := hframe.running hins hrunning
    refine ⟨hrunning', fun q => ((hframe.complete hins).2.1 q).trans ?_, by rw [hfailed]; exact hthrow⟩
    rw [hframe.slots]
    exact harmed q
  | notifyLoad l canThrow => exact hframe.notifying (hcomplete rfl) h
  | notifyArcs l canThrow failed =>
    exact ⟨hframe.notifying (hcomplete rfl) h.1, by rw [hframe.failed h.1.1]; exact h.2⟩
  | notifyOut i =>
    refine ⟨(hframe.closed h.1).1, by rw [hframe.slots]; exact h.2.1, fun q => ?_⟩
    exact ((hframe.complete (hcomplete rfl)).2.2.1 q).trans (h.2.2 q)
  | notifyReader r =>
    refine ⟨(hframe.closed h.1).1, ?_⟩
    rw [hframe.received_eq (by simp [tokens, Instr.assigning, Instr.notifying]) hwith,
      hframe.failed h.1]
    exact h.2
  | lateCheck r k => exact ⟨h.1, (hframe.closed h.2).1⟩
  | increment r k =>
    refine ⟨h.1, (hframe.closed h.2.1).1, ?_⟩
    rw [hframe.received_eq (by simp [tokens, Instr.assigning, Instr.notifying]) hwith,
      hframe.failed h.2.1]
    exact h.2.2
  | addBackArc a k => exact ⟨h.1, h.2.1.trans hframe.port.symm, (hframe.closed h.2.2).1⟩
  | publishFailure a late =>
    exact ⟨h.1, (hframe.closed h.2.1).1, h.2.2.1.trans hframe.port.symm,
      (hframe.failed h.2.1).trans h.2.2.2⟩
  | removePrerequisite t n => exact h
  | assign r k => exact h
  | assignWriter r k => exact h
  | _ => trivial

/-- A change of one slot leaves alone what it leaves alone in that slot. -/
theorem out_same {α : Type} (f : OutputNode → α) {i : ℕ} {o : OutputNode} (h : f o = f (m.out i))
    (q : ℕ) : f (if q = i then o else m.out q) = f (m.out q) := by
  split_ifs with hq
  · rw [hq, h]
  · rfl

theorem Relies.of_fact (h : Fact m ins) (hmoves : ins.moves = false) : Relies m ins rest := by
  refine ⟨h, fun hyes => ?_⟩
  rw [hmoves] at hyes
  cases hyes

/-- Instructions put on a stack in order. -/
theorem stackOk_append {l : List Instr} (hpush : ∀ x ∈ push, Relies m x l)
    (hrest : StackOk Relies m l) : StackOk Relies m (push ++ l) := by
  induction push with
  | nil => exact hrest
  | cons x push ih =>
    obtain ⟨hfact, hguard⟩ := hpush x List.mem_cons_self
    refine ⟨⟨hfact, fun hmoves => ?_⟩, ih fun y hy => hpush y (List.mem_cons_of_mem _ hy)⟩
    obtain ⟨n, hn, hmem⟩ := hguard hmoves
    exact ⟨n, hn, List.mem_append_right push hmem⟩

/-- A step keeps the protocol when it keeps the memory in order, leaves alone what others rely
on, and pushes in order. -/
theorem Frame.keeps (hframe : Frame m m' ins) (h : protocol.Enters m ins rest) (hok : MemOk m')
    (hcons : Conserves balance tokens m ins m' push spawned)
    (hpush : ∀ x ∈ push, Relies m' x rest)
    (hspawned : ∀ l ∈ spawned, ∀ x ∈ l, Relies m' x []) :
    protocol.Keeps m ins rest m' push spawned where
  memory := hok
  conserves := hcons
  stable other _ hrelies hwith :=
    ⟨hframe.stable h.memory hrelies.1 (hwith other List.mem_cons_self), hrelies.2⟩
  push := stackOk_append hpush
  spawned l hl := by
    have h := stackOk_append (l := []) (hspawned l hl) trivial
    rwa [List.append_nil] at h

theorem frame_refl (m : Mem) (ins : Instr) : Frame m m ins where
  slots := rfl
  port := rfl
  closed h := ⟨h, rfl⟩
  complete _ := ⟨id, fun _ => rfl, fun _ => rfl, fun _ => rfl⟩
  received _ _ := rfl
  slot _ := rfl

/-- A step that only goes on to an instruction with the same rights. -/
theorem goto_keeps {next : Instr} (h : protocol.Enters m ins rest)
    (hsame : ∀ k, tokens next k = tokens ins k) (hrelies : Relies m next rest) :
    protocol.Keeps m ins rest m [next] [] :=
  (frame_refl m ins).keeps h h.memory (fun k => by simp [hsame k])
    (fun x hx => by rw [List.mem_singleton.mp hx]; exact hrelies) fun l hl => by cases hl

/-- A step that is the last of an instruction without rights. -/
theorem done_keeps (h : protocol.Enters m ins rest) (hnone : ∀ k, tokens ins k = 0) :
    protocol.Keeps m ins rest m [] [] :=
  (frame_refl m ins).keeps h h.memory (fun k => by simp [hnone k])
    (fun x hx => by cases hx) fun l hl => by cases hl

/-- An instruction that holds a unit of the writer's count finds it not yet dispatched. -/
theorem undispatched (h : protocol.Enters m ins rest) {n : ℕ} (hn : 0 < n)
    (hheld : ins.removes .writer = n ∨ Instr.removePrerequisite .writer n ∈ rest) :
    (m.word .writer).count ≠ 0 ∧ m.head ≠ none := by
  have hpos : (m.word .writer).count ≠ 0 := by
    intro hzero
    rcases hheld with hins | hrest
    · have hk : tokens ins (.start .writer) ≤ -balance m (.start .writer) :=
        h.covered (.start .writer)
      simp only [tokens, balance, hins, hzero] at hk
      omega
    · have hk : tokens ins (.start .writer) +
          tokens (.removePrerequisite .writer n) (.start .writer) ≤
          -balance m (.start .writer) :=
        h.covered_below hrest (.start .writer)
      simp only [tokens, balance, Instr.removes, if_true, hzero] at hk
      omega
  exact ⟨hpos, fun hclosed => hpos (h.memory.closed hclosed).1⟩

/-! ### set_next_writer -/

theorem redirect_keeps (h : protocol.Enters m .redirect rest)
    (hstep : redirect m = .next m' push spawned) :
    protocol.Keeps m .redirect rest m' push spawned := by
  have hopen : m.deferred.isSome = true := by
    have hk : tokens .redirect .redirect ≤ -balance m .redirect := h.covered .redirect
    by_contra hno
    simp [tokens, balance, hno] at hk
  cases hstep
  refine Frame.keeps ?_ h ?_ (fun k => ?_) (fun x hx => ?_) fun l hl => by cases hl
  · exact { frame_refl m .redirect with closed := fun hc => ⟨hc, rfl⟩ }
  · exact { h.memory with closed := h.memory.closed }
  · cases k with
    | start t =>
      cases t with
      | writer => simp [balance, tokens]
      | reader x =>
        simp [balance, tokens, Instr.guarded, Instr.notifying, Mem.deferredArcs, Mem.headArcs]
        omega
    | redirect => simp [balance, tokens, hopen]
    | _ => simp [balance, tokens, Instr.assigning, Instr.notifying, Mem.deferredArcs,
        Mem.headArcs, Mem.expected] <;> omega
  · obtain rfl := List.mem_singleton.mp hx
    exact ⟨trivial, fun _ => h.relies.2 rfl⟩

theorem moveArcs_keeps {r : List ReaderArc} (h : protocol.Enters m (.moveArcs r) rest)
    (hstep : moveArcs m r = .next m' push spawned) :
    protocol.Keeps m (.moveArcs r) rest m' push spawned := by
  cases r with
  | nil =>
    cases hstep
    exact done_keeps h fun k => by
      cases k with
      | start t => cases t <;> simp [tokens, Instr.guarded, Instr.notifying]
      | _ => simp [tokens, Instr.assigning, Instr.notifying]
  | cons a r =>
    obtain ⟨n, hn, hmem⟩ := h.relies.2 rfl
    obtain ⟨hcount, hopen⟩ := undispatched h hn (.inr hmem)
    unfold moveArcs at hstep
    dsimp only at hstep
    split at hstep
    · rename_i l hl
      cases hstep
      refine Frame.keeps ?_ h ?_ (fun k => ?_) (fun x hx => ?_) fun l hl => by cases hl
      · exact
          { frame_refl m (.moveArcs (a :: r)) with
            closed := fun hc => absurd hc hopen
            complete := fun _ => ⟨fun _ hno => (by cases hno), fun _ => rfl, fun _ => rfl, fun _ => rfl⟩ }
      · exact
          { h.memory with
            signal := fun l' heq hmem => by
              cases heq
              rcases List.mem_cons.mp hmem with heq | hmem
              · cases heq
              · exact h.memory.signal l hl hmem
            headPort := fun l' b heq hmem => by
              cases heq
              rcases List.mem_cons.mp hmem with heq | hmem
              · cases heq
                rfl
              · exact h.memory.headPort l b hl hmem
            closed := fun hno => by cases hno
            fresh := fun _ => h.memory.fresh hopen
            settled := fun x hx => absurd (h.memory.settled x hx).1 hopen
            finished := fun hf => absurd (h.memory.finished hf).1 hopen
            received := fun x hx => absurd (h.memory.received x hx).1 hopen }
      · cases k with
        | start t =>
          cases t with
          | writer => simp [balance, tokens]
          | reader x =>
            simp [balance, tokens, Instr.guarded, Instr.notifying, Mem.deferredArcs, Mem.headArcs,
              hl]
            omega
        | pending x =>
          simp only [balance, tokens, Instr.assigning, Instr.assigns, Mem.deferredArcs, Mem.expected,
            bump, countOf_cons, stackSum_cons, stackSum_nil, threadSum_nil, eq_comm (a := x)]
          push_cast
          split_ifs
          all_goals omega
        | _ => simp [balance, tokens, Instr.assigning, Instr.notifying, Mem.deferredArcs,
            Mem.headArcs, Mem.expected, hl] <;> omega
      · obtain rfl := List.mem_singleton.mp hx
        exact ⟨trivial, fun _ => ⟨n, hn, hmem⟩⟩
    · cases hstep

theorem setNextWriter_keeps (h : protocol.Enters m .setNextWriter rest)
    (hstep : setNextWriter m = .next m' push spawned) :
    protocol.Keeps m .setNextWriter rest m' push spawned := by
  have hslot : m.slot = { nextWriter := .ready } := h.relies.1
  rw [setNextWriter_eq] at hstep
  rw [hslot] at hstep
  cases hstep
  refine Frame.keeps ?_ h ?_ (fun k => ?_) (fun x hx => ?_) fun l hl => by cases hl
  · exact
      { frame_refl m .setNextWriter with
        closed := fun hc => ⟨hc, rfl⟩
        slot := fun hno => by cases hno }
  · exact { h.memory with closed := h.memory.closed }
  · cases k with
    | start t => cases t <;> simp [balance, tokens, Instr.guarded, Instr.notifying,
        Mem.deferredArcs, Mem.headArcs]
    | _ => simp [balance, tokens, Instr.assigning, Instr.notifying, Mem.deferredArcs,
        Mem.headArcs, Mem.expected, hslot]
  · obtain rfl := List.mem_singleton.mp hx
    exact Relies.of_fact rfl rfl

theorem removeBackArc_keeps (h : protocol.Enters m .removeBackArc rest)
    (hstep : removeBackArc m = .next m' push spawned) :
    protocol.Keeps m .removeBackArc rest m' push spawned := by
  have hslot : m.slot = { nextWriter := .node 0 } := h.relies.1
  unfold removeBackArc at hstep
  rw [hslot] at hstep
  cases hstep
  refine Frame.keeps ?_ h ?_ (fun k => ?_) (fun x hx => ?_) fun l hl => by cases hl
  · exact
      { frame_refl m .removeBackArc with
        closed := fun hc => ⟨hc, rfl⟩
        slot := fun hno => by cases hno }
  · exact { h.memory with closed := h.memory.closed }
  · cases k with
    | start t => cases t <;> simp [balance, tokens, Instr.guarded, Instr.notifying,
        Mem.deferredArcs, Mem.headArcs]
    | _ => simp [balance, tokens, Instr.assigning, Instr.notifying, Mem.deferredArcs,
        Mem.headArcs, Mem.expected, hslot]
  · obtain rfl := List.mem_singleton.mp hx
    exact Relies.of_fact Nat.one_pos rfl

/-! ### remove_prerequisite -/

theorem removeReader_cases {r n : ℕ}
    (hstep : removePrerequisite m (.reader r) n = .next m' push spawned) :
    n ≤ (m.word (.reader r)).count ∧ push = [] ∧ spawned = [] ∧
    m' = { m.setWord (.reader r) { m.word (.reader r) with count := (m.word (.reader r)).count - n }
      with dispatched := if (m.word (.reader r)).count = n then bump m.dispatched (.reader r)
        else m.dispatched } := by
  rw [removePrerequisite_eq] at hstep
  dsimp only at hstep
  split at hstep
  · cases hstep
  · rename_i hle
    split at hstep
    · rename_i heq
      cases hstep
      exact ⟨by omega, rfl, rfl, by rw [if_pos heq]; rfl⟩
    · rename_i hne
      cases hstep
      exact ⟨by omega, rfl, rfl, by rw [if_neg hne]; rfl⟩

/-- A removal from the count of a reader, together with what it says of the history. -/
theorem removeReader_keeps (s : ℕ → ℕ) {r n : ℕ} (h : protocol.Enters m ins rest) (hn : 0 < n)
    (hheld : tokens ins (.start (.reader r)) = n)
    (hother : ∀ k, k ≠ .start (.reader r) → balance { m with settled := s } k =
      balance m k + tokens ins k)
    (hsettled : ∀ x, 0 < s x → m.head = none ∧ m.received x = m.failed)
    (hstep : removePrerequisite { m with settled := s } (.reader r) n = .next m' push spawned) :
    protocol.Keeps m ins rest m' push spawned := by
  obtain ⟨hle, rfl, rfl, rfl⟩ := removeReader_cases hstep
  dsimp only [Mem.setWord] at hle ⊢
  have hlive : r < m.readers := by
    by_contra hno
    have hzero := h.memory.idle r (by omega)
    omega
  refine Frame.keeps ?_ h ?_ (fun k => ?_) (fun x hx => by cases hx) fun l hl => by cases hl
  · exact
      { slots := rfl
        port := rfl
        closed := fun hc => ⟨hc, rfl⟩
        complete := fun _ => ⟨id, fun _ => rfl, fun _ => rfl, fun _ => rfl⟩
        received := fun _ _ => rfl
        slot := fun _ => rfl }
  · exact
      { port := h.memory.port
        flag := h.memory.flag
        signal := h.memory.signal
        headPort := h.memory.headPort
        backPort := h.memory.backPort
        closed := h.memory.closed
        writer := by
          have hwriter := h.memory.writer
          dsimp only
          split_ifs <;> simp_all [bump]
        reader := fun x => by
          have hreader := h.memory.reader x
          by_cases hx : x = r
          · subst hx
            dsimp only
            split_ifs at hreader ⊢ <;> simp_all [bump]
            omega
          · dsimp only
            split_ifs at hreader ⊢ <;> simp_all [bump]
        idle := fun x hx => by
          have hidle := h.memory.idle x hx
          dsimp only
          split_ifs with heq
          · cases heq
            omega
          · exact hidle
        untouched := h.memory.untouched
        fresh := h.memory.fresh
        unarmed := h.memory.unarmed
        next := h.memory.next
        count := h.memory.count
        settled := hsettled
        finished := h.memory.finished
        received := fun x hx => by
          obtain ⟨hclosed, hfailed, hcancelled⟩ := h.memory.received x hx
          refine ⟨hclosed, hfailed, ?_⟩
          dsimp only
          split_ifs with heq
          · cases heq
            exact hcancelled
          · exact hcancelled }
  · by_cases hk : k = .start (.reader r)
    · subst hk
      simp only [balance, hheld, Mem.deferredArcs, Mem.headArcs, if_true, stackSum_nil,
        threadSum_nil]
      omega
    · rw [← hother k hk, stackSum_nil, threadSum_nil, add_zero, add_zero]
      cases k with
      | start t =>
        cases t with
        | writer => rfl
        | reader x =>
          have hne : Who.reader x ≠ Who.reader r := fun heq => hk (by rw [heq])
          simp only [balance, if_neg hne]
          rfl
      | complete =>
        simp only [balance]
        split_ifs <;> simp [bump]
      | _ => rfl

theorem removePrerequisite_reader_keeps {r n : ℕ}
    (h : protocol.Enters m (.removePrerequisite (.reader r) n) rest)
    (hstep : removePrerequisite m (.reader r) n = .next m' push spawned) :
    protocol.Keeps m (.removePrerequisite (.reader r) n) rest m' push spawned := by
  refine removeReader_keeps m.settled h h.relies.1 ?_ (fun k hk => ?_) h.memory.settled hstep
  · simp [tokens, Instr.guarded, Instr.notifying]
  · cases k with
    | start t =>
      cases t with
      | writer => simp [balance, tokens]
      | reader x =>
        have hne : r ≠ x := fun heq => hk (by rw [heq])
        simp [balance, tokens, Instr.guarded, Instr.notifying, Mem.deferredArcs, Mem.headArcs, hne]
    | _ => simp [balance, tokens, Instr.assigning, Instr.notifying, Mem.deferredArcs,
        Mem.headArcs, Mem.expected]

theorem notifyReader_keeps {r : ℕ} (h : protocol.Enters m (.notifyReader r) rest)
    (hstep : notifyReader m r = .next m' push spawned) :
    protocol.Keeps m (.notifyReader r) rest m' push spawned := by
  refine removeReader_keeps (bump m.settled r) h Nat.one_pos ?_ (fun k hk => ?_) (fun x hx => ?_)
    hstep
  · simp [tokens, Instr.guarded, Instr.notifying]
  · cases k with
    | start t =>
      cases t with
      | writer => simp [balance, tokens]
      | reader x =>
        have hne : r ≠ x := fun heq => hk (by rw [heq])
        simp [balance, tokens, Instr.guarded, Instr.notifying, Mem.deferredArcs, Mem.headArcs, hne]
    | dependency x =>
      simp only [balance, tokens, bump, Instr.assigning, Instr.notifying, Instr.assigns,
        Instr.notifies, Instr.arcs, countOf_nil, Option.some.injEq, Mem.deferredArcs, Mem.headArcs,
        Mem.expected, eq_comm (a := r)]
      push_cast
      split_ifs
      all_goals
        push_cast
        omega
    | _ => simp [balance, tokens, Instr.assigning, Mem.deferredArcs, Mem.headArcs, Mem.expected]
  · unfold bump at hx
    split_ifs at hx with heq
    · subst heq
      exact h.relies.1
    · exact h.memory.settled x hx

theorem removePrerequisite_writer_keeps {n : ℕ}
    (h : protocol.Enters m (.removePrerequisite .writer n) rest)
    (hstep : removePrerequisite m .writer n = .next m' push spawned) :
    protocol.Keeps m (.removePrerequisite .writer n) rest m' push spawned := by
  have hn : 0 < n := h.relies.1
  obtain ⟨hcount, hopen⟩ := undispatched h hn (.inl (by simp))
  have huntouched := h.memory.untouched hcount
  have hwriter := h.memory.writer
  rw [if_neg hcount] at hwriter
  -- what the memory satisfies afterwards, with or without a dispatch
  have hok : ∀ d : Who → ℕ, n ≤ (m.word .writer).count →
      d .writer = (if (m.word .writer).count = n then 1 else 0) →
      (∀ r, d (.reader r) = m.dispatched (.reader r)) →
      MemOk { m.setWord .writer { m.word .writer with count := (m.word .writer).count - n } with
        dispatched := d } := by
    intro d hle hd hr
    exact
      { port := h.memory.port
        flag := h.memory.flag
        signal := h.memory.signal
        headPort := h.memory.headPort
        backPort := h.memory.backPort
        closed := fun hc => absurd hc hopen
        writer := by
          dsimp only
          rw [hd]
          simp only [Mem.setWord, if_true]
          split_ifs <;> omega
        reader := fun x => by
          dsimp only
          rw [hr]
          exact h.memory.reader x
        idle := h.memory.idle
        untouched := fun _ => huntouched
        fresh := h.memory.fresh
        unarmed := h.memory.unarmed
        next := h.memory.next
        count := h.memory.count
        settled := fun x hx => absurd (h.memory.settled x hx).1 hopen
        finished := fun hf => absurd (h.memory.finished hf).1 hopen
        received := fun x hx => absurd (h.memory.received x hx).1 hopen }
  have hframe : ∀ d : Who → ℕ,
      Frame m { m.setWord .writer { m.word .writer with count := (m.word .writer).count - n } with
        dispatched := d } (.removePrerequisite .writer n) := fun d =>
    { slots := rfl
      port := rfl
      closed := fun hc => absurd hc hopen
      complete := fun _ => ⟨id, fun _ => rfl, fun _ => rfl, fun hzero => absurd hzero hcount⟩
      received := fun _ _ => rfl
      slot := fun _ => rfl }
  have hrunning : (m.word .writer).count = n →
      Running { m.setWord .writer { m.word .writer with count := (m.word .writer).count - n } with
        dispatched := bump m.dispatched .writer } := by
    intro heq
    refine ⟨?_, hopen, fun q => (huntouched q).2⟩
    simp only [Mem.setWord, if_true]
    omega
  rw [removePrerequisite_eq] at hstep
  dsimp only at hstep
  split at hstep
  · cases hstep
  · rename_i hle
    have hle' := Nat.le_of_not_lt hle
    split at hstep
    · rename_i heq
      have hd := hok (bump m.dispatched .writer) hle' (by rw [if_pos heq]; simp [bump, hwriter])
        fun r => by simp [bump]
      unfold dispatch at hstep
      dsimp only at hstep
      split at hstep
      · rename_i hskips
        cases hstep
        refine (hframe _).keeps h hd (fun k => ?_) (fun x hx => ?_) fun l hl => by cases hl
        · cases k with
          | start t =>
            cases t with
            | writer => simp [balance, tokens, heq, Mem.setWord]
            | reader x => simp [balance, tokens, Instr.guarded, Instr.notifying, Mem.deferredArcs,
                Mem.headArcs, Mem.setWord]
          | complete =>
            simp only [balance, tokens, bump, if_true, stackSum_cons, stackSum_nil,
              threadSum_nil, Instr.completes, Mem.setWord, Bool.false_eq_true, if_false]
            push_cast
            omega
          | _ => simp [balance, tokens, Instr.assigning, Instr.notifying, Mem.deferredArcs,
              Mem.headArcs, Mem.expected, Mem.setWord]
        · obtain rfl := List.mem_singleton.mp hx
          refine Relies.of_fact ⟨hrunning heq, Nat.zero_le _, fun q => ?_, ?_⟩ rfl
          · exact (huntouched q).1.trans (decide_eq_false (Nat.not_lt_zero q)).symm
          · simp only [StartCount.skips, Bool.or_eq_true] at hskips
            rcases hskips with hb | hb <;>
              simp [Mem.failed, StartCount.failed, Mem.setWord, hb]
      · cases hstep
        refine (hframe _).keeps h hd (fun k => ?_) (fun x hx => by cases hx) fun l hl x hx => ?_
        · cases k with
          | start t =>
            cases t with
            | writer => simp [balance, tokens, heq, Mem.setWord]
            | reader x => simp [balance, tokens, Instr.guarded, Instr.notifying, Mem.deferredArcs,
                Mem.headArcs, Mem.setWord]
          | complete =>
            simp only [balance, tokens, bump, if_true, stackSum_cons, stackSum_nil, threadSum_cons,
              threadSum_nil, Instr.completes, Mem.setWord, Bool.false_eq_true, if_false]
            push_cast
            omega
          | _ => simp [balance, tokens, Instr.assigning, Instr.notifying, Mem.deferredArcs,
              Mem.headArcs, Mem.expected, Mem.setWord]
        · obtain rfl := List.mem_singleton.mp hl
          obtain rfl := List.mem_singleton.mp hx
          exact Relies.of_fact ⟨hrunning heq, fun q => (huntouched q).1⟩ rfl
    · rename_i hne
      cases hstep
      have hd := hok m.dispatched hle' (by rw [if_neg hne]; exact hwriter) fun r => rfl
      refine (hframe m.dispatched).keeps h hd (fun k => ?_) (fun x hx => by cases hx)
        fun l hl => by cases hl
      cases k with
      | start t =>
        cases t with
        | writer =>
          simp only [balance, tokens, Mem.setWord, Instr.removes, if_true, stackSum_nil,
            threadSum_nil]
          omega
        | reader x => simp [balance, tokens, Instr.guarded, Instr.notifying, Mem.deferredArcs,
            Mem.headArcs, Mem.setWord]
      | _ => simp [balance, tokens, Instr.assigning, Instr.notifying, Mem.deferredArcs,
          Mem.headArcs, Mem.expected, Mem.setWord]

/-! ### The other prerequisites and the writer -/

theorem mark_failed (w : StartCount) (b : FailureBit) :
    (w.mark b).failed = true ∧ (w.mark b).failureFlag = true := by
  cases b <;> simp [StartCount.mark, StartCount.failed]

theorem mark_dependencyCancelled {w : StartCount} (h : w.dependencyCancelled = true)
    (b : FailureBit) : (w.mark b).dependencyCancelled = true := by
  cases b with
  | dependencyCancelled => rfl
  | userCancelled => exact h
  | exception => exact h

/-- A failure of the writer that is marked while its list is open, with a payload or without. -/
theorem memOk_mark {hd : Option (List Entry)} (h : MemOk m) (hopen : m.head ≠ none)
    (hopen' : hd ≠ none) (hport : ∀ l a, hd = some l → .arc a ∈ l → a.port = m.port)
    (b : FailureBit) :
    MemOk ({ m with head := hd }.setWord .writer ((m.word .writer).mark b)) where
  port := h.port
  flag := by
    simp only [Mem.failed, Mem.setWord, if_true, mark_failed]
  signal _ _ _ := by
    simp only [Mem.failed, Mem.setWord, if_true, mark_failed]
  headPort := hport
  backPort := h.backPort
  closed hc := absurd hc hopen'
  writer := by
    have hok := h.writer
    simp only [Mem.setWord, if_true, StartCount.mark_count]
    exact hok
  reader := h.reader
  idle := h.idle
  untouched hne := by
    simp only [Mem.setWord, if_true, StartCount.mark_count] at hne
    exact h.untouched hne
  fresh _ := h.fresh hopen
  unarmed := h.unarmed
  next := h.next
  count := h.count
  settled x hx := absurd (h.settled x hx).1 hopen
  finished hf := absurd (h.finished hf).1 hopen
  received x hx := absurd (h.received x hx).1 hopen

/-- The list of the writer with a payload marker on it has the same arcs. -/
theorem signal_headPort (h : MemOk m) :
    ∀ l a, m.head.map (.signal :: ·) = some l → Entry.arc a ∈ l → a.port = m.port := by
  intro l a hl ha
  obtain ⟨l₀, hl₀, rfl⟩ := Option.map_eq_some_iff.mp hl
  rcases List.mem_cons.mp ha with heq | hmem
  · cases heq
  · exact h.headPort l₀ a hl₀ hmem

theorem arcsOf_signal_getD (hd : Option (List Entry)) :
    arcsOf ((hd.map (.signal :: ·)).getD []) = arcsOf (hd.getD []) := by
  cases hd <;> rfl

theorem setWord_count (t : Who) {w : StartCount} (hcount : w.count = (m.word t).count) (u : Who) :
    ((m.setWord t w).word u).count = (m.word u).count := by
  simp only [Mem.setWord]
  split_ifs with hu
  · rw [hu, hcount]
  · rfl

/-- Marking a reader leaves everything but its failure bits. -/
theorem memOk_markReader (h : MemOk m) (r : ℕ) (b : FailureBit) :
    MemOk (m.setWord (.reader r) ((m.word (.reader r)).mark b)) where
  port := h.port
  flag := h.flag
  signal := h.signal
  headPort := h.headPort
  backPort := h.backPort
  closed := h.closed
  writer := h.writer
  reader x := by
    simp only [setWord_count _ (StartCount.mark_count _ b)]
    exact h.reader x
  idle x hx := by
    rw [setWord_count _ (StartCount.mark_count _ b)]
    exact h.idle x hx
  untouched := h.untouched
  fresh := h.fresh
  unarmed := h.unarmed
  next := h.next
  count := h.count
  settled := h.settled
  finished := h.finished
  received x hx := by
    obtain ⟨hclosed, hfailed, hcancelled⟩ := h.received x hx
    refine ⟨hclosed, hfailed, ?_⟩
    simp only [Mem.setWord]
    by_cases hx : Who.reader x = Who.reader r
    · rw [if_pos hx, ← hx]
      exact mark_dependencyCancelled hcancelled b
    · rw [if_neg hx]
      exact hcancelled

theorem tokens_other (t : Who) (failure : Option FailureBit) (k : Right) :
    tokens (.removePrerequisite t 1) k = tokens (.other t failure) k := by
  cases k with
  | start u => cases u <;> simp [tokens, Instr.guarded, Instr.notifying]
  | _ => simp [tokens, Instr.assigning, Instr.notifying]

/-- A mark changes no count. -/
theorem balance_setWord (t : Who) {w : StartCount} (hcount : w.count = (m.word t).count)
    (k : Right) : balance (m.setWord t w) k = balance m k := by
  cases k with
  | start u =>
    cases u with
    | writer => simp only [balance, setWord_count t hcount]
    | reader r =>
      simp only [balance, setWord_count t hcount]
      rfl
  | _ => rfl

/-- A payload marker is nobody's arc. -/
theorem balance_head {hd : Option (List Entry)} (harcs : arcsOf (hd.getD []) = m.headArcs)
    (k : Right) : balance { m with head := hd } k = balance m k := by
  cases k with
  | start u =>
    cases u with
    | writer => rfl
    | reader r =>
      simp only [balance, Mem.headArcs, harcs]
      rfl
  | dependency r =>
    simp only [balance, Mem.headArcs, harcs]
    rfl
  | charge r =>
    simp only [balance, Mem.headArcs, harcs]
    rfl
  | _ => rfl

theorem other_keeps {t : Who} {failure : Option FailureBit}
    (h : protocol.Enters m (.other t failure) rest)
    (hstep : other m t failure = .next m' push spawned) :
    protocol.Keeps m (.other t failure) rest m' push spawned := by
  cases failure with
  | none =>
    cases hstep
    exact goto_keeps h (tokens_other t none) (Relies.of_fact Nat.one_pos rfl)
  | some b =>
    cases t with
    | reader r =>
      cases hstep
      refine Frame.keeps ?_ h (memOk_markReader h.memory r b) (fun k => ?_) (fun x hx => ?_)
        fun l hl => by cases hl
      · exact
          { frame_refl m (.other (.reader r) (some b)) with
            closed := fun hc => ⟨hc, rfl⟩
            complete := fun _ => ⟨id, fun _ => rfl, fun _ => rfl, fun _ => rfl⟩ }
      · rw [stackSum_cons, stackSum_nil, threadSum_nil, tokens_other _ (some b), add_zero, add_zero]
        congr 1
        exact balance_setWord (.reader r) (StartCount.mark_count _ b) k
      · obtain rfl := List.mem_singleton.mp hx
        exact Relies.of_fact Nat.one_pos rfl
    | writer =>
      obtain ⟨hcount, hopen⟩ := undispatched h Nat.one_pos (.inl (by simp))
      obtain ⟨hd, hm, hopen', hport, harcs⟩ : ∃ hd,
          (if Who.writer = .writer ∧ b = .exception then
            { m with head := m.head.map (.signal :: ·) } else m) = { m with head := hd } ∧
          hd ≠ none ∧ (∀ l a, hd = some l → Entry.arc a ∈ l → a.port = m.port) ∧
          arcsOf (hd.getD []) = m.headArcs := by
        by_cases hb : b = .exception
        · refine ⟨m.head.map (.signal :: ·), if_pos ⟨rfl, hb⟩, ?_, signal_headPort h.memory,
            arcsOf_signal_getD m.head⟩
          rw [Ne, Option.map_eq_none_iff]
          exact hopen
        · exact ⟨m.head, if_neg fun hand => hb hand.2, hopen, h.memory.headPort, rfl⟩
      unfold other at hstep
      dsimp only at hstep
      rw [hm] at hstep
      cases hstep
      refine Frame.keeps ?_ h (memOk_mark h.memory hopen hopen' hport b) (fun k => ?_)
        (fun x hx => ?_) fun l hl => by cases hl
      · exact
          { slots := rfl
            port := rfl
            closed := fun hc => absurd hc hopen
            complete := fun _ => ⟨fun _ => hopen', fun _ => rfl, fun _ => rfl, fun hzero => absurd hzero hcount⟩
            received := fun _ _ => rfl
            slot := fun _ => rfl }
      · rw [stackSum_cons, stackSum_nil, threadSum_nil, tokens_other _ (some b), add_zero, add_zero,
          ← balance_head harcs]
        congr 1
        exact balance_setWord .writer (StartCount.mark_count _ b) k
      · obtain rfl := List.mem_singleton.mp hx
        exact Relies.of_fact Nat.one_pos rfl

/-- The rights of a thread that completes the writer and has no arcs in hand. -/
theorem tokens_complete {x : Instr} (hcompletes : x.completes = true) (harcs : x.arcs = [])
    (k : Right) : tokens x k = if k = .complete then 1 else 0 := by
  cases x with
  | execute => cases k with
    | start t => cases t <;> simp [tokens, Instr.guarded, Instr.notifying]
    | _ => simp [tokens, Instr.assigning, Instr.notifying]
  | storeCountdown i c => cases k with
    | start t => cases t <;> simp [tokens, Instr.guarded, Instr.notifying]
    | _ => simp [tokens, Instr.assigning, Instr.notifying]
  | closeList c => cases k with
    | start t => cases t <;> simp [tokens, Instr.guarded, Instr.notifying]
    | _ => simp [tokens, Instr.assigning, Instr.notifying]
  | notifyLoad l c => cases k with
    | start t => cases t <;> simp_all [tokens, Instr.guarded, Instr.notifying]
    | _ => simp_all [tokens, Instr.assigning, Instr.notifying]
  | notifyArcs l c f => cases k with
    | start t => cases t <;> simp_all [tokens, Instr.guarded, Instr.notifying]
    | _ => simp_all [tokens, Instr.assigning, Instr.notifying]
  | notifyOut i => cases k with
    | start t => cases t <;> simp [tokens, Instr.guarded, Instr.notifying]
    | _ => simp [tokens, Instr.assigning, Instr.notifying]
  | _ => cases hcompletes

theorem execute_keeps {choice : Bool} (h : protocol.Enters m .execute rest)
    (hstep : execute m choice = .next m' push spawned) :
    protocol.Keeps m .execute rest m' push spawned := by
  obtain ⟨hrunning, harmed⟩ := h.relies.1
  have hrights : ∀ c k, tokens (.storeCountdown 0 c) k = tokens .execute k := fun c k => by
    rw [tokens_complete rfl rfl, tokens_complete rfl rfl]
  have hnone : ∀ q, (m.out q).armed = decide (q < 0) := fun q =>
    (harmed q).trans (decide_eq_false (Nat.not_lt_zero q)).symm
  unfold execute at hstep
  split at hstep
  · rename_i hfailed
    cases hstep
    exact goto_keeps h (hrights true)
      (Relies.of_fact ⟨hrunning, Nat.zero_le _, hnone, hfailed.symm⟩ rfl)
  · rename_i hfine
    split at hstep
    · cases hstep
      have hopen : m.head.map (.signal :: ·) ≠ none := by
        rw [Ne, Option.map_eq_none_iff]
        exact hrunning.2.1
      have hok := memOk_mark h.memory hrunning.2.1 hopen (signal_headPort h.memory) .exception
      refine Frame.keeps ?_ h hok (fun k => ?_) (fun x hx => ?_) fun l hl => by cases hl
      · exact
          { slots := rfl
            port := rfl
            closed := fun hc => absurd hc hrunning.2.1
            complete := fun hno => by cases hno
            received := fun _ _ => rfl
            slot := fun _ => rfl }
      · rw [stackSum_cons, stackSum_nil, threadSum_nil, hrights, add_zero, add_zero,
          ← balance_head (arcsOf_signal_getD m.head)]
        congr 1
      · obtain rfl := List.mem_singleton.mp hx
        refine Relies.of_fact ⟨⟨?_, hopen, hrunning.2.2⟩, Nat.zero_le _, hnone, ?_⟩ rfl
        · rw [setWord_count _ (StartCount.mark_count _ .exception)]
          exact hrunning.1
        · simp only [Mem.failed, Mem.setWord, if_true, mark_failed]
    · cases hstep
      refine goto_keeps h (hrights false) (Relies.of_fact ⟨hrunning, Nat.zero_le _, hnone, ?_⟩ rfl)
      exact (Bool.eq_false_iff.mpr hfine).symm

theorem storeCountdown_keeps {i : ℕ} {canThrow : Bool}
    (h : protocol.Enters m (.storeCountdown i canThrow) rest)
    (hstep : storeCountdown m i canThrow = .next m' push spawned) :
    protocol.Keeps m (.storeCountdown i canThrow) rest m' push spawned := by
  obtain ⟨hrunning, hi, harmed, hthrow⟩ := h.relies.1
  have hunarmed : (m.out i).armed = false := (harmed i).trans (decide_eq_false (lt_irrefl i))
  have hback := h.memory.fresh hrunning.2.1
  unfold storeCountdown at hstep
  split at hstep
  · rename_i hlt
    cases hstep
    refine Frame.keeps ?_ h ?_ (fun k => ?_) (fun x hx => ?_) fun l hl => by cases hl
    · exact
        { slots := rfl
          port := rfl
          closed := fun hc => ⟨hc, rfl⟩
          complete := fun hno => by cases hno
          received := fun _ _ => rfl
          slot := fun _ => rfl }
    · exact
        { h.memory with
          closed := fun hc => absurd hc hrunning.2.1
          untouched := fun hne => absurd hrunning.1 hne
          finished := fun hf => absurd (h.memory.finished hf).1 hrunning.2.1
          unarmed := fun q hq => by
            dsimp only at hq ⊢
            split_ifs at hq ⊢
            · cases hq
            · exact h.memory.unarmed q hq
          next := fun q hq => by
            have hsame := (out_same OutputNode.handed (o := (m.out i).arm) rfl q).symm.trans hq
            exact (out_same OutputNode.nextWriter (o := (m.out i).arm) rfl q).trans
              (h.memory.next q hsame)
          count := fun q hq => by
            dsimp only at hq ⊢
            rw [hback]
            split_ifs at hq ⊢
            · simp
            · have hcount := h.memory.count q hq
              rwa [hback] at hcount }
    · cases k with
      | start t => cases t <;> simp [balance, tokens, Instr.guarded, Instr.notifying,
          Mem.deferredArcs, Mem.headArcs]
      | unit q =>
        have hunhanded := hrunning.2.2 q
        simp only [balance, tokens, stackSum_cons, stackSum_nil, threadSum_nil, hback, countAt_nil]
        by_cases hq : q = i
        · subst hq
          simp [OutputNode.arm, hunarmed, hunhanded]
        · simp [hq]
      | _ => simp [balance, tokens, Instr.assigning, Instr.notifying, Mem.deferredArcs,
          Mem.headArcs, Mem.expected]
    · obtain rfl := List.mem_singleton.mp hx
      have hrunning' : ∀ q, (if q = i then (m.out i).arm else m.out q).handed = false := fun q =>
        (out_same OutputNode.handed (o := (m.out i).arm) rfl q).trans (hrunning.2.2 q)
      refine Relies.of_fact ⟨⟨hrunning.1, hrunning.2.1, hrunning'⟩, hlt, fun q => ?_, hthrow⟩ rfl
      dsimp only
      split_ifs with hq
      · rw [hq]
        exact (decide_eq_true (Nat.lt_succ_self i)).symm
      · rw [harmed q]
        exact decide_eq_decide.mpr (by omega)
  · rename_i hge
    cases hstep
    have heq : i = m.slots := by omega
    refine goto_keeps h (fun k => ?_) (Relies.of_fact ⟨hrunning, heq ▸ harmed, hthrow⟩ rfl)
    rw [tokens_complete rfl rfl, tokens_complete rfl rfl]

theorem closeList_keeps {canThrow : Bool} (h : protocol.Enters m (.closeList canThrow) rest)
    (hstep : closeList m canThrow = .next m' push spawned) :
    protocol.Keeps m (.closeList canThrow) rest m' push spawned := by
  obtain ⟨hrunning, harmed, hthrow⟩ := h.relies.1
  unfold closeList at hstep
  split at hstep
  · rename_i l hl
    cases hstep
    refine Frame.keeps ?_ h ?_ (fun k => ?_) (fun x hx => ?_) fun l hl => by cases hl
    · exact
        { slots := rfl
          port := rfl
          closed := fun hc => absurd hc hrunning.2.1
          complete := fun hno => by cases hno
          received := fun _ _ => rfl
          slot := fun _ => rfl }
    · exact
        { h.memory with
          signal := fun l hl => by cases hl
          headPort := fun l a hl => by cases hl
          closed := fun _ => ⟨hrunning.1, harmed⟩
          fresh := fun hno => absurd rfl hno
          settled := fun x hx => absurd (h.memory.settled x hx).1 hrunning.2.1
          finished := fun hf => absurd (h.memory.finished hf).1 hrunning.2.1
          received := fun x hx => absurd (h.memory.received x hx).1 hrunning.2.1 }
    · cases k with
      | start t =>
        cases t <;> simp [balance, tokens, Instr.guarded, Instr.notifying, Mem.deferredArcs,
          Mem.headArcs, hl]
        omega
      | dependency r =>
        simp [balance, tokens, Instr.assigning, Instr.notifying, Mem.deferredArcs, Mem.headArcs,
          Mem.expected, hl]
        omega
      | charge r =>
        simp [balance, tokens, Instr.assigning, Mem.deferredArcs, Mem.headArcs, Mem.expected, hl]
        omega
      | _ => simp [balance, tokens, Instr.assigning, Mem.deferredArcs, Mem.expected]
    · obtain rfl := List.mem_singleton.mp hx
      refine Relies.of_fact ⟨rfl, hrunning.2.2, hthrow, fun a ha => h.memory.headPort l a hl ha,
        fun hno hmem => ?_⟩ rfl
      have hfailed := h.memory.signal l hl hmem
      rw [hthrow, hfailed] at hno
      cases hno
  · cases hstep

theorem notifyLoad_keeps {l : List Entry} {canThrow : Bool}
    (h : protocol.Enters m (.notifyLoad l canThrow) rest)
    (hstep : notifyLoad m l canThrow = .next m' push spawned) :
    protocol.Keeps m (.notifyLoad l canThrow) rest m' push spawned := by
  have hnotifying : Notifying m l canThrow := h.relies.1
  cases hstep
  refine goto_keeps h (fun k => ?_) (Relies.of_fact ⟨hnotifying, ?_⟩ rfl)
  · cases k with
    | start t => cases t <;> simp [tokens, Instr.guarded, Instr.notifying]
    | _ => simp [tokens, Instr.assigning, Instr.notifying]
  · rw [h.memory.flag, hnotifying.2.2.1, Bool.and_self]

theorem Notifying.tail {e : Entry} {l : List Entry} {canThrow : Bool}
    (h : Notifying m (e :: l) canThrow) : Notifying m l canThrow := by
  obtain ⟨hclosed, hhanded, hthrow, hport, hsignal⟩ := h
  exact ⟨hclosed, hhanded, hthrow, fun a ha => hport a (List.mem_cons_of_mem _ ha),
    fun hno hmem => hsignal hno (List.mem_cons_of_mem _ hmem)⟩

/-- Nothing is published to a reader unless the writer has failed. -/
theorem unreceived (h : MemOk m) (hfine : m.failed = false) (r : ℕ) : m.received r = m.failed := by
  rw [hfine]
  by_contra hyes
  rw [Bool.not_eq_false] at hyes
  rw [(h.received r hyes).2.1] at hfine
  cases hfine

theorem tokens_publish_none (a : ReaderArc) (k : Right) :
    tokens (.notifyReader a.reader) k = tokens (.publishFailure a none) k := by
  cases k with
  | start t => cases t <;> simp [tokens, Instr.guarded, Instr.notifying]
  | _ => simp [tokens, Instr.assigning, Instr.notifying]

theorem tokens_publish_some (a : ReaderArc) (n : ℕ) (k : Right) :
    tokens (.increment a.reader n) k = tokens (.publishFailure a (some n)) k := by
  cases k with
  | start t => cases t <;> simp [tokens, Instr.guarded, Instr.notifying]
  | _ => simp [tokens, Instr.assigning, Instr.notifying]

theorem notifyArcs_keeps {l : List Entry} {canThrow failed : Bool}
    (h : protocol.Enters m (.notifyArcs l canThrow failed) rest)
    (hstep : notifyArcs m canThrow failed l = .next m' push spawned) :
    protocol.Keeps m (.notifyArcs l canThrow failed) rest m' push spawned := by
  obtain ⟨hnotifying, hfailed⟩ := h.relies.1
  cases l with
  | nil =>
    cases hstep
    refine goto_keeps h (fun k => ?_)
      (Relies.of_fact ⟨hnotifying.1, Nat.zero_le _, fun q => ?_⟩ rfl)
    · rw [tokens_complete rfl rfl, tokens_complete rfl rfl]
    · exact (hnotifying.2.1 q).trans (decide_eq_false (Nat.not_lt_zero q)).symm
  | cons e l =>
    cases e with
    | signal =>
      unfold notifyArcs at hstep
      dsimp only at hstep
      split at hstep
      · cases hstep
        refine goto_keeps h (fun k => ?_) (Relies.of_fact ⟨hnotifying.tail, hfailed⟩ rfl)
        cases k with
        | start t => cases t <;> simp [tokens, Instr.guarded, Instr.notifying]
        | _ => simp [tokens, Instr.assigning, Instr.notifying]
      · cases hstep
    | arc a =>
      have hport : a.port = m.port := hnotifying.2.2.2.1 a List.mem_cons_self
      have hrights : ∀ k, tokens (if failed then .publishFailure a none else .notifyReader a.reader)
          k = tokens (.notifyReader a.reader) k := by
        intro k
        split_ifs
        · exact (tokens_publish_none a k).symm
        · rfl
      cases hstep
      refine Frame.keeps ?_ h ?_ (fun k => ?_) (fun x hx => ?_) fun l hl => by cases hl
      · exact
          { frame_refl m (.notifyArcs (.arc a :: l) canThrow failed) with
            closed := fun hc => ⟨hc, rfl⟩
            complete := fun hno => by cases hno }
      · exact
          { h.memory with
            backPort := fun b hb => by
              rcases List.mem_cons.mp hb with rfl | hb
              · exact hport
              · exact h.memory.backPort b hb
            fresh := fun hno => absurd hnotifying.1 hno
            count := fun q hq => by
              have hcount := h.memory.count q hq
              dsimp only
              rw [countAt_cons]
              push_cast
              split_ifs <;> omega }
      · rw [stackSum_cons, hrights]
        cases k with
        | start t =>
          cases t <;> simp [balance, tokens, Instr.guarded, Instr.notifying, Mem.deferredArcs,
            Mem.headArcs, eq_comm, add_comm]
        | dependency r =>
          simp [balance, tokens, Instr.assigning, Instr.notifying, Mem.deferredArcs, Mem.headArcs,
            Mem.expected, eq_comm, add_comm]
        | charge r =>
          simp [balance, tokens, Instr.assigning, Mem.deferredArcs, Mem.headArcs, Mem.expected]
          omega
        | unit q =>
          simp only [balance, tokens, hnotifying.2.1 q, countAt_cons, stackSum_cons, stackSum_nil,
            threadSum_nil, Bool.false_eq_true, if_false, eq_comm (a := q)]
          push_cast
          split_ifs <;> omega
        | _ => simp [balance, tokens, Instr.assigning, Mem.deferredArcs, Mem.expected]
      · rcases List.mem_cons.mp hx with rfl | hx
        · split_ifs with hf
          · refine Relies.of_fact ⟨fun k hk => (by cases hk), hnotifying.1, hport, ?_⟩ rfl
            rw [← hf]
            exact hfailed.symm
          · refine Relies.of_fact ⟨hnotifying.1, unreceived h.memory ?_ a.reader⟩ rfl
            rw [← hfailed]
            exact Bool.eq_false_iff.mpr hf
        · obtain rfl := List.mem_singleton.mp hx
          exact Relies.of_fact ⟨hnotifying.tail, hfailed⟩ rfl

theorem notifyOut_keeps {i : ℕ} (h : protocol.Enters m (.notifyOut i) rest)
    (hstep : notifyOut m i = .next m' push spawned) :
    protocol.Keeps m (.notifyOut i) rest m' push spawned := by
  obtain ⟨hclosed, hi, hhanded⟩ := h.relies.1
  have hunhanded : (m.out i).handed = false := (hhanded i).trans (decide_eq_false (lt_irrefl i))
  rw [notifyOut_eq m (h.memory.next i hunhanded)] at hstep
  split at hstep
  · rename_i hlt
    have harmed : (m.out i).armed = true :=
      ((h.memory.closed hclosed).2 i).trans (decide_eq_true hlt)
    let o : OutputNode := { m.out i with
      nextWriter := .ready, countdown := (m.out i).countdown - (m.count i - 1), handed := true }
    have hsame := out_same (m := m) OutputNode.armed (o := o) (i := i) rfl
    dsimp only at hstep
    split at hstep
    · cases hstep
    · cases hstep
      refine Frame.keeps ?_ h ?_ (fun k => ?_) (fun x hx => ?_) fun l hl => by cases hl
      · exact
          { slots := rfl
            port := rfl
            closed := fun hc => ⟨hc, rfl⟩
            complete := fun hno => by cases hno
            received := fun _ _ => rfl
            slot := fun _ => rfl }
      · exact
          { h.memory with
            closed := fun _ =>
              ⟨(h.memory.closed hclosed).1, fun q => (hsame q).trans ((h.memory.closed hclosed).2 q)⟩
            untouched := fun hne => absurd (h.memory.closed hclosed).1 hne
            finished := fun hf => by
              have hboth := (h.memory.finished hf).2 i
              rw [harmed, hunhanded] at hboth
              cases hboth
            unarmed := fun q hq => by
              dsimp only at hq ⊢
              split_ifs at hq ⊢
              · rw [harmed] at hq
                cases hq
              · exact h.memory.unarmed q hq
            next := fun q hq => by
              dsimp only at hq ⊢
              by_cases heq : q = i
              · rw [if_pos heq] at hq
                cases hq
              · rw [if_neg heq] at hq ⊢
                exact h.memory.next q hq
            count := fun q hq => h.memory.count q ((hsame q).symm.trans hq) }
      · cases k with
        | start t => cases t <;> simp [balance, tokens, Instr.guarded, Instr.notifying,
            Mem.deferredArcs, Mem.headArcs]
        | unit q =>
          simp only [balance, tokens, stackSum_cons, stackSum_nil, threadSum_nil]
          by_cases hq : q = i
          · subst hq
            simp only [harmed, hunhanded, if_true, Bool.false_eq_true, if_false]
            omega
          · simp [hq]
        | _ => simp [balance, tokens, Instr.assigning, Instr.notifying, Mem.deferredArcs,
            Mem.headArcs, Mem.expected]
      · obtain rfl := List.mem_singleton.mp hx
        refine Relies.of_fact ⟨hclosed, hlt, fun q => ?_⟩ rfl
        dsimp only
        split_ifs with hq
        · rw [hq]
          exact (decide_eq_true (Nat.lt_succ_self i)).symm
        · rw [hhanded q]
          exact decide_eq_decide.mpr (by omega)
  · cases hstep
    refine Frame.keeps ?_ h ?_ (fun k => ?_) (fun x hx => by cases hx) fun l hl => by cases hl
    · exact
        { frame_refl m (.notifyOut i) with
          closed := fun hc => ⟨hc, rfl⟩
          complete := fun hno => by cases hno }
    · exact
        { h.memory with
          closed := h.memory.closed
          finished := fun _ => by
            refine ⟨hclosed, fun q => ?_⟩
            rw [(h.memory.closed hclosed).2 q, hhanded q]
            exact decide_eq_decide.mpr (by omega) }
    · rw [tokens_complete rfl rfl, stackSum_nil, threadSum_nil]
      cases k with
      | start t => cases t <;> simp [balance, Mem.deferredArcs, Mem.headArcs]
      | complete =>
        simp only [balance, if_true]
        push_cast
        omega
      | _ => simp [balance, Mem.deferredArcs, Mem.headArcs, Mem.expected]

/-! ### publish_failure_from and assign_prerequisite -/

theorem publishFailure_keeps {a : ReaderArc} {late : Option ℕ}
    (h : protocol.Enters m (.publishFailure a late) rest)
    (hstep : publishFailure m a late = .next m' push spawned) :
    protocol.Keeps m (.publishFailure a late) rest m' push spawned := by
  obtain ⟨hlate, hclosed, hport, hfailed⟩ := h.relies.1
  have hslot : a.port ≠ 0 := by
    rw [hport]
    exact Nat.ne_of_gt h.memory.port.1
  have hsettled : m.settled a.reader = 0 := by
    have hk : tokens (.publishFailure a late) (.dependency a.reader) ≤
        -balance m (.dependency a.reader) := h.covered (.dependency a.reader)
    have hone : (1 : ℤ) ≤ tokens (.publishFailure a late) (.dependency a.reader) := by
      cases late <;> simp [tokens, Instr.assigning, Instr.notifying]
    simp only [balance, Mem.expected] at hk
    split_ifs at hk <;> omega
  have hpublished : (m.word .writer).published a.port = some .dependencyCancelled := if_pos hslot
  simp only [publishFailure, hpublished] at hstep
  cases hstep
  have hok := memOk_markReader h.memory a.reader .dependencyCancelled
  refine Frame.keeps ?_ h ?_ (fun k => ?_) (fun x hx => ?_) fun l hl => by cases hl
  · exact
      { slots := rfl
        port := rfl
        closed := fun hc => ⟨hc, rfl⟩
        complete := fun _ => ⟨id, fun _ => rfl, fun _ => rfl, fun _ => rfl⟩
        received := fun r hr => by
          refine if_neg fun heq => ?_
          subst heq
          cases late <;> simp [tokens, Instr.assigning, Instr.notifying] at hr
        slot := fun _ => rfl }
  · exact
      { hok with
        settled := fun x hx => by
          refine ⟨hclosed, ?_⟩
          have hne : x ≠ a.reader := by
            intro heq
            change 0 < m.settled x at hx
            rw [heq] at hx
            omega
          exact (if_neg hne).trans (h.memory.settled x hx).2
        received := fun x hx => by
          by_cases heq : x = a.reader
          · subst heq
            refine ⟨hclosed, hfailed, ?_⟩
            simp [Mem.setWord, StartCount.mark]
          · have hbefore : m.received x = true := (if_neg heq).symm.trans hx
            exact hok.received x hbefore }
  · rw [stackSum_cons, stackSum_nil, threadSum_nil, add_zero, add_zero]
    have hbalance := balance_setWord (m := m) (.reader a.reader)
      (StartCount.mark_count (m.word (.reader a.reader)) .dependencyCancelled) k
    cases late with
    | none =>
      rw [← tokens_publish_none]
      congr 1
    | some n =>
      rw [← tokens_publish_some]
      congr 1
  · obtain rfl := List.mem_singleton.mp hx
    have hreceived : (true : Bool) = m.failed := hfailed.symm
    cases late with
    | none => exact Relies.of_fact ⟨hclosed, (if_pos rfl).trans hreceived⟩ rfl
    | some k => exact Relies.of_fact ⟨hlate k rfl, hclosed, (if_pos rfl).trans hreceived⟩ rfl

/-- The rights of a reader in `assign_prerequisite`. -/
theorem tokens_assign {x : Instr} {r k : ℕ} (hx : x.assigns = some (r, k)) (key : Right) :
    tokens x key = match key with
      | .start (.reader y) => if r = y then ((guard - k : ℕ) : ℤ) else 0
      | .dependency y => if r = y then 1 else 0
      | .pending y => if r = y then 1 else 0
      | .charge y => if r = y then 1 else 0
      | _ => 0 := by
  cases x with
  | publishFailure a late =>
    cases late with
    | none => cases hx
    | some n =>
      cases hx
      cases key with
      | start t => cases t <;> simp [tokens, Instr.guarded, Instr.notifying]
      | _ => simp [tokens, Instr.assigning, Instr.notifying]
  | assign a b =>
    cases hx
    cases key with
    | start t => cases t <;> simp [tokens, Instr.guarded, Instr.notifying]
    | _ => simp [tokens, Instr.assigning, Instr.notifying]
  | assignWriter a b =>
    cases hx
    cases key with
    | start t => cases t <;> simp [tokens, Instr.guarded, Instr.notifying]
    | _ => simp [tokens, Instr.assigning, Instr.notifying]
  | lateCheck a b =>
    cases hx
    cases key with
    | start t => cases t <;> simp [tokens, Instr.guarded, Instr.notifying]
    | _ => simp [tokens, Instr.assigning, Instr.notifying]
  | increment a b =>
    cases hx
    cases key with
    | start t => cases t <;> simp [tokens, Instr.guarded, Instr.notifying]
    | _ => simp [tokens, Instr.assigning, Instr.notifying]
  | _ => cases hx

/-- The rights to the removal that ends `assign_prerequisite`. -/
theorem tokens_removeReader (r n : ℕ) (key : Right) :
    tokens (.removePrerequisite (.reader r) n) key =
      if key = .start (.reader r) then (n : ℤ) else 0 := by
  cases key with
  | start t =>
    cases t with
    | writer => simp [tokens]
    | reader x => simp [tokens, Instr.guarded, Instr.notifying, eq_comm]
  | _ => simp [tokens, Instr.assigning, Instr.notifying]

theorem assign_keeps {r k : ℕ} (h : protocol.Enters m (.assign r k) rest)
    (hstep : assign m r k = .next m' push spawned) :
    protocol.Keeps m (.assign r k) rest m' push spawned := by
  have hk : k + 1 < guard := h.relies.1
  unfold assign at hstep
  split at hstep
  · rename_i l hl
    cases hstep
    refine Frame.keeps ?_ h ?_ (fun key => ?_) (fun x hx => ?_) fun l hl => by cases hl
    · exact
        { frame_refl m (.assign r k) with
          closed := fun hc => ⟨hc, rfl⟩
          complete := fun _ => ⟨id, fun _ => rfl, fun _ => rfl, fun _ => rfl⟩ }
    · exact { h.memory with closed := h.memory.closed }
    · rw [stackSum_cons, stackSum_nil, threadSum_nil, tokens_removeReader,
        tokens_assign (x := .assign r k) rfl]
      cases key with
      | start t =>
        cases t with
        | writer => simp [balance]
        | reader x =>
          simp only [balance, Mem.deferredArcs, Mem.headArcs, hl, Option.getD_some, countOf_cons,
            Right.start.injEq, Who.reader.injEq, eq_comm (a := x)]
          push_cast
          split_ifs <;> omega
      | dependency x =>
        simp [balance, Mem.deferredArcs, Mem.headArcs, Mem.expected, hl]
        omega
      | pending x =>
        simp [balance, Mem.deferredArcs, Mem.expected, hl]
        omega
      | charge x =>
        simp [balance, Mem.deferredArcs, Mem.headArcs, Mem.expected, hl]
        omega
      | redirect => simp [balance, hl]
      | _ => simp [balance]
    · obtain rfl := List.mem_singleton.mp hx
      exact Relies.of_fact (Nat.sub_pos_of_lt hk) rfl
  · cases hstep
    refine goto_keeps h (fun key => ?_) (Relies.of_fact hk rfl)
    rw [tokens_assign (x := .assignWriter r k) rfl, tokens_assign (x := .assign r k) rfl]

theorem assignWriter_keeps {r k : ℕ} (h : protocol.Enters m (.assignWriter r k) rest)
    (hstep : assignWriter m r k = .next m' push spawned) :
    protocol.Keeps m (.assignWriter r k) rest m' push spawned := by
  have hk : k + 1 < guard := h.relies.1
  unfold assignWriter at hstep
  split at hstep
  · rename_i l hl
    have hopen : m.head ≠ none := by
      rw [hl]
      exact Option.some_ne_none l
    cases hstep
    refine Frame.keeps ?_ h ?_ (fun key => ?_) (fun x hx => ?_) fun l hl => by cases hl
    · exact
        { slots := rfl
          port := rfl
          closed := fun hc => absurd hc hopen
          complete := fun _ => ⟨fun _ hno => (by cases hno), fun _ => rfl, fun _ => rfl, fun _ => rfl⟩
          received := fun _ _ => rfl
          slot := fun _ => rfl }
    · exact
        { h.memory with
          signal := fun l' heq hmem => by
            cases heq
            rcases List.mem_cons.mp hmem with heq | hmem
            · cases heq
            · exact h.memory.signal l hl hmem
          headPort := fun l' b heq hmem => by
            cases heq
            rcases List.mem_cons.mp hmem with heq | hmem
            · cases heq
              rfl
            · exact h.memory.headPort l b hl hmem
          closed := fun hno => by cases hno
          fresh := fun _ => h.memory.fresh hopen
          settled := fun x hx => absurd (h.memory.settled x hx).1 hopen
          finished := fun hf => absurd (h.memory.finished hf).1 hopen
          received := fun x hx => absurd (h.memory.received x hx).1 hopen }
    · rw [stackSum_cons, stackSum_nil, threadSum_nil, tokens_removeReader,
        tokens_assign (x := .assignWriter r k) rfl]
      cases key with
      | start t =>
        cases t with
        | writer => simp [balance]
        | reader x =>
          simp only [balance, Mem.deferredArcs, Mem.headArcs, hl, Option.getD_some, arcsOf_arc,
            countOf_cons, Right.start.injEq, Who.reader.injEq, eq_comm (a := x)]
          push_cast
          split_ifs <;> omega
      | dependency x =>
        simp [balance, Mem.deferredArcs, Mem.headArcs, Mem.expected, hl]
        omega
      | pending x =>
        simp only [balance, Mem.deferredArcs, Mem.expected, bump, eq_comm (a := x), reduceCtorEq,
          if_false]
        push_cast
        split_ifs
        all_goals omega
      | charge x =>
        simp [balance, Mem.deferredArcs, Mem.headArcs, Mem.expected, hl]
        omega
      | _ => simp [balance]
    · obtain rfl := List.mem_singleton.mp hx
      exact Relies.of_fact (Nat.sub_pos_of_lt hk) rfl
  · rename_i hclosed
    cases hstep
    refine goto_keeps h (fun key => ?_) (Relies.of_fact ⟨hk, hclosed⟩ rfl)
    rw [tokens_assign (x := .lateCheck r k) rfl, tokens_assign (x := .assignWriter r k) rfl]

theorem lateCheck_keeps {r k : ℕ} (h : protocol.Enters m (.lateCheck r k) rest)
    (hstep : lateCheck m r k = .next m' push spawned) :
    protocol.Keeps m (.lateCheck r k) rest m' push spawned := by
  obtain ⟨hk, hclosed⟩ := h.relies.1
  cases hstep
  split_ifs with hfailed
  · refine goto_keeps h (fun key => ?_) (Relies.of_fact ⟨?_, hclosed, rfl, hfailed⟩ rfl)
    · rw [tokens_assign (x := .publishFailure ⟨r, m.port⟩ (some k)) rfl,
        tokens_assign (x := .lateCheck r k) rfl]
    · intro n hn
      cases hn
      exact hk
  · refine goto_keeps h (fun key => ?_) (Relies.of_fact ⟨hk, hclosed, ?_⟩ rfl)
    · rw [tokens_assign (x := .increment r k) rfl, tokens_assign (x := .lateCheck r k) rfl]
    · exact unreceived h.memory (Bool.eq_false_iff.mpr hfailed) r

theorem increment_keeps {r k : ℕ} (h : protocol.Enters m (.increment r k) rest)
    (hstep : increment m r k = .next m' push spawned) :
    protocol.Keeps m (.increment r k) rest m' push spawned := by
  obtain ⟨hk, hclosed, hreceived⟩ := h.relies.1
  have harmed : (m.out m.port).armed = true :=
    ((h.memory.closed hclosed).2 m.port).trans (decide_eq_true h.memory.port.2)
  let o : OutputNode := { m.out m.port with countdown := (m.out m.port).countdown + 1 }
  have hsame := out_same (m := m) OutputNode.armed (o := o) (i := m.port) rfl
  have hhanded := out_same (m := m) OutputNode.handed (o := o) (i := m.port) rfl
  have hnext := out_same (m := m) OutputNode.nextWriter (o := o) (i := m.port) rfl
  rw [increment_eq] at hstep
  dsimp only at hstep
  split at hstep
  · cases hstep
    refine Frame.keeps ?_ h ?_ (fun key => ?_) (fun x hx => ?_) fun l hl => by cases hl
    · exact
        { frame_refl m (.increment r k) with
          closed := fun hc => ⟨hc, rfl⟩
          complete := fun _ => ⟨id, hsame, hhanded, fun _ => rfl⟩ }
    · exact
        { h.memory with
          closed := fun _ =>
            ⟨(h.memory.closed hclosed).1, fun q => (hsame q).trans ((h.memory.closed hclosed).2 q)⟩
          untouched := fun hne => absurd (h.memory.closed hclosed).1 hne
          unarmed := fun q hq => by
            dsimp only at hq ⊢
            split_ifs at hq ⊢
            · rw [harmed] at hq
              cases hq
            · exact h.memory.unarmed q hq
          next := fun q hq =>
            (hnext q).trans (h.memory.next q ((hhanded q).symm.trans hq))
          count := fun q hq => h.memory.count q ((hsame q).symm.trans hq)
          finished := fun hf => ⟨hclosed, fun q =>
            (hsame q).trans (((h.memory.finished hf).2 q).trans (hhanded q).symm)⟩
          settled := fun x hx => by
            by_cases heq : x = r
            · subst heq
              exact ⟨hclosed, hreceived⟩
            · simp only [bump, heq, if_false] at hx
              exact h.memory.settled x hx }
    · rw [stackSum_cons, stackSum_nil, threadSum_nil, tokens_assign (x := .increment r k) rfl]
      cases key with
      | start t =>
        cases t with
        | writer => simp [balance, tokens]
        | reader x =>
          simp [balance, tokens, Instr.guarded, Instr.notifying, Mem.deferredArcs, Mem.headArcs]
      | unit q =>
        by_cases hq : m.port = q
        · subst hq
          simp only [balance, tokens, harmed, if_true]
          omega
        · simp [balance, tokens, hq, Ne.symm hq]
      | dependency x =>
        simp only [balance, tokens, Instr.assigning, Instr.notifying, Instr.assigns, Instr.arcs,
          Instr.notifies, Mem.deferredArcs, Mem.headArcs, Mem.expected, bump, countOf_nil,
          eq_comm (a := x), reduceCtorEq, if_false]
        push_cast
        split_ifs
        all_goals omega
      | pending x =>
        simp only [balance, tokens, Instr.assigning, Instr.assigns, Mem.deferredArcs, Mem.expected,
          bump, eq_comm (a := x)]
        push_cast
        split_ifs
        all_goals omega
      | charge x =>
        simp [balance, tokens, Instr.assigning, Mem.deferredArcs, Mem.headArcs, Mem.expected]
      | _ => simp [balance, tokens]
    · obtain rfl := List.mem_singleton.mp hx
      exact Relies.of_fact ⟨hk, rfl, hclosed⟩ rfl
  · cases hstep

theorem addBackArc_keeps {a : ReaderArc} {k : ℕ} (h : protocol.Enters m (.addBackArc a k) rest)
    (hstep : addBackArc m a k = .next m' push spawned) :
    protocol.Keeps m (.addBackArc a k) rest m' push spawned := by
  obtain ⟨hk, hport, hclosed⟩ := h.relies.1
  cases hstep
  refine Frame.keeps ?_ h ?_ (fun key => ?_) (fun x hx => ?_) fun l hl => by cases hl
  · exact
      { frame_refl m (.addBackArc a k) with
        closed := fun hc => ⟨hc, rfl⟩
        complete := fun _ => ⟨id, fun _ => rfl, fun _ => rfl, fun _ => rfl⟩ }
  · exact
      { h.memory with
        closed := h.memory.closed
        backPort := fun b hb => by
          rcases List.mem_cons.mp hb with rfl | hb
          · exact hport
          · exact h.memory.backPort b hb
        fresh := fun hno => absurd hclosed hno
        count := fun q hq => by
          have hcount := h.memory.count q hq
          dsimp only
          rw [countAt_cons]
          push_cast
          split_ifs <;> omega }
  · rw [stackSum_cons, stackSum_nil, threadSum_nil, tokens_removeReader]
    cases key with
    | start t =>
      cases t with
      | writer => simp [balance, tokens]
      | reader x =>
        simp [balance, tokens, Instr.guarded, Instr.notifying, Mem.deferredArcs, Mem.headArcs,
          eq_comm (a := x)]
    | charge x =>
      simp [balance, tokens, Instr.assigning, Mem.deferredArcs, Mem.headArcs, Mem.expected]
      omega
    | unit q =>
      simp only [balance, tokens, countAt_cons, reduceCtorEq, if_false]
      push_cast
      by_cases hq : a.port = q
      · subst hq
        have harmed : (m.out a.port).armed = true := by
          rw [(h.memory.closed hclosed).2, hport]
          exact decide_eq_true h.memory.port.2
        simp only [harmed, if_true]
        omega
      · simp [hq]
    | _ => simp [balance, tokens, Instr.assigning, Instr.notifying, Mem.deferredArcs,
        Mem.headArcs, Mem.expected]
  · obtain rfl := List.mem_singleton.mp hx
    exact Relies.of_fact (Nat.sub_pos_of_lt (Nat.lt_of_succ_lt hk)) rfl

/-- Every step keeps the protocol. -/
theorem keeps {choice : Bool} (h : protocol.Enters m ins rest)
    (hexec : exec m choice ins = .next m' push spawned) :
    protocol.Keeps m ins rest m' push spawned := by
  cases ins with
  | redirect => exact redirect_keeps h hexec
  | moveArcs r => exact moveArcs_keeps h hexec
  | setNextWriter => exact setNextWriter_keeps h hexec
  | removeBackArc => exact removeBackArc_keeps h hexec
  | removePrerequisite t n =>
    cases t with
    | writer => exact removePrerequisite_writer_keeps h hexec
    | reader r => exact removePrerequisite_reader_keeps h hexec
  | other t failure => exact other_keeps h hexec
  | execute => exact execute_keeps h hexec
  | storeCountdown i canThrow => exact storeCountdown_keeps h hexec
  | closeList canThrow => exact closeList_keeps h hexec
  | notifyLoad l canThrow => exact notifyLoad_keeps h hexec
  | notifyArcs l canThrow failed => exact notifyArcs_keeps h hexec
  | notifyReader r => exact notifyReader_keeps h hexec
  | notifyOut i => exact notifyOut_keeps h hexec
  | assign r k => exact assign_keeps h hexec
  | assignWriter r k => exact assignWriter_keeps h hexec
  | lateCheck r k => exact lateCheck_keeps h hexec
  | increment r k => exact increment_keeps h hexec
  | addBackArc a k => exact addBackArc_keeps h hexec
  | publishFailure a late => exact publishFailure_keeps h hexec

end Steps

end Oox.Deferred
