import Oox.Dispatch.Packed
import Oox.Library.Protocol

/-!
# A task is started

`run` sets a task up and publishes it (oox.h:1866-1876) while the producers of its arguments
complete, publish their failures to it and call `remove_prerequisite` (oox.h:910-928, 1002-1043,
1045-1105, 1167-1186). `start_count` is the packed word of the code.
-/

set_option autoImplicit false

namespace Oox.Dispatch

open Library

/-- A var argument's part in starting the task: a writer waits for the slot of the version it
overwrites; a reader waits for the producer `source`, which marks the task with `failure` when
it publishes one to it. -/
inductive Param where
  | plain
  | writer
  | reader (source : ℕ) (failure : Option FailureBit)
  deriving DecidableEq, Repr

def Param.isReader : Param → Bool
  | .reader _ _ => true
  | _ => false

structure Mem where
  /-- `start_count` of the task. -/
  word : BitVec 32 := 0
  /-- `head` of the task holds a done or terminal marker. -/
  done : Bool := false
  /-- the arcs of the task in the lists of its producers. -/
  arcs : List (ℕ × Option FailureBit) := []
  /-- the producer's list was exchanged for its terminal marker. -/
  closed : ℕ → Bool := fun _ => false
  -- history
  /-- `run` initialised the word. -/
  stored : Bool := false
  /-- `run` called `remove_prerequisite(protect_count)`. -/
  published : Bool := false
  /-- the prerequisites `setup` has counted. -/
  accepted : ℕ := 0
  /-- of each reader in turn, whether `setup` found its producer open. -/
  found : List Bool := []
  /-- the prerequisites that called `remove_prerequisite`. -/
  removed : ℕ := 0
  /-- how many calls of `remove_prerequisite` saw the count reach zero, and what they did. -/
  zeros : ℕ := 0
  skipped : ℕ := 0
  spawned : ℕ := 0
  /-- how often each bit was marked. -/
  marked : FailureBit → ℕ := fun _ => 0
  /-- the arguments of the call, and how many producers there are. -/
  params : List Param := []
  sources : ℕ := 0

inductive Instr where
  -- run
  | store (params : List Param)
  | setup (params : List Param) (count : ℕ)
  | bind (count : ℕ)
  | publish (count : ℕ)
  -- a producer completes
  | close (source : ℕ)
  | notify (r : List (Option FailureBit))
  | removePrerequisite
  -- mark_failure
  | mark (b : FailureBit)
  | markLoad (b : FailureBit)
  | markCheck (b : FailureBit) (word : BitVec 32)
  | markCas (b : FailureBit) (word : BitVec 32)
  /-- the dispatched task runs or is skipped, and closes its list. -/
  | complete
  /-- `cancel` on the var that `run` returned. -/
  | cancel
  deriving DecidableEq, Repr

inductive Fault where
  | assertion
  deriving DecidableEq, Repr

abbrev State := Config Mem Instr
abbrev Step := Outcome Mem Instr Fault

/-- Continue on the same thread. -/
abbrev goto (m : Mem) (push : List Instr) : Step := .next m push []

/-- `start_count.store(protect_count)`. -/
def store (m : Mem) (params : List Param) : Step :=
  goto { m with word := BitVec.ofNat 32 startCountMask, stored := true } [.setup params 0]

/-- The marks a published failure makes. -/
def marks : Option FailureBit → List Instr
  | some b => [.mark b]
  | none => []

/-- `setup` of the next argument. A reader whose producer is complete takes the failure over at
once and is not counted. -/
def setup (m : Mem) (params : List Param) (count : ℕ) : Step :=
  match params with
  | [] => goto m [.bind count]
  | .plain :: rest => goto m [.setup rest count]
  | .writer :: rest =>
    .next { m with accepted := m.accepted + 1 } [.setup rest (count + 1)] [[.removePrerequisite]]
  | .reader source failure :: rest =>
    let m' := { m with found := m.found ++ [!m.closed source] }
    if m.closed source then goto m' (marks failure ++ [.setup rest count])
    else
      goto { m' with arcs := (source, failure) :: m.arcs, accepted := m.accepted + 1 }
        [.setup rest (count + 1)]

/-- `remove_prerequisite(n)`. -/
def removePrerequisite (m : Mem) (n : ℕ) : Step :=
  match removeWord m.word n with
  | none => .fault .assertion
  | some (updated, true) =>
    if skipsWord updated then
      goto { m with word := updated, zeros := m.zeros + 1, skipped := m.skipped + 1 } [.complete]
    else
      .next { m with word := updated, zeros := m.zeros + 1, spawned := m.spawned + 1 } []
        [[.complete]]
  | some (updated, false) => goto { m with word := updated } []

/-- A producer's `head.exchange(terminal)`: it takes the task's arcs. -/
def close (m : Mem) (source : ℕ) : Step :=
  goto { m with
      arcs := m.arcs.filter fun a => a.1 ≠ source
      closed := fun s => if s = source then true else m.closed s }
    [.notify ((m.arcs.filter fun a => a.1 = source).map Prod.snd)]

/-- A round of `do_notify_arcs`: publish the failure, then remove the prerequisite. -/
def notify (m : Mem) : List (Option FailureBit) → Step
  | [] => goto m []
  | failure :: r => goto m (marks failure ++ [.removePrerequisite, .notify r])

def cancel (m : Mem) : Step :=
  if m.published then goto m [.mark .userCancelled] else .blocked

/-! ## mark_failure (oox.h:910-928) -/

def mark (m : Mem) (b : FailureBit) : Step :=
  goto m (if m.done then [] else [.markLoad b])

def markCheck (m : Mem) (b : FailureBit) (word : BitVec 32) : Step :=
  goto m (if m.done then [] else [.markCas b word])

def markCas (m : Mem) (spurious : Bool) (b : FailureBit) (word : BitVec 32) : Step :=
  if m.word = word ∧ spurious = false then
    goto { m with
        word := markWord word b
        marked := fun x => m.marked x + if x = b then 1 else 0 } []
  else
    goto m [.markCheck b m.word]

def exec (m : Mem) (choice : Bool) : Instr → Step
  | .store params => store m params
  | .setup params count => setup m params count
  | .bind count => goto m [.publish count]
  | .publish count => removePrerequisite { m with published := true } (startCountMask - count)
  | .close source => close m source
  | .notify r => notify m r
  | .removePrerequisite => removePrerequisite { m with removed := m.removed + 1 } 1
  | .mark b => mark m b
  | .markLoad b => goto m [.markCheck b m.word]
  | .markCheck b word => markCheck m b word
  | .markCas b word => markCas m choice b word
  | .complete => goto { m with done := true } []
  | .cancel => cancel m

/-- How many arguments publish a failure bit. -/
def failures (b : FailureBit) (params : List Param) : ℕ :=
  params.countP fun p => match p with
    | .reader _ failure => failure = some b
    | _ => false

/-- How many arguments are vars. -/
def varCount (params : List Param) : ℕ := params.countP fun p => p ≠ .plain

/-- `run` with the given arguments, producers `0` to `sources - 1` that complete, and `cancels`
threads that cancel the task. -/
def start (params : List Param) (sources cancels : ℕ) : State :=
  { mem := { params := params, sources := sources }
    threads := [.store params] :: ((List.range sources).map fun s => [.close s]) ++
      List.replicate cancels [.cancel] }

/-! ## The protocol -/

inductive Right where
  /-- to set the task up and publish it. -/
  | run
  /-- one unit of the count. -/
  | outstanding
  /-- a failure bit a producer has to mark. -/
  | failure (b : FailureBit)
  /-- to complete a producer. -/
  | source (s : ℕ)
  deriving DecidableEq, Repr

namespace Instr

def runs : Instr → Bool
  | .store _ => true
  | .setup _ _ => true
  | .bind _ => true
  | .publish _ => true
  | _ => false

/-- The units of the count an instruction will take back. `run` holds the guard. -/
def units : Instr → ℕ
  | .setup _ count => startCountMask - count
  | .bind count => startCountMask - count
  | .publish count => startCountMask - count
  | .removePrerequisite => 1
  | .notify r => r.length
  | _ => 0

/-- The failures an instruction has still to mark. -/
def pending (b : FailureBit) : Instr → ℕ
  | .store params => failures b params
  | .setup params _ => failures b params
  | .notify r => r.count (some b)
  | .mark x => if x = b then 1 else 0
  | .markLoad x => if x = b then 1 else 0
  | .markCheck x _ => if x = b then 1 else 0
  | .markCas x _ => if x = b then 1 else 0
  | _ => 0

end Instr

/-- The outstanding prerequisites in the packed word. -/
def Mem.count (m : Mem) : ℕ := (startPrerequisiteCount m.word).toNat

/-- Cancellation by the user is not counted: it is marked from outside as well. -/
def tokens (ins : Instr) : Right → ℤ
  | .run => if ins.runs then 1 else 0
  | .outstanding => ins.units
  | .failure b => if b = .userCancelled then 0 else ins.pending b
  | .source s => if ins = .close s then 1 else 0

def balance (m : Mem) : Right → ℤ
  | .run => if m.published then 0 else -1
  | .outstanding => m.arcs.length - m.count
  | .failure b =>
    if b = .userCancelled then 0
    else (m.arcs.countP fun a => a.2 = some b) + m.marked b - failures b m.params
  | .source s => if s < m.sources ∧ m.closed s = false then -1 else 0

/-- A failure bit of the word. -/
def has (w : StartCount) : FailureBit → Bool
  | .dependencyCancelled => w.dependencyCancelled
  | .userCancelled => w.userCancelled
  | .exception => w.exception

/-- Marking a bit that producers publish, before a unit of the count below it is removed. -/
def Marks (m : Mem) (b : FailureBit) (rest : List Instr) : Prop :=
  m.stored = true ∧
    (b ≠ .userCancelled → m.done = false ∧ ∃ x ∈ rest, 0 < x.units)

/-- `setup` is through with the arguments `before`: it has counted the writers and the readers
whose producer it found open, and these are listed until their producers complete. -/
structure SetUp (m : Mem) (before : List Param) : Prop where
  found : m.found.length = before.countP Param.isReader
  accepted : m.accepted = before.count .writer + m.found.count true
  listed : ∀ source failure, .reader source failure ∈ before →
    m.closed source = true ∨ (source, failure) ∈ m.arcs

/-- What an instruction relies on. -/
def Relies (m : Mem) (ins : Instr) (rest : List Instr) : Prop :=
  match ins with
  | .store params => m.stored = false ∧ params = m.params ∧ varCount params < startCountMask
  | .setup params count =>
    m.stored = true ∧ m.accepted = count ∧ count + varCount params < startCountMask ∧
      ∃ before, m.params = before ++ params ∧ SetUp m before
  | .bind count =>
    m.stored = true ∧ m.accepted = count ∧ count < startCountMask ∧ SetUp m m.params
  | .publish count =>
    m.stored = true ∧ m.accepted = count ∧ count < startCountMask ∧ SetUp m m.params
  | .mark b => Marks m b rest
  | .markLoad b => Marks m b rest
  | .markCheck b _ => Marks m b rest
  | .markCas b _ => Marks m b rest
  | .complete => 0 < m.zeros
  | .cancel => rest = []
  | _ => True

structure MemOk (m : Mem) : Prop where
  /-- the word is what the count and the marks make it: no bit is lost, none borrowed from. -/
  word : ∃ w : StartCount, m.word = w.pack ∧ w.count < 2 ^ 27 ∧
    ∀ b, has w b = decide (0 < m.marked b)
  /-- no decrement is lost. -/
  sum : m.stored = true → m.count + m.removed = if m.published then m.accepted else startCountMask
  unstored : m.stored = false → m.word = 0 ∧ (∀ b, m.marked b = 0) ∧ m.arcs = [] ∧
    m.accepted = 0 ∧ m.removed = 0 ∧ m.published = false
  fresh : m.stored = false → m.found = []
  setUp : m.published = true → SetUp m m.params
  zeros : m.zeros = if m.stored = true ∧ m.count = 0 then 1 else 0
  decided : m.zeros = m.skipped + m.spawned
  skipped : 0 < m.zeros → (m.skipped = 1 ↔ 0 < m.marked .dependencyCancelled ∨ 0 < m.marked .exception)
  arcs : ∀ a ∈ m.arcs, m.closed a.1 = false ∧ .reader a.1 a.2 ∈ m.params
  done : m.done = true → 0 < m.zeros

def protocol : Protocol Mem Instr Right where
  balance := balance
  tokens := tokens
  memory := MemOk
  relies := Relies
  tokens_nonneg ins k := by
    cases k with
    | outstanding => exact Int.natCast_nonneg _
    | _ =>
      simp only [tokens]
      split_ifs <;> omega

/-! ## Steps -/

section Steps

variable {m m' : Mem} {ins : Instr} {rest push : List Instr} {spawned : List (List Instr)}

/-- What a step must leave alone for the sake of the other threads. -/
structure Frame (m m' : Mem) (ins : Instr) : Prop where
  stored : m.stored = true → m'.stored = true
  zeros : m.zeros ≤ m'.zeros
  params : m'.params = m.params
  /-- only `run` changes what `run` relies on. -/
  run : ins.runs = false →
    m'.stored = m.stored ∧ m'.accepted = m.accepted ∧ m'.found = m.found
  /-- an arc stays listed until its producer completes. -/
  listed : ∀ source failure, m.closed source = true ∨ (source, failure) ∈ m.arcs →
    m'.closed source = true ∨ (source, failure) ∈ m'.arcs
  /-- the task's list is closed only once nothing is outstanding. -/
  done : m'.done = true → m.done = true ∨ m.count = 0

theorem units_le_count {x : Instr} (hwith : Together balance tokens m ins x) : x.units ≤ m.count := by
  have hk := hwith .outstanding
  simp only [tokens, balance] at hk
  omega

theorem not_runs_of_together {other : Instr} (hother : other.runs = true)
    (hwith : Together balance tokens m ins other) : ins.runs = false := by
  have hk := hwith .run
  by_contra hins
  rw [Bool.not_eq_false] at hins
  simp only [tokens, hins, hother, if_true, balance] at hk
  split_ifs at hk <;> omega

/-- What was set up stays so. -/
theorem SetUp.stable {before : List Param} (h : SetUp m before) (haccepted : m'.accepted = m.accepted)
    (hfound : m'.found = m.found)
    (hlisted : ∀ source failure, m.closed source = true ∨ (source, failure) ∈ m.arcs →
      m'.closed source = true ∨ (source, failure) ∈ m'.arcs) : SetUp m' before where
  found := by rw [hfound]; exact h.found
  accepted := by rw [haccepted, hfound]; exact h.accepted
  listed source failure hp := hlisted source failure (h.listed source failure hp)

theorem Frame.marks {b : FailureBit} {x : Instr} {rest' : List Instr} (hframe : Frame m m' ins)
    (h : Marks m b rest') (hwith : ∀ y ∈ x :: rest', Together balance tokens m ins y) :
    Marks m' b rest' := by
  refine ⟨hframe.stored h.1, fun hb => ?_⟩
  obtain ⟨hopen, y, hy, hunits⟩ := h.2 hb
  refine ⟨?_, y, hy, hunits⟩
  by_contra hdone
  rw [Bool.not_eq_false] at hdone
  rcases hframe.done hdone with hdone' | hzero
  · rw [hopen] at hdone'
    cases hdone'
  · have hle := units_le_count (hwith y (List.mem_cons_of_mem _ hy))
    omega

theorem Frame.stable {other : Instr} {rest' : List Instr} (hframe : Frame m m' ins)
    (h : Relies m other rest') (hwith : ∀ y ∈ other :: rest', Together balance tokens m ins y) :
    Relies m' other rest' := by
  have hrun : other.runs = true →
      m'.stored = m.stored ∧ m'.accepted = m.accepted ∧ m'.found = m.found := fun hother =>
    hframe.run (not_runs_of_together hother (hwith other List.mem_cons_self))
  have hdone : other.runs = true → SetUp m m.params → SetUp m' m'.params := by
    intro hother hsetUp
    rw [hframe.params]
    exact hsetUp.stable (hrun hother).2.1 (hrun hother).2.2 hframe.listed
  cases other with
  | store params => exact ⟨(hrun rfl).1.trans h.1, h.2.1.trans hframe.params.symm, h.2.2⟩
  | setup params count =>
    obtain ⟨hstored, haccepted, hfound⟩ := hrun rfl
    obtain ⟨before, hbefore, hsetUp⟩ := h.2.2.2
    exact ⟨hstored.trans h.1, haccepted.trans h.2.1, h.2.2.1, before,
      hframe.params.trans hbefore, hsetUp.stable haccepted hfound hframe.listed⟩
  | bind count =>
    exact ⟨(hrun rfl).1.trans h.1, (hrun rfl).2.1.trans h.2.1, h.2.2.1, hdone rfl h.2.2.2⟩
  | publish count =>
    exact ⟨(hrun rfl).1.trans h.1, (hrun rfl).2.1.trans h.2.1, h.2.2.1, hdone rfl h.2.2.2⟩
  | mark b => exact hframe.marks h hwith
  | markLoad b => exact hframe.marks h hwith
  | markCheck b word => exact hframe.marks h hwith
  | markCas b word => exact hframe.marks h hwith
  | complete => exact lt_of_lt_of_le h hframe.zeros
  | cancel => exact h
  | _ => trivial

/-- A step keeps the protocol when it keeps the memory in order, leaves alone what others rely
on, and pushes in order. -/
theorem Frame.keeps (hframe : Frame m m' ins) (hok : MemOk m')
    (hcons : Conserves balance tokens m ins m' push spawned)
    (hpush : StackOk Relies m' rest → StackOk Relies m' (push ++ rest))
    (hspawned : ∀ l ∈ spawned, StackOk Relies m' l) :
    protocol.Keeps m ins rest m' push spawned where
  memory := hok
  conserves := hcons
  stable _ _ := hframe.stable
  push := hpush
  spawned := hspawned

theorem frame_refl (m : Mem) (ins : Instr) : Frame m m ins :=
  ⟨id, le_rfl, rfl, fun _ => ⟨rfl, rfl, rfl⟩, fun _ _ => id, .inl⟩

/-- A step that changes nothing and spawns nothing. -/
theorem goto_keeps (h : protocol.Enters m ins rest)
    (hcons : ∀ k, stackSum tokens push k = tokens ins k)
    (hpush : StackOk Relies m rest → StackOk Relies m (push ++ rest)) :
    protocol.Keeps m ins rest m push [] :=
  (frame_refl m ins).keeps h.memory (fun k => by simp [hcons k]) hpush fun l hl => by cases hl

namespace MemOk

theorem count_eq {w : StartCount} (hw : m.word = w.pack) (hlt : w.count < 2 ^ 27) :
    m.count = w.count := by
  unfold Mem.count
  rw [hw, StartCount.startPrerequisiteCount_pack hlt]

theorem stored_of_count (h : MemOk m) (hcount : 0 < m.count) : m.stored = true := by
  by_contra hno
  rw [Bool.not_eq_true] at hno
  unfold Mem.count at hcount
  rw [(h.unstored hno).1] at hcount
  exact absurd hcount (by decide)

theorem zeros_of_count (h : MemOk m) (hcount : 0 < m.count) : m.zeros = 0 := by
  rw [h.zeros, if_neg (by omega)]

theorem count_of_zeros (h : MemOk m) (hzeros : 0 < m.zeros) : m.count = 0 := by
  by_contra hno
  rw [h.zeros_of_count (by omega)] at hzeros
  omega

theorem open_of_count (h : MemOk m) (hcount : 0 < m.count) : m.done = false := by
  by_contra hdone
  rw [Bool.not_eq_false] at hdone
  have hpos := h.done hdone
  rw [h.zeros_of_count hcount] at hpos
  omega

end MemOk

/-- An instruction that holds units of the count finds them in the word. -/
theorem units_le (h : protocol.Enters m ins rest) : ins.units ≤ m.count := by
  have hcov : tokens ins .outstanding ≤ -balance m .outstanding := h.covered .outstanding
  simp only [tokens, balance] at hcov
  omega

/-- The right to run is held: `run` has not published the task. -/
theorem unpublished (h : protocol.Enters m ins rest) (hruns : ins.runs = true) :
    m.published = false := by
  have hcov : tokens ins .run ≤ -balance m .run := h.covered .run
  by_contra hpub
  rw [Bool.not_eq_false] at hpub
  simp [tokens, balance, hruns, hpub] at hcov

/-- Marks pushed above an instruction that holds a unit are in order. -/
theorem marks_ok {failure : Option FailureBit} {below : List Instr} (h : MemOk m)
    (hcount : 0 < m.count) (hunits : ∃ x ∈ below, 0 < x.units)
    (hbelow : StackOk Relies m below) : StackOk Relies m (marks failure ++ below) := by
  cases failure with
  | none => exact hbelow
  | some b => exact ⟨⟨h.stored_of_count hcount, fun _ => ⟨h.open_of_count hcount, hunits⟩⟩, hbelow⟩

theorem stackSum_marks (failure : Option FailureBit) (k : Right) :
    stackSum tokens (marks failure) k = match k with
      | .failure b => if b = .userCancelled then 0 else if failure = some b then 1 else 0
      | _ => 0 := by
  cases failure with
  | none => cases k <;> simp [marks]
  | some x =>
    cases k <;> simp [marks, tokens, Instr.runs, Instr.units, Instr.pending]

/-! ### run -/

theorem store_keeps {params : List Param} (h : protocol.Enters m (.store params) rest)
    (hstep : store m params = .next m' push spawned) :
    protocol.Keeps m (.store params) rest m' push spawned := by
  obtain ⟨hstored, hparams, hvars⟩ := h.relies
  obtain ⟨hword, hmarked, harcs, haccepted, hremoved, hpublished⟩ := h.memory.unstored hstored
  have hzero : m.count = 0 := by
    unfold Mem.count
    rw [hword]
    decide
  have hzeros : m.zeros = 0 := by
    rw [h.memory.zeros, hstored]
    rfl
  cases hstep
  have hcount : ({ m with word := BitVec.ofNat 32 startCountMask, stored := true } : Mem).count =
      startCountMask := by
    show (startPrerequisiteCount (BitVec.ofNat 32 startCountMask)).toNat = startCountMask
    decide
  refine Frame.keeps ?_ ?_ (fun k => ?_) (fun hrest => ?_) fun l hl => by cases hl
  · exact
      { stored := fun _ => rfl
        zeros := le_rfl
        params := rfl
        run := fun hno => by cases hno
        listed := fun _ _ => id
        done := .inl }
  · exact
      { word := by
          refine ⟨{ count := startCountMask }, ?_, by decide, fun b => ?_⟩
          · show BitVec.ofNat 32 startCountMask = _
            decide
          · show has { count := startCountMask } b = decide (0 < m.marked b)
            rw [hmarked b]
            cases b <;> rfl
        sum := fun _ => by
          rw [hcount]
          simp [hpublished, hremoved]
        unstored := fun hno => by cases hno
        fresh := fun hno => by cases hno
        setUp := fun hp => by
          rw [hpublished] at hp
          cases hp
        zeros := by
          rw [hcount, if_neg fun hz => absurd hz.2 (by decide)]
          exact hzeros
        decided := h.memory.decided
        skipped := h.memory.skipped
        arcs := h.memory.arcs
        done := h.memory.done }
  · cases k with
    | outstanding =>
      simp only [balance, tokens, hcount, hzero, stackSum_cons, stackSum_nil,
        threadSum_nil, Instr.units]
      simp
    | _ => simp [balance, tokens, Instr.runs, Instr.pending]
  · refine ⟨⟨rfl, haccepted, by omega, [], hparams.symm, ?_, ?_, fun source failure hp => by cases hp⟩,
      hrest⟩
    · simp [h.memory.fresh hstored]
    · simp [haccepted, h.memory.fresh hstored]

/-- One more argument is set up. -/
theorem SetUp.step {before : List Param} {p : Param} (h : SetUp m before)
    (hfound : m'.found.length = m.found.length + if p.isReader then 1 else 0)
    (haccepted : m'.accepted + m.found.count true = m.accepted + m'.found.count true +
      if p = .writer then 1 else 0)
    (hlisted : ∀ source failure, m.closed source = true ∨ (source, failure) ∈ m.arcs →
      m'.closed source = true ∨ (source, failure) ∈ m'.arcs)
    (hlast : ∀ source failure, p = .reader source failure →
      m'.closed source = true ∨ (source, failure) ∈ m'.arcs) : SetUp m' (before ++ [p]) where
  found := by
    rw [hfound, h.found, List.countP_append, List.countP_singleton]
  accepted := by
    have hsame := h.accepted
    rw [List.count_append, List.count_singleton]
    simp only [beq_iff_eq]
    omega
  listed source failure hp := by
    rcases List.mem_append.mp hp with hp | hp
    · exact hlisted source failure (h.listed source failure hp)
    · exact hlast source failure (List.mem_singleton.mp hp).symm

theorem setup_keeps {params : List Param} {count : ℕ}
    (h : protocol.Enters m (.setup params count) rest)
    (hstep : setup m params count = .next m' push spawned) :
    protocol.Keeps m (.setup params count) rest m' push spawned := by
  obtain ⟨hstored, haccepted, hvars, before, hbefore, hsetUp⟩ := h.relies
  have hpublished := unpublished h rfl
  have hunits : startCountMask - count ≤ m.count := units_le h
  have hunset : ∀ P : Prop, m.published = true → P := by
    intro P hp
    rw [hpublished] at hp
    cases hp
  have hunstored : ∀ P : Prop, m.stored = false → P := by
    intro P hno
    rw [hstored] at hno
    cases hno
  cases params with
  | nil =>
    rw [List.append_nil] at hbefore
    cases hstep
    refine goto_keeps h (fun k => ?_) fun hrest =>
      ⟨⟨hstored, haccepted, by omega, hbefore ▸ hsetUp⟩, hrest⟩
    cases k <;> simp [tokens, Instr.runs, Instr.units, Instr.pending, failures]
  | cons p params =>
    have hnext : m.params = (before ++ [p]) ++ params := by
      rw [hbefore, List.append_assoc, List.singleton_append]
    cases p with
    | plain =>
      have hsame : varCount (.plain :: params) = varCount params := by simp [varCount]
      have hstepped : SetUp m (before ++ [Param.plain]) :=
        hsetUp.step rfl rfl (fun _ _ => id) fun _ _ hp => by cases hp
      cases hstep
      refine goto_keeps h (fun k => ?_) fun hrest =>
        ⟨⟨hstored, haccepted, by rw [← hsame]; exact hvars, _, hnext, hstepped⟩, hrest⟩
      cases k <;> simp [tokens, Instr.runs, Instr.units, Instr.pending, failures]
    | writer =>
      have hmore : varCount (.writer :: params) = varCount params + 1 := by simp [varCount]
      have hstepped : SetUp { m with accepted := m.accepted + 1 } (before ++ [Param.writer]) := by
        refine hsetUp.step rfl ?_ (fun _ _ => id) fun _ _ hp => by cases hp
        simp only [if_true]
        omega
      cases hstep
      refine Frame.keeps ?_ ?_ (fun k => ?_) (fun hrest => ?_) fun l hl => ?_
      · exact ⟨id, le_rfl, rfl, fun hno => (by cases hno), fun _ _ => id, .inl⟩
      · exact
          { h.memory with
            sum := fun hs => by
              have hsum := h.memory.sum hs
              simp only [hpublished] at hsum ⊢
              exact hsum
            setUp := hunset _
            unstored := hunstored _ }
      · cases k with
        | outstanding =>
          simp only [balance, tokens, Mem.count, stackSum_cons, stackSum_nil,
            threadSum_cons, threadSum_nil, Instr.units]
          omega
        | _ => simp [balance, tokens, Instr.runs, Instr.pending, failures]
      · exact ⟨⟨hstored, by simp [haccepted], by omega, _, hnext, hstepped⟩, hrest⟩
      · obtain rfl := List.mem_singleton.mp hl
        exact ⟨trivial, trivial⟩
    | reader source failure =>
      have hmore : varCount (.reader source failure :: params) = varCount params + 1 := by
        simp [varCount]
      have hfailures : ∀ b, failures b (.reader source failure :: params) =
          failures b params + if failure = some b then 1 else 0 := by
        intro b
        simp [failures, List.countP_cons]
      unfold setup at hstep
      dsimp only at hstep
      split at hstep
      · -- the producer is complete
        rename_i hclosed
        have hstepped : SetUp { m with found := m.found ++ [!m.closed source] }
            (before ++ [Param.reader source failure]) := by
          refine hsetUp.step ?_ ?_ (fun _ _ => id) fun s f hp => ?_
          · simp [Param.isReader]
          · simp [hclosed]
          · cases hp
            exact .inl hclosed
        have hok : MemOk { m with found := m.found ++ [!m.closed source] } :=
          { h.memory with
            fresh := hunstored _
            setUp := hunset _ }
        cases hstep
        refine Frame.keeps ?_ hok (fun k => ?_) (fun hrest => ?_) fun l hl => by cases hl
        · exact ⟨id, le_rfl, rfl, fun hno => (by cases hno), fun _ _ => id, .inl⟩
        · rw [stackSum_append, stackSum_marks]
          cases k with
          | failure b =>
            by_cases hb : b = .userCancelled
            · simp [balance, tokens, hb]
            · simp only [balance, tokens, hb, if_false, stackSum_cons, stackSum_nil,
                threadSum_nil, Instr.pending, hfailures]
              push_cast
              omega
          | _ => simp [balance, tokens, Instr.runs, Instr.units, Mem.count]
        · rw [List.append_assoc]
          refine marks_ok hok (show 0 < m.count by omega) ⟨_, List.mem_cons_self, ?_⟩
            ⟨⟨hstored, haccepted, by omega, _, hnext, hstepped⟩, hrest⟩
          show 0 < startCountMask - count
          omega
      · rename_i hopen
        rw [Bool.not_eq_true] at hopen
        have hstepped : SetUp { m with
            found := m.found ++ [!m.closed source]
            arcs := (source, failure) :: m.arcs
            accepted := m.accepted + 1 } (before ++ [Param.reader source failure]) := by
          refine hsetUp.step ?_ ?_ (fun s f hp => ?_) fun s f hp => ?_
          · simp [Param.isReader]
          · simp [hopen]
            omega
          · exact hp.imp_right fun hmem => List.mem_cons_of_mem _ hmem
          · cases hp
            exact .inr List.mem_cons_self
        cases hstep
        refine Frame.keeps ?_ ?_ (fun k => ?_) (fun hrest => ?_) fun l hl => by cases hl
        · exact ⟨id, le_rfl, rfl, fun hno => (by cases hno),
            fun s f hp => hp.imp_right fun hmem => List.mem_cons_of_mem _ hmem, .inl⟩
        · exact
            { h.memory with
              sum := fun hs => by
                have hsum := h.memory.sum hs
                simp only [hpublished] at hsum ⊢
                exact hsum
              unstored := hunstored _
              fresh := hunstored _
              setUp := hunset _
              arcs := fun a ha => by
                rcases List.mem_cons.mp ha with rfl | ha
                · refine ⟨hopen, ?_⟩
                  rw [hbefore]
                  exact List.mem_append_right _ List.mem_cons_self
                · exact h.memory.arcs a ha }
        · cases k with
          | outstanding =>
            simp only [balance, tokens, Mem.count, stackSum_cons, stackSum_nil,
              threadSum_nil, Instr.units, List.length_cons]
            push_cast
            omega
          | failure b =>
            by_cases hb : b = .userCancelled
            · simp [balance, tokens, hb]
            · simp only [balance, tokens, hb, if_false, stackSum_cons, stackSum_nil,
                threadSum_nil, Instr.pending, hfailures, List.countP_cons, decide_eq_true_eq]
              push_cast
              omega
          | _ => simp [balance, tokens, Instr.runs]
        · exact ⟨⟨hstored, by simp [haccepted], by omega, _, hnext, hstepped⟩, hrest⟩

/-! ### remove_prerequisite -/

/-- What a call of `remove_prerequisite` leaves: the flags of the word are what they were, and the
call that finds the count at `n` dispatches the task by them. -/
structure Removed (m : Mem) (n : ℕ) (m' : Mem) (push : List Instr)
    (spawned : List (List Instr)) : Prop where
  same : ∃ word zeros skipped spawns,
    m' = { m with word := word, zeros := zeros, skipped := skipped, spawned := spawns }
  word : ∃ w : StartCount, m'.word = w.pack ∧ w.count < 2 ^ 27 ∧
    ∀ b, has w b = decide (0 < m.marked b)
  count : m'.count + n = m.count
  zeros : m'.zeros = if m'.count = 0 then 1 else 0
  decided : m'.zeros = m'.skipped + m'.spawned
  skipped : 0 < m'.zeros →
    (m'.skipped = 1 ↔ 0 < m.marked .dependencyCancelled ∨ 0 < m.marked .exception)
  push : push = [] ∨ push = [.complete] ∧ 0 < m'.zeros
  spawned : spawned = [] ∨ spawned = [[.complete]] ∧ 0 < m'.zeros

theorem removePrerequisite_removed {n : ℕ} {w : StartCount} (hn : n ≤ m.count)
    (hw : m.word = w.pack) (hlt : w.count < 2 ^ 27)
    (hhas : ∀ b, has w b = decide (0 < m.marked b))
    (hzeros : m.zeros = 0) (hdecided : m.zeros = m.skipped + m.spawned)
    (hstep : removePrerequisite m n = .next m' push spawned) : Removed m n m' push spawned := by
  have hcount : m.count = w.count := MemOk.count_eq hw hlt
  let w' : StartCount := { w with count := w.count - n }
  have hlt' : w'.count < 2 ^ 27 := lt_of_le_of_lt (Nat.sub_le _ _) hlt
  have hhas' : ∀ b, has w' b = decide (0 < m.marked b) := by
    intro b
    rw [← hhas b]
    cases b <;> rfl
  have hskips : w'.skips = true ↔
      0 < m.marked .dependencyCancelled ∨ 0 < m.marked .exception := by
    have hdependency := hhas' .dependencyCancelled
    have hexception := hhas' .exception
    simp only [has] at hdependency hexception
    simp [StartCount.skips, hdependency, hexception]
  have hleft : ∀ m₁ : Mem, m₁.word = w'.pack → m₁.count = m.count - n := by
    intro m₁ h₁
    rw [MemOk.count_eq h₁ hlt', hcount]
  have hnone : m.skipped = 0 ∧ m.spawned = 0 := by omega
  unfold removePrerequisite at hstep
  rw [hw, StartCount.removeWord_pack hlt] at hstep
  by_cases heq : w.count = n
  · have hlast : { w with count := 0 } = w' := by simp only [w', heq, Nat.sub_self]
    rw [StartCount.removePrerequisite_last heq, hlast] at hstep
    simp only [Option.map_some, StartCount.skipsWord_pack hlt'] at hstep
    split at hstep
    · rename_i hskip
      cases hstep
      have hzero := hleft { m with
        word := w'.pack, zeros := m.zeros + 1, skipped := m.skipped + 1 } rfl
      exact
        { same := ⟨_, _, _, _, rfl⟩
          word := ⟨w', rfl, hlt', hhas'⟩
          count := by omega
          zeros := by rw [hzero, if_pos (by omega)]; simp [hzeros]
          decided := by simp only; omega
          skipped := fun _ => by simp [hnone.1, ← hskips, hskip]
          push := .inr ⟨rfl, Nat.succ_pos _⟩
          spawned := .inl rfl }
    · rename_i hskip
      cases hstep
      have hzero := hleft { m with
        word := w'.pack, zeros := m.zeros + 1, spawned := m.spawned + 1 } rfl
      exact
        { same := ⟨_, _, _, _, rfl⟩
          word := ⟨w', rfl, hlt', hhas'⟩
          count := by omega
          zeros := by rw [hzero, if_pos (by omega)]; simp [hzeros]
          decided := by simp only; omega
          skipped := fun _ => by simp [hnone.1, ← hskips, hskip]
          push := .inl rfl
          spawned := .inr ⟨rfl, Nat.succ_pos _⟩ }
  · have hmany : w.removePrerequisite n = some (w', false) :=
      StartCount.removePrerequisite_left (by omega)
    rw [hmany, Option.map_some] at hstep
    dsimp only at hstep
    cases hstep
    have hmore := hleft { m with word := w'.pack } rfl
    exact
      { same := ⟨_, _, _, _, rfl⟩
        word := ⟨w', rfl, hlt', hhas'⟩
        count := by omega
        zeros := by rw [hmore, if_neg (by omega)]; exact hzeros
        decided := hdecided
        skipped := fun hpos => by simp only [hzeros] at hpos; omega
        push := .inl rfl
        spawned := .inl rfl }

theorem Removed.push_ok {n : ℕ} (h : Removed m n m' push spawned) (hrest : StackOk Relies m' rest) :
    StackOk Relies m' (push ++ rest) := by
  rcases h.push with rfl | ⟨rfl, hzeros⟩
  · exact hrest
  · exact ⟨hzeros, hrest⟩

theorem Removed.spawned_ok {n : ℕ} (h : Removed m n m' push spawned) :
    ∀ l ∈ spawned, StackOk Relies m' l := by
  intro l hl
  rcases h.spawned with rfl | ⟨rfl, hzeros⟩
  · cases hl
  · obtain rfl := List.mem_singleton.mp hl
    exact ⟨hzeros, trivial⟩

/-- The instructions a removal pushes hold no rights. -/
theorem Removed.no_tokens {n : ℕ} (h : Removed m n m' push spawned) (k : Right) :
    stackSum tokens push k = 0 ∧ threadSum tokens spawned k = 0 := by
  have hcomplete : tokens .complete k = 0 := by
    cases k <;> simp [tokens, Instr.runs, Instr.units, Instr.pending]
  constructor
  · rcases h.push with rfl | ⟨rfl, -⟩ <;> simp [hcomplete]
  · rcases h.spawned with rfl | ⟨rfl, -⟩ <;> simp [hcomplete]

theorem publish_keeps {count : ℕ} (h : protocol.Enters m (.publish count) rest)
    (hstep : removePrerequisite { m with published := true } (startCountMask - count) =
      .next m' push spawned) :
    protocol.Keeps m (.publish count) rest m' push spawned := by
  obtain ⟨hstored, haccepted, hlt, hsetUp⟩ := h.relies
  have hpublished := unpublished h rfl
  have hunits : startCountMask - count ≤ m.count := units_le h
  obtain ⟨w, hw, hcount, hhas⟩ := h.memory.word
  have hzeros := h.memory.zeros_of_count (by omega)
  have hsum := h.memory.sum hstored
  simp only [hpublished, Bool.false_eq_true, if_false] at hsum
  have hr := removePrerequisite_removed (m := { m with published := true }) hunits hw
    hcount hhas hzeros h.memory.decided hstep
  have hleft : m'.count + (startCountMask - count) = m.count := hr.count
  obtain ⟨word, zeros, skipped, spawns, hsame⟩ := hr.same
  dsimp only at hsame
  subst hsame
  refine Frame.keeps ?_ ?_ (fun k => ?_) hr.push_ok hr.spawned_ok
  · exact ⟨id, by rw [hzeros]; exact Nat.zero_le _, rfl, fun hno => (by cases hno),
      fun _ _ => id, .inl⟩
  · exact
      { word := hr.word
        sum := fun _ => by simp only [if_true]; omega
        unstored := fun hno => by rw [hstored] at hno; cases hno
        fresh := h.memory.fresh
        setUp := fun _ => hsetUp.stable rfl rfl fun _ _ => id
        zeros := by
          have hz := hr.zeros
          simp only [hstored, true_and] at hz ⊢
          exact hz
        decided := hr.decided
        skipped := hr.skipped
        arcs := h.memory.arcs
        done := fun hdone => by
          have hpos := h.memory.done hdone
          omega }
  · rw [(hr.no_tokens k).1, (hr.no_tokens k).2]
    cases k with
    | run => simp [balance, tokens, Instr.runs, hpublished]
    | outstanding => simp only [balance, tokens, Instr.units]; omega
    | _ => simp [balance, tokens, Instr.pending]

theorem remove_keeps (h : protocol.Enters m .removePrerequisite rest)
    (hstep : removePrerequisite { m with removed := m.removed + 1 } 1 = .next m' push spawned) :
    protocol.Keeps m .removePrerequisite rest m' push spawned := by
  have hunits : 1 ≤ m.count := units_le h
  have hstored := h.memory.stored_of_count hunits
  obtain ⟨w, hw, hcount, hhas⟩ := h.memory.word
  have hzeros := h.memory.zeros_of_count hunits
  have hsum := h.memory.sum hstored
  have hr := removePrerequisite_removed (m := { m with removed := m.removed + 1 }) hunits hw
    hcount hhas hzeros h.memory.decided hstep
  have hleft : m'.count + 1 = m.count := hr.count
  obtain ⟨word, zeros, skipped, spawns, hsame⟩ := hr.same
  dsimp only at hsame
  subst hsame
  refine Frame.keeps ?_ ?_ (fun k => ?_) hr.push_ok hr.spawned_ok
  · exact ⟨id, by rw [hzeros]; exact Nat.zero_le _, rfl, fun _ => ⟨rfl, rfl, rfl⟩,
      fun _ _ => id, .inl⟩
  · exact
      { word := hr.word
        sum := fun _ => by rw [← hsum]; simp only; omega
        unstored := fun hno => by rw [hstored] at hno; cases hno
        fresh := h.memory.fresh
        setUp := fun hp => (h.memory.setUp hp).stable rfl rfl fun _ _ => id
        zeros := by
          have hz := hr.zeros
          simp only [hstored, true_and] at hz ⊢
          exact hz
        decided := hr.decided
        skipped := hr.skipped
        arcs := h.memory.arcs
        done := fun hdone => by
          have hpos := h.memory.done hdone
          omega }
  · rw [(hr.no_tokens k).1, (hr.no_tokens k).2]
    cases k with
    | run => simp [balance, tokens, Instr.runs]
    | outstanding => simp only [balance, tokens, Instr.units]; omega
    | _ => simp [balance, tokens, Instr.pending]

/-! ### Producers -/

theorem close_keeps {source : ℕ} (h : protocol.Enters m (.close source) rest)
    (hstep : close m source = .next m' push spawned) :
    protocol.Keeps m (.close source) rest m' push spawned := by
  have hcov : tokens (.close source) (.source source) ≤ -balance m (.source source) :=
    h.covered (.source source)
  have hopen : source < m.sources ∧ m.closed source = false := by
    by_contra hno
    simp [tokens, balance, hno] at hcov
  have hlisted : ∀ s f, m.closed s = true ∨ (s, f) ∈ m.arcs →
      (if s = source then true else m.closed s) = true ∨
        (s, f) ∈ m.arcs.filter fun a => a.1 ≠ source := by
    intro s f hp
    by_cases hs : s = source
    · simp [hs]
    · simpa [hs] using hp
  cases hstep
  refine Frame.keeps ?_ ?_ (fun k => ?_) (fun hrest => ⟨trivial, hrest⟩) fun l hl => by cases hl
  · exact ⟨id, le_rfl, rfl, fun _ => ⟨rfl, rfl, rfl⟩, hlisted, .inl⟩
  · exact
      { h.memory with
        setUp := fun hp => (h.memory.setUp hp).stable rfl rfl hlisted
        unstored := fun hno => by
          obtain ⟨hword, hmarked, harcs, hrest⟩ := h.memory.unstored hno
          exact ⟨hword, hmarked, by simp [harcs], hrest⟩
        arcs := fun a ha => by
          obtain ⟨ha, hne⟩ := List.mem_filter.mp ha
          simp only [ne_eq, decide_eq_true_eq] at hne
          simp only [if_neg hne]
          exact h.memory.arcs a ha }
  · cases k with
    | outstanding =>
      have hlength := List.length_eq_length_filter_add (l := m.arcs) fun a => decide (a.1 ≠ source)
      simp only [ne_eq, decide_not, Bool.not_not] at hlength
      simp only [balance, tokens, Mem.count, stackSum_cons, stackSum_nil, threadSum_nil,
        Instr.units, List.length_map, ne_eq, decide_not]
      omega
    | failure b =>
      by_cases hb : b = .userCancelled
      · simp [balance, tokens, hb]
      · have hsplit := List.countP_eq_countP_filter_add m.arcs (fun a => decide (a.2 = some b))
          fun a => decide (a.1 ≠ source)
        have htaken : ((m.arcs.filter fun a => a.1 = source).map Prod.snd).count (some b) =
            (m.arcs.filter fun a => a.1 = source).countP fun a => a.2 = some b := by
          rw [List.count_eq_countP, List.countP_map]
          congr 1
          funext a
          rw [Bool.eq_iff_iff]
          simp
        simp only [ne_eq, decide_not, Bool.not_not] at hsplit
        simp only [balance, tokens, hb, if_false, stackSum_cons, stackSum_nil, threadSum_nil,
          Instr.pending, htaken, ne_eq, decide_not, hsplit]
        push_cast
        omega
    | source s =>
      by_cases hs : s = source
      · simp [balance, tokens, hs, hopen.1, hopen.2]
      · simp [balance, tokens, hs, Ne.symm hs]
    | run => simp [balance, tokens, Instr.runs]

theorem notify_keeps {r : List (Option FailureBit)} (h : protocol.Enters m (.notify r) rest)
    (hstep : notify m r = .next m' push spawned) :
    protocol.Keeps m (.notify r) rest m' push spawned := by
  cases r with
  | nil =>
    cases hstep
    refine goto_keeps h (fun k => ?_) id
    cases k <;> simp [tokens, Instr.runs, Instr.units, Instr.pending]
  | cons failure r =>
    have hunits : r.length + 1 ≤ m.count := units_le h
    cases hstep
    refine goto_keeps h (fun k => ?_) fun hrest => ?_
    · rw [stackSum_append, stackSum_marks]
      cases k with
      | failure b =>
        by_cases hb : b = .userCancelled
        · simp [tokens, hb]
        · simp only [tokens, hb, if_false, stackSum_cons, stackSum_nil, Instr.pending,
            List.count_cons, beq_iff_eq]
          push_cast
          omega
      | outstanding =>
        simp only [tokens, stackSum_cons, stackSum_nil, Instr.units, List.length_cons]
        push_cast
        omega
      | _ => simp [tokens, Instr.runs]
    · rw [List.append_assoc]
      refine marks_ok h.memory (by omega) ⟨.removePrerequisite, List.mem_cons_self, Nat.one_pos⟩ ?_
      exact ⟨trivial, trivial, hrest⟩

/-! ### mark_failure -/

/-- A mark that gives up was the user's. -/
theorem user_of_done {b : FailureBit} (h : Marks m b rest) (hdone : m.done = true) :
    b = .userCancelled := by
  by_contra hb
  rw [(h.2 hb).1] at hdone
  cases hdone

theorem mark_keeps {b : FailureBit} (h : protocol.Enters m (.mark b) rest)
    (hstep : mark m b = .next m' push spawned) :
    protocol.Keeps m (.mark b) rest m' push spawned := by
  have hmarks : Marks m b rest := h.relies
  cases hstep
  split
  · rename_i hdone
    obtain rfl := user_of_done hmarks hdone
    refine goto_keeps h (fun k => ?_) id
    cases k with
    | failure x =>
      by_cases hx : x = .userCancelled
      · simp [tokens, hx]
      · simp [tokens, Instr.pending, hx, Ne.symm hx]
    | _ => simp [tokens, Instr.runs, Instr.units]
  · refine goto_keeps h (fun k => ?_) fun hrest => ⟨hmarks, hrest⟩
    cases k <;> simp [tokens, Instr.runs, Instr.units, Instr.pending]

theorem markLoad_keeps {b : FailureBit} (h : protocol.Enters m (.markLoad b) rest) :
    protocol.Keeps m (.markLoad b) rest m [.markCheck b m.word] [] := by
  have hmarks : Marks m b rest := h.relies
  refine goto_keeps h (fun k => ?_) fun hrest => ⟨hmarks, hrest⟩
  cases k <;> simp [tokens, Instr.runs, Instr.units, Instr.pending]

theorem markCheck_keeps {b : FailureBit} {word : BitVec 32}
    (h : protocol.Enters m (.markCheck b word) rest)
    (hstep : markCheck m b word = .next m' push spawned) :
    protocol.Keeps m (.markCheck b word) rest m' push spawned := by
  have hmarks : Marks m b rest := h.relies
  cases hstep
  split
  · rename_i hdone
    obtain rfl := user_of_done hmarks hdone
    refine goto_keeps h (fun k => ?_) id
    cases k with
    | failure x =>
      by_cases hx : x = .userCancelled
      · simp [tokens, hx]
      · simp [tokens, Instr.pending, hx, Ne.symm hx]
    | _ => simp [tokens, Instr.runs, Instr.units]
  · refine goto_keeps h (fun k => ?_) fun hrest => ⟨hmarks, hrest⟩
    cases k <;> simp [tokens, Instr.runs, Instr.units, Instr.pending]

theorem has_mark (w : StartCount) (b x : FailureBit) :
    has (w.mark b) x = if x = b then true else has w x := by
  cases b <;> cases x <;> rfl

theorem markCas_keeps {spurious : Bool} {b : FailureBit} {word : BitVec 32}
    (h : protocol.Enters m (.markCas b word) rest)
    (hstep : markCas m spurious b word = .next m' push spawned) :
    protocol.Keeps m (.markCas b word) rest m' push spawned := by
  have hmarks : Marks m b rest := h.relies
  unfold markCas at hstep
  split at hstep
  · rename_i heq
    obtain ⟨w, hw, hlt, hhas⟩ := h.memory.word
    have hword : markWord word b = (w.mark b).pack := by
      rw [← heq.1, hw]
      exact StartCount.markWord_pack b hlt
    have hlt' : (w.mark b).count < 2 ^ 27 := by
      rw [StartCount.mark_count]
      exact hlt
    cases hstep
    have hcount : ∀ m₁ : Mem, m₁.word = markWord word b → m₁.count = m.count := by
      intro m₁ h₁
      rw [MemOk.count_eq (h₁.trans hword) hlt', StartCount.mark_count, MemOk.count_eq hw hlt]
    -- a counted bit is marked before its unit of the count is removed
    have hnone : b ≠ .userCancelled → m.zeros = 0 := by
      intro hb
      obtain ⟨-, x, hx, hunits⟩ := hmarks.2 hb
      have hcov : (0 : ℤ) + x.units ≤ -(m.arcs.length - m.count) := h.covered_below hx .outstanding
      apply h.memory.zeros_of_count
      omega
    refine Frame.keeps ?_ ?_ (fun k => ?_) id fun l hl => by cases hl
    · exact ⟨id, le_rfl, rfl, fun _ => ⟨rfl, rfl, rfl⟩, fun _ _ => id, .inl⟩
    · exact
        { word := ⟨w.mark b, hword, hlt', fun x => by
            rw [has_mark, hhas x]
            by_cases hx : x = b <;> simp [hx]⟩
          sum := fun hs => by
            rw [hcount _ rfl]
            exact h.memory.sum hs
          unstored := fun hno => by
            rw [hmarks.1] at hno
            cases hno
          fresh := h.memory.fresh
          setUp := fun hp => (h.memory.setUp hp).stable rfl rfl fun _ _ => id
          zeros := by
            rw [hcount _ rfl]
            exact h.memory.zeros
          decided := h.memory.decided
          skipped := fun hpos => by
            have hb : b = .userCancelled := by
              by_contra hb
              have hzero := hnone hb
              simp only [hzero] at hpos
              omega
            subst hb
            simpa using h.memory.skipped hpos
          arcs := h.memory.arcs
          done := h.memory.done }
    · cases k with
      | failure x =>
        by_cases hx : x = .userCancelled
        · simp [balance, tokens, hx]
        · simp only [balance, tokens, hx, if_false, stackSum_nil, threadSum_nil, Instr.pending]
          by_cases hxb : x = b
          · subst hxb
            simp
            omega
          · simp [hxb, Ne.symm hxb]
      | outstanding =>
        have hsame := hcount { m with
          word := markWord word b, marked := fun x => m.marked x + if x = b then 1 else 0 } rfl
        simp [balance, tokens, hsame, Instr.units]
      | _ => simp [balance, tokens, Instr.runs]
  · cases hstep
    refine goto_keeps h (fun k => ?_) fun hrest => ⟨hmarks, hrest⟩
    cases k <;> simp [tokens, Instr.runs, Instr.units, Instr.pending]

theorem complete_keeps (h : protocol.Enters m .complete rest) :
    protocol.Keeps m .complete rest { m with done := true } [] [] := by
  have hzeros : 0 < m.zeros := h.relies
  refine Frame.keeps ?_ ?_ (fun k => ?_) id fun l hl => by cases hl
  · exact ⟨id, le_rfl, rfl, fun _ => ⟨rfl, rfl, rfl⟩, fun _ _ => id,
      fun _ => .inr (h.memory.count_of_zeros hzeros)⟩
  · exact
      { h.memory with
        setUp := fun hp => (h.memory.setUp hp).stable rfl rfl fun _ _ => id
        done := fun _ => hzeros }
  · cases k <;> simp [balance, tokens, Instr.runs, Instr.units, Instr.pending, Mem.count]

theorem cancel_keeps (h : protocol.Enters m .cancel rest)
    (hstep : cancel m = .next m' push spawned) :
    protocol.Keeps m .cancel rest m' push spawned := by
  unfold cancel at hstep
  split at hstep
  · rename_i hpublished
    have hstored : m.stored = true := by
      by_contra hno
      rw [Bool.not_eq_true] at hno
      rw [(h.memory.unstored hno).2.2.2.2.2] at hpublished
      cases hpublished
    cases hstep
    refine goto_keeps h (fun k => ?_) fun hrest =>
      ⟨⟨hstored, fun hno => absurd rfl hno⟩, hrest⟩
    cases k with
    | failure x =>
      by_cases hx : x = .userCancelled
      · simp [tokens, hx]
      · simp [tokens, Instr.pending, hx, Ne.symm hx]
    | _ => simp [tokens, Instr.runs, Instr.units]
  · cases hstep

end Steps

/-- Every step keeps the protocol. -/
theorem keeps {m m' : Mem} {choice : Bool} {ins : Instr} {rest push : List Instr}
    {spawned : List (List Instr)} (h : protocol.Enters m ins rest)
    (hexec : exec m choice ins = .next m' push spawned) :
    protocol.Keeps m ins rest m' push spawned := by
  cases ins with
  | store params => exact store_keeps h hexec
  | setup params count => exact setup_keeps h hexec
  | bind count =>
    have hrelies := h.relies
    cases hexec
    refine goto_keeps h (fun k => ?_) fun hrest => ⟨hrelies, hrest⟩
    cases k <;> simp [tokens, Instr.runs, Instr.units, Instr.pending]
  | publish count => exact publish_keeps h hexec
  | close source => exact close_keeps h hexec
  | notify r => exact notify_keeps h hexec
  | removePrerequisite => exact remove_keeps h hexec
  | mark b => exact mark_keeps h hexec
  | markLoad b =>
    cases hexec
    exact markLoad_keeps h
  | markCheck b word => exact markCheck_keeps h hexec
  | markCas b word => exact markCas_keeps h hexec
  | complete =>
    cases hexec
    exact complete_keeps h
  | cancel => exact cancel_keeps h hexec

/-! ## Runs -/

theorem cancels_tokens (cancels : ℕ) (k : Right) :
    threadSum tokens (List.replicate cancels [Instr.cancel]) k = 0 := by
  induction cancels with
  | zero => rfl
  | succ n ih =>
    rw [List.replicate_succ, threadSum_cons, ih]
    cases k <;> simp [tokens, Instr.runs, Instr.units, Instr.pending]

theorem closes_tokens (sources : ℕ) (k : Right) :
    threadSum tokens ((List.range sources).map fun s => [Instr.close s]) k =
      match k with
      | .source s => if s < sources then 1 else 0
      | _ => 0 := by
  induction sources with
  | zero => cases k <;> simp
  | succ n ih =>
    rw [List.range_succ, List.map_append, threadSum_append, ih]
    cases k with
    | source s =>
      by_cases hs : s = n
      · simp [tokens, hs]
      · have hiff : s < n + 1 ↔ s < n := by omega
        simp [tokens, Ne.symm hs, hiff]
    | _ => simp [tokens, Instr.runs, Instr.units, Instr.pending]

/-- The protocol holds when `run` starts. -/
theorem start_holds {params : List Param} (sources cancels : ℕ)
    (hparams : varCount params < startCountMask) :
    protocol.Holds (start params sources cancels) where
  memory :=
    { word := ⟨{}, rfl, by decide, fun b => by cases b <;> rfl⟩
      sum := fun h => by cases h
      unstored := fun _ => ⟨rfl, fun _ => rfl, rfl, rfl, rfl, rfl⟩
      fresh := fun _ => rfl
      setUp := fun hp => by cases hp
      zeros := rfl
      decided := rfl
      skipped := fun h => by cases h
      arcs := fun a ha => by cases ha
      done := fun h => by cases h }
  law k := by
    have hthreads : threadSum protocol.tokens (start params sources cancels).threads k =
        tokens (.store params) k +
          threadSum tokens ((List.range sources).map fun s => [Instr.close s]) k := by
      simp only [start, protocol, List.cons_append, threadSum_cons, threadSum_append, stackSum_cons,
        stackSum_nil, cancels_tokens]
      ring
    rw [hthreads, closes_tokens]
    cases k with
    | failure b =>
      by_cases hb : b = .userCancelled
      · simp [start, protocol, balance, tokens, hb]
      · simp [start, protocol, balance, tokens, Instr.pending, hb]
    | source s => by_cases hs : s < sources <;> simp [start, protocol, balance, tokens, hs]
    | run => rfl
    | outstanding =>
      simp only [start, protocol, balance, tokens, Instr.units, Mem.count]
      decide
  relies l hl := by
    simp only [start, List.cons_append, List.mem_cons, List.mem_append, List.mem_map] at hl
    rcases hl with rfl | ⟨s, -, rfl⟩ | hl
    · exact ⟨⟨rfl, rfl, hparams⟩, trivial⟩
    · exact ⟨trivial, trivial⟩
    · rw [List.eq_of_mem_replicate hl]
      exact ⟨rfl, trivial⟩

theorem holds_of_reach {allowed : State → Turn → Prop} {params : List Param}
    {sources cancels : ℕ} {c : State} (hparams : varCount params < startCountMask)
    (hreach : Reach exec allowed (start params sources cancels) c) : protocol.Holds c :=
  Protocol.Holds.of_reach (start_holds sources cancels hparams)
    (fun _ _ _ _ _ _ _ _ _ _ hexec h => keeps h hexec) hreach

/-- The call's arguments and producers stay what they are. -/
theorem exec_constants {m m' : Mem} {choice : Bool} {ins : Instr} {push : List Instr}
    {spawned : List (List Instr)} (hexec : exec m choice ins = .next m' push spawned) :
    m'.params = m.params ∧ m'.sources = m.sources := by
  have hremove : ∀ (m₁ : Mem) {n : ℕ}, removePrerequisite m₁ n = .next m' push spawned →
      m'.params = m₁.params ∧ m'.sources = m₁.sources := by
    intro m₁ n hstep
    unfold removePrerequisite at hstep
    split at hstep
    · cases hstep
    · split at hstep <;> cases hstep <;> exact ⟨rfl, rfl⟩
    · cases hstep
      exact ⟨rfl, rfl⟩
  cases ins with
  | setup params count =>
    simp only [exec, setup] at hexec
    split at hexec
    · cases hexec
      exact ⟨rfl, rfl⟩
    · cases hexec
      exact ⟨rfl, rfl⟩
    · cases hexec
      exact ⟨rfl, rfl⟩
    · split at hexec <;> cases hexec <;> exact ⟨rfl, rfl⟩
  | publish count => exact hremove { m with published := true } hexec
  | removePrerequisite => exact hremove { m with removed := m.removed + 1 } hexec
  | notify r => cases r <;> cases hexec <;> exact ⟨rfl, rfl⟩
  | markCas b word =>
    simp only [exec, markCas] at hexec
    split at hexec <;> cases hexec <;> exact ⟨rfl, rfl⟩
  | cancel =>
    simp only [exec, cancel] at hexec
    split at hexec <;> cases hexec
    exact ⟨rfl, rfl⟩
  | _ =>
    cases hexec
    exact ⟨rfl, rfl⟩

theorem constants_of_reach {allowed : State → Turn → Prop} {params : List Param}
    {sources cancels : ℕ} {c : State}
    (hreach : Reach exec allowed (start params sources cancels) c) :
    c.mem.params = params ∧ c.mem.sources = sources := by
  apply hreach.invariant (I := fun c => c.mem.params = params ∧ c.mem.sources = sources)
    ⟨rfl, rfl⟩
  intro c c' e ih _ hstep
  obtain ⟨ins, rest, push, spawned, -, hexec, -⟩ := Config.step_cases hstep
  have hsame := exec_constants hexec
  exact ⟨hsame.1.trans ih.1, hsame.2.trans ih.2⟩

/-! ## The task is dispatched once -/

section Results

variable {c : State}

/-- No assertion fails: the counter never underflows. -/
theorem not_fault (h : protocol.Holds c) {ins : Instr} {rest : List Instr}
    (hl : ins :: rest ∈ c.threads) (choice : Bool) (cause : Fault) :
    exec c.mem choice ins ≠ .fault cause := by
  have hk := h.enters hl
  have hremove : ∀ (m₁ : Mem) (n : ℕ), m₁.word = c.mem.word → n ≤ c.mem.count →
      removePrerequisite m₁ n ≠ .fault cause := by
    intro m₁ n hword hn hfault
    unfold removePrerequisite at hfault
    have hsome : removeWord c.mem.word n =
        some (c.mem.word - BitVec.ofNat 32 n, c.mem.count == n) := if_neg (Nat.not_lt.mpr hn)
    rw [hword, hsome] at hfault
    split at hfault
    · rename_i hnone
      cases hnone
    · split at hfault <;> cases hfault
    · cases hfault
  intro hfault
  cases ins with
  | setup params count =>
    simp only [exec, setup] at hfault
    split at hfault
    · cases hfault
    · cases hfault
    · cases hfault
    · split at hfault <;> cases hfault
  | publish count =>
    exact hremove { c.mem with published := true } (startCountMask - count) rfl (units_le hk) hfault
  | removePrerequisite =>
    exact hremove { c.mem with removed := c.mem.removed + 1 } 1 rfl (units_le hk) hfault
  | notify r => cases r <;> cases hfault
  | markCas b word =>
    simp only [exec, markCas] at hfault
    split at hfault <;> cases hfault
  | cancel =>
    simp only [exec, cancel] at hfault
    split at hfault <;> cases hfault
  | _ => cases hfault

/-- Once the count is zero nobody holds a unit of it. -/
theorem nothing_outstanding (h : protocol.Holds c) (hzeros : 0 < c.mem.zeros) :
    c.mem.arcs = [] ∧ ∀ l ∈ c.threads, ∀ ins ∈ l, ins.units = 0 := by
  have hcount := h.memory.count_of_zeros hzeros
  have hlaw : protocol.balance c.mem .outstanding + threadSum protocol.tokens c.threads .outstanding = 0 :=
    h.law .outstanding
  have hnonneg : 0 ≤ threadSum protocol.tokens c.threads .outstanding :=
    threadSum_nonneg fun l _ ins _ => protocol.tokens_nonneg ins _
  simp only [protocol, balance, hcount] at hlaw hnonneg
  have hempty : c.mem.arcs.length = 0 := by omega
  refine ⟨List.length_eq_zero_iff.mp hempty, fun l hl ins hins => ?_⟩
  have hcov : (ins.units : ℤ) ≤ -(c.mem.arcs.length - c.mem.count) := h.covered hl hins .outstanding
  omega

/-- Once the count is zero every failure a producer published has been marked. -/
theorem marked_eq (h : protocol.Holds c) (hzeros : 0 < c.mem.zeros) {b : FailureBit}
    (hb : b ≠ .userCancelled) : c.mem.marked b = failures b c.mem.params := by
  obtain ⟨harcs, hunits⟩ := nothing_outstanding h hzeros
  have hstored : c.mem.stored = true := by
    by_contra hno
    rw [h.memory.zeros, if_neg fun hz => hno hz.1] at hzeros
    omega
  have hnone : ¬ 0 < threadSum protocol.tokens c.threads (.failure b) := by
    intro hpos
    obtain ⟨l, hl, ins, hins, hpos⟩ := exists_pos_of_threadSum_pos hpos
    simp only [protocol, tokens, hb, if_false] at hpos
    have hzero := hunits l hl ins hins
    obtain ⟨rest, hsuffix, hrelies⟩ := (h.relies l hl).exists_rest hins
    have hmarks : ∀ x, ¬ (Marks c.mem x rest ∧ x = b) := by
      rintro x ⟨hm, rfl⟩
      obtain ⟨-, y, hy, hunit⟩ := hm.2 hb
      have hy' := hunits l hl y (hsuffix.subset (List.mem_cons_of_mem _ hy))
      omega
    cases ins with
    | store params =>
      rw [hrelies.1] at hstored
      cases hstored
    | setup params count =>
      have hlt : count + varCount params < startCountMask := hrelies.2.2.1
      simp only [Instr.units] at hzero
      omega
    | notify r =>
      have hr : r = [] := List.length_eq_zero_iff.mp hzero
      simp [Instr.pending, hr] at hpos
    | mark x =>
      by_cases hx : x = b
      · exact hmarks x ⟨hrelies, hx⟩
      · simp [Instr.pending, hx] at hpos
    | markLoad x =>
      by_cases hx : x = b
      · exact hmarks x ⟨hrelies, hx⟩
      · simp [Instr.pending, hx] at hpos
    | markCheck x word =>
      by_cases hx : x = b
      · exact hmarks x ⟨hrelies, hx⟩
      · simp [Instr.pending, hx] at hpos
    | markCas x word =>
      by_cases hx : x = b
      · exact hmarks x ⟨hrelies, hx⟩
      · simp [Instr.pending, hx] at hpos
    | _ => simp [Instr.pending] at hpos
  have hlaw : protocol.balance c.mem (.failure b) +
      threadSum protocol.tokens c.threads (.failure b) = 0 := h.law (.failure b)
  have hnonneg : 0 ≤ threadSum protocol.tokens c.threads (.failure b) :=
    threadSum_nonneg fun l _ ins _ => protocol.tokens_nonneg ins _
  simp only [protocol, balance, hb, if_false, harcs, List.countP_nil] at hlaw hnone hnonneg
  push_cast at hlaw
  omega

/-- The count reaches zero only after the publication. -/
theorem published_of_zeros (h : protocol.Holds c) (hzeros : 0 < c.mem.zeros) :
    c.mem.published = true := by
  by_contra hno
  rw [Bool.not_eq_true] at hno
  have howed : protocol.balance c.mem .run < 0 := by
    simp [protocol, balance, hno]
  obtain ⟨l, hl, ins, hins, hpos⟩ := h.exists_holder howed
  have hunits := (nothing_outstanding h hzeros).2 l hl ins hins
  obtain ⟨rest, -, hrelies⟩ := (h.relies l hl).exists_rest hins
  cases ins with
  | store params =>
    rw [h.memory.zeros, if_neg fun hz => absurd (hz.1.symm.trans hrelies.1) (by decide)] at hzeros
    omega
  | setup params count =>
    have hlt : count + varCount params < startCountMask := hrelies.2.2.1
    simp only [Instr.units] at hunits
    omega
  | bind count =>
    have hlt : count < startCountMask := hrelies.2.2.1
    simp only [Instr.units] at hunits
    omega
  | publish count =>
    have hlt : count < startCountMask := hrelies.2.2.1
    simp only [Instr.units] at hunits
    omega
  | _ => simp [protocol, tokens, Instr.runs] at hpos

/-- The units of the count on a stack without `run` instructions are the removals on it; a stack
that cannot move holds nothing. -/
theorem stuck_top (h : protocol.Holds c) (hstuck : c.Stuck exec) {ins : Instr} {rest : List Instr}
    (hl : ins :: rest ∈ c.threads) : ins = .cancel ∧ rest = [] ∧ c.mem.published = false := by
  have hblocked := (hstuck.top hl).resolve_right fun ⟨cause, hfault⟩ =>
    not_fault h hl false cause hfault
  have hremove : ∀ (m₁ : Mem) {n : ℕ}, removePrerequisite m₁ n ≠ .blocked := by
    intro m₁ n hb
    unfold removePrerequisite at hb
    split at hb
    · cases hb
    · split at hb <;> cases hb
    · cases hb
  cases ins with
  | cancel =>
    simp only [exec, cancel] at hblocked
    split at hblocked
    · cases hblocked
    · rename_i hno
      exact ⟨rfl, (h.enters hl).relies, by simpa using hno⟩
  | setup params count =>
    simp only [exec, setup] at hblocked
    split at hblocked
    · cases hblocked
    · cases hblocked
    · cases hblocked
    · split at hblocked <;> cases hblocked
  | publish count =>
    exact absurd hblocked (hremove { c.mem with published := true })
  | removePrerequisite =>
    exact absurd hblocked (hremove { c.mem with removed := c.mem.removed + 1 })
  | notify r => cases r <;> cases hblocked
  | markCas b word =>
    simp only [exec, markCas] at hblocked
    split at hblocked <;> cases hblocked
  | _ => cases hblocked

/-- When nothing can run and every producer completed, the task was dispatched. -/
theorem zeros_of_stuck (h : protocol.Holds c) (hstuck : c.Stuck exec)
    (hsources : ∀ source failure, .reader source failure ∈ c.mem.params → source < c.mem.sources) :
    0 < c.mem.zeros := by
  have hstacks : ∀ l ∈ c.threads, ∀ ins ∈ l, ins = .cancel := by
    intro l hl ins hins
    cases l with
    | nil => cases hins
    | cons x rest =>
      obtain ⟨hx, hrest, -⟩ := stuck_top h hstuck hl
      subst hx hrest
      simpa using hins
  have hnone : ∀ k, ¬ protocol.balance c.mem k < 0 := by
    intro k howed
    obtain ⟨l, hl, ins, hins, hpos⟩ := h.exists_holder howed
    obtain rfl := hstacks l hl ins hins
    cases k <;> simp [protocol, tokens, Instr.runs, Instr.units, Instr.pending] at hpos
  have hpublished : c.mem.published = true := by
    have hrun := hnone .run
    by_contra hno
    simp [protocol, balance, hno] at hrun
  have hstored : c.mem.stored = true := by
    by_contra hno
    rw [Bool.not_eq_true] at hno
    rw [(h.memory.unstored hno).2.2.2.2.2] at hpublished
    cases hpublished
  have harcs : c.mem.arcs = [] := by
    apply List.eq_nil_iff_forall_not_mem.mpr
    intro a ha
    obtain ⟨hopen, hparam⟩ := h.memory.arcs a ha
    have hsource := hnone (.source a.1)
    simp [protocol, balance, hopen, hsources _ _ hparam] at hsource
  have hcount : c.mem.count = 0 := by
    have hout := hnone .outstanding
    simp only [protocol, balance, harcs, List.length_nil] at hout
    omega
  rw [h.memory.zeros, if_pos ⟨hstored, hcount⟩]
  exact Nat.one_pos

/-- Some producer publishes an exception or a dependency failure to the task. -/
def PublishesFailure (params : List Param) : Prop :=
  ∃ source b, Param.reader source (some b) ∈ params ∧ b ≠ .userCancelled

theorem publishesFailure_iff (params : List Param) : PublishesFailure params ↔
    0 < failures .dependencyCancelled params ∨ 0 < failures .exception params := by
  have hpos : ∀ b, 0 < failures b params ↔ ∃ source, Param.reader source (some b) ∈ params := by
    intro b
    unfold failures
    rw [List.countP_pos_iff]
    constructor
    · rintro ⟨p, hp, hb⟩
      cases p with
      | reader source failure =>
        obtain rfl : failure = some b := by simpa using hb
        exact ⟨source, hp⟩
      | _ => simp at hb
    · rintro ⟨source, hp⟩
      exact ⟨_, hp, by simp⟩
  rw [hpos, hpos]
  constructor
  · rintro ⟨source, b, hp, hb⟩
    cases b with
    | dependencyCancelled => exact .inl ⟨source, hp⟩
    | userCancelled => exact absurd rfl hb
    | exception => exact .inr ⟨source, hp⟩
  · rintro (⟨source, hp⟩ | ⟨source, hp⟩)
    · exact ⟨source, _, hp, by decide⟩
    · exact ⟨source, _, hp, by decide⟩

/-- What `run` and the producers of its arguments do to `start_count`, in any configuration. -/
structure DispatchedOnce (params : List Param) (sources : ℕ) (c : State) : Prop where
  /-- no subtraction underflows the counter. -/
  noFault : ∀ l ∈ c.threads, ∀ ins rest, l = ins :: rest →
    ∀ choice cause, exec c.mem choice ins ≠ .fault cause
  /-- the word is exactly the count and the marked bits; while the task is set up the count is the
  guard less the removals, after the publication what `setup` counted less the removals. -/
  word : ∃ w : StartCount, c.mem.word = w.pack ∧ w.count < 2 ^ 27 ∧
    (∀ b, has w b = decide (0 < c.mem.marked b)) ∧
    (c.mem.stored = true →
      w.count + c.mem.removed = if c.mem.published then c.mem.accepted else startCountMask)
  /-- what `setup` returned is the number of prerequisites it has registered. -/
  returned : ∀ l ∈ c.threads, ∀ count, .bind count ∈ l → c.mem.accepted = count
  /-- at most one call sees the count reach zero. -/
  once : c.mem.zeros ≤ 1
  /-- it does so after the publication and all prerequisites, of which `setup` returned the
  number; none is left. -/
  last : c.mem.zeros = 1 → c.mem.published = true ∧ c.mem.removed = c.mem.accepted ∧
    c.mem.arcs = [] ∧ ∀ l ∈ c.threads, ∀ ins ∈ l, ins.units = 0
  /-- these are the writers and the readers that `setup` found the producer of open; by now all
  producers have completed. -/
  counted : c.mem.zeros = 1 → c.mem.found.length = params.countP Param.isReader ∧
    c.mem.accepted = params.count .writer + c.mem.found.count true ∧
    ∀ source failure, Param.reader source failure ∈ params → c.mem.closed source = true
  /-- it skips the task if a producer published an exception or dependency bit, else spawns it. -/
  decision : c.mem.zeros = 1 →
    (c.mem.skipped = 1 ∧ c.mem.spawned = 0 ∧ PublishesFailure params) ∨
    (c.mem.skipped = 0 ∧ c.mem.spawned = 1 ∧ ¬ PublishesFailure params)
  /-- when nothing can run and all producers completed, one call has seen zero. -/
  final : c.Stuck exec → (∀ source failure, Param.reader source failure ∈ params → source < sources) →
    c.mem.zeros = 1

/-- With fewer var arguments than the guard, a task is dispatched exactly once, by the failures
its producers published. -/
theorem dispatchedOnce {allowed : State → Turn → Prop} {params : List Param}
    {sources cancels : ℕ} (hparams : varCount params < 2 ^ 27 - 1)
    (hreach : Reach exec allowed (start params sources cancels) c) :
    DispatchedOnce params sources c := by
  have h := holds_of_reach hparams hreach
  obtain ⟨hcall, hproducers⟩ := constants_of_reach hreach
  have honce : c.mem.zeros ≤ 1 := by
    rw [h.memory.zeros]
    split_ifs <;> omega
  refine
    { noFault := fun l hl ins rest heq choice cause => ?_
      word := ?_
      returned := fun l hl count hins => ?_
      once := honce
      last := fun hone => ?_
      counted := fun hone => ?_
      decision := fun hone => ?_
      final := fun hstuck hsources => ?_ }
  · subst heq
    exact not_fault h hl choice cause
  · obtain ⟨w, hw, hlt, hhas⟩ := h.memory.word
    refine ⟨w, hw, hlt, hhas, fun hstored => ?_⟩
    rw [← MemOk.count_eq hw hlt]
    exact h.memory.sum hstored
  · obtain ⟨rest, -, hrelies⟩ := (h.relies l hl).exists_rest hins
    exact hrelies.2.1
  · have hzeros : 0 < c.mem.zeros := by omega
    obtain ⟨harcs, hunits⟩ := nothing_outstanding h hzeros
    have hpublished := published_of_zeros h hzeros
    have hstored : c.mem.stored = true := by
      by_contra hno
      rw [h.memory.zeros, if_neg fun hz => hno hz.1] at hzeros
      omega
    have hsum := h.memory.sum hstored
    rw [h.memory.count_of_zeros hzeros, hpublished, if_pos rfl] at hsum
    exact ⟨hpublished, by omega, harcs, hunits⟩
  · have hzeros : 0 < c.mem.zeros := by omega
    have hsetUp := h.memory.setUp (published_of_zeros h hzeros)
    rw [hcall] at hsetUp
    refine ⟨hsetUp.found, hsetUp.accepted, fun source failure hp => ?_⟩
    refine (hsetUp.listed source failure hp).resolve_right fun hmem => ?_
    rw [(nothing_outstanding h hzeros).1] at hmem
    cases hmem
  · have hzeros : 0 < c.mem.zeros := by omega
    have hskipped := h.memory.skipped hzeros
    have hdecided := h.memory.decided
    rw [marked_eq h hzeros (by decide), marked_eq h hzeros (by decide), hcall,
      ← publishesFailure_iff] at hskipped
    by_cases hfails : PublishesFailure params
    · have hone' := hskipped.mpr hfails
      exact .inl ⟨hone', by omega, hfails⟩
    · have hne : c.mem.skipped ≠ 1 := fun heq => hfails (hskipped.mp heq)
      exact .inr ⟨by omega, by omega, hfails⟩
  · have hzeros : 0 < c.mem.zeros := by
      apply zeros_of_stuck h hstuck
      rw [hcall, hproducers]
      exact hsources
    omega

end Results

/-- A run with two readers of a producer that fails, and a writer. -/
theorem dispatchedOnce_three : ∃ c,
    Reach exec (fun _ _ => True)
      (start [.reader 0 (some .exception), .plain, .writer, .reader 0 (some .exception)] 1 1) c ∧
    c.mem.skipped = 1 ∧
    DispatchedOnce [.reader 0 (some .exception), .plain, .writer, .reader 0 (some .exception)] 1 c := by
  obtain ⟨c, hreach, hc⟩ := Reach.exists_of_run exec
    (start [.reader 0 (some .exception), .plain, .writer, .reader 0 (some .exception)] 1 1)
    (rounds [(0, 4), (1, 5), (3, 1), (0, 5), (1, 4), (0, 3)])
    (fun c => decide (c.mem.skipped = 1)) (by decide)
  exact ⟨c, hreach, of_decide_eq_true hc, dispatchedOnce (by decide) hreach⟩

end Oox.Dispatch
