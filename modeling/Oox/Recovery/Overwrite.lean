import Oox.Recovery.Writer

/-!
# A failed version can be overwritten

When the storage is where `consume` looks for it, the task runs once, on the last stored value, and
if it succeeds everybody who uses the var afterwards gets its value. The handover of the slot is
taken from `Oox.Handover`, whose protocol the slot's part of every configuration keeps.
-/

set_option autoImplicit false

namespace Oox.Recovery

open Library

/-! ## The slot -/

/-- The part of the program that works on the failed version's slot. -/
def slotPart (V : Type) : Part (Mem V) Instr Handover.Mem Handover.Instr where
  memory m := m.slot
  instr
    | .slot ins => some ins
    | .produce => some .storeCountdown
    | _ => none

/-- What an operation on the slot changes of it: its count of notifications, and that the
countdown is armed. -/
theorem slot_step {m m' : Handover.Mem} {choice : Bool} {ins : Handover.Instr}
    {push : List Handover.Instr} {spawned : List (List Handover.Instr)}
    (hexec : Handover.exec m choice ins = .next m' push spawned) :
    m'.out.notified = m.out.notified + (if ins = .notifyNextWriter then 1 else 0) ∧
      m'.out.armed = (m.out.armed || decide (ins = .storeCountdown)) := by
  cases ins <;> simp only [Handover.exec, Handover.storeCountdown, OutputNode.arm, Handover.closeList,
    Handover.notifyArcs, Handover.outLoad, Handover.outCas_eq, Handover.removeBackArc_eq,
    Handover.notifyNextWriter, Handover.register, Handover.increment_eq, Handover.install_eq] at hexec <;>
    (repeat' split at hexec) <;> cases hexec <;> simp

/-- The slot is not armed twice. -/
theorem slot_pushes {m m' : Handover.Mem} {choice : Bool} {ins : Handover.Instr}
    {push : List Handover.Instr} {spawned : List (List Handover.Instr)}
    (hexec : Handover.exec m choice ins = .next m' push spawned) :
    (∀ x ∈ push, x ≠ .storeCountdown) ∧ ∀ l ∈ spawned, ∀ x ∈ l, x ≠ .storeCountdown := by
  cases ins <;> simp only [Handover.exec, Handover.storeCountdown, OutputNode.arm, Handover.closeList,
    Handover.notifyArcs, Handover.outLoad, Handover.outCas_eq, Handover.removeBackArc_eq,
    Handover.notifyNextWriter, Handover.register, Handover.increment_eq, Handover.install_eq] at hexec <;>
    (repeat' split at hexec) <;> cases hexec <;> simp

section Steps

variable {V : Type}

@[simp] theorem slotPart_stack_slot (l : List Handover.Instr) :
    (slotPart V).stack (l.map .slot) = l := by
  induction l with
  | nil => rfl
  | cons x l ih => exact congrArg (x :: ·) ih

@[simp] theorem slotPart_stack_use (l : List Use) :
    (slotPart V).stack (l.map Use.instr) = [] := by
  induction l with
  | nil => rfl
  | cons u l ih =>
    cases u <;> exact ih

variable {m m' : Mem V} {choice : Bool} {ins : Instr} {rest push : List Instr}
variable {spawned : List (List Instr)}

theorem slotStep_cases {x : Handover.Instr} (hstep : slotStep m choice x = .next m' push spawned) :
    ∃ s push₁ spawned₁, Handover.exec m.slot choice x = .next s push₁ spawned₁ ∧
      m' = { m with slot := s } ∧
      push = push₁.map .slot ++ (if x = .notifyNextWriter then [Instr.removePrerequisite] else []) ∧
      spawned = spawned₁.map fun l => l.map .slot := by
  unfold slotStep at hstep
  split at hstep
  · rename_i s push₁ spawned₁ hexec
    cases hstep
    exact ⟨s, push₁, spawned₁, hexec, rfl, rfl, rfl⟩
  · cases hstep
  · cases hstep

variable [Inhabited V] {v : Version V} {body : V → V × Bool}

/-- Every step is an operation on the slot, or leaves it alone. -/
theorem follows (hstep : exec v body m choice ins = .next m' push spawned) :
    (slotPart V).Follows Handover.exec m choice ins m' push spawned := by
  cases ins with
  | slot x =>
    obtain ⟨s, push₁, spawned₁, hexec, rfl, rfl, rfl⟩ := slotStep_cases hstep
    refine .inl ⟨x, rfl, ?_⟩
    have hpush : (slotPart V).stack (push₁.map .slot ++
        if x = .notifyNextWriter then [Instr.removePrerequisite] else []) = push₁ := by
      rw [Part.stack_append, slotPart_stack_slot]
      split <;> exact List.append_nil push₁
    have hspawned : (spawned₁.map fun l => l.map Instr.slot).map (slotPart V).stack = spawned₁ := by
      rw [List.map_map]
      exact (List.map_congr_left fun l _ => slotPart_stack_slot l).trans (List.map_id spawned₁)
    rw [hpush, hspawned]
    exact hexec
  | later uses =>
    cases hstep
    refine .inr ⟨rfl, rfl, fun l hl => ?_⟩
    obtain ⟨l', -, rfl⟩ := List.mem_map.mp hl
    exact slotPart_stack_use l'
  | notifyArcs n failed =>
    refine .inr ?_
    cases n with
    | zero =>
      cases hstep
      exact ⟨rfl, rfl, fun l hl => by cases hl⟩
    | succ n =>
      cases hstep
      refine ⟨rfl, rfl, fun l hl => ?_⟩
      rw [List.mem_singleton.mp hl]
      rfl
  | removePrerequisite =>
    refine .inr ?_
    simp only [exec, removePrerequisite] at hstep
    (repeat' split at hstep) <;> cases hstep
    · exact ⟨rfl, rfl, fun l hl => by cases hl⟩
    · refine ⟨rfl, rfl, fun l hl => ?_⟩
      rw [List.mem_singleton.mp hl]
      rfl
    · exact ⟨rfl, rfl, fun l hl => by cases hl⟩
  | _ =>
    refine .inr ?_
    simp only [exec, produce, execute, invoke, finish, closeList, register, hasFailure, consume, wait,
      status, follow] at hstep
    (repeat' split at hstep) <;> cases hstep
    all_goals exact ⟨rfl, rfl, fun l hl => by cases hl⟩

end Steps

/-! ## The protocol -/

inductive Right where
  /-- to produce the version and arm its slot. -/
  | produce
  /-- a prerequisite of the task. -/
  | prerequisite
  /-- to run the task and close its list. -/
  | run
  /-- a later use of the var. -/
  | use
  deriving DecidableEq, Repr

namespace Instr

def produces : Instr → Bool
  | .produce => true
  | .slot .storeCountdown => true
  | _ => false

def runs : Instr → Bool
  | .execute => true
  | .invoke => true
  | .finish => true
  | .closeList => true
  | _ => false

def uses : Instr → ℕ
  | .later uses => (uses.map List.length).sum
  | .notifyArcs n _ => n
  | .register => 1
  | .hasFailure => 1
  | .consume _ => 1
  | .wait _ => 1
  | .status _ => 1
  | .follow => 1
  | _ => 0

/-- A step of a later use. -/
def isUse : Instr → Bool
  | .register => true
  | .hasFailure => true
  | .consume _ => true
  | .wait _ => true
  | .status _ => true
  | .follow => true
  | _ => false

end Instr

def tokens (ins : Instr) : Right → ℤ
  | .produce => if ins.produces then 1 else 0
  | .prerequisite => if ins = .removePrerequisite then 1 else 0
  | .run => if ins.runs then 1 else 0
  | .use => ins.uses

section Protocol

variable {V : Type} [Inhabited V]

def balance (m : Mem V) : Right → ℤ
  | .produce => if m.slot.out.armed then 0 else -1
  | .prerequisite => 1 - m.slot.out.notified - m.word.count
  | .run => if m.word.count = 0 ∧ m.closed = false then -1 else 0
  | .use => m.observed.length + m.arcs - m.total

/-- The task's body has run on the last stored value. -/
structure Done (v : Version V) (body : V → V × Bool) (m : Mem V) : Prop where
  runs : m.runs = 1
  cell : m.cell = some (body v.input).1
  failed : m.failed = (body v.input).2

/-- A later use got what the task left. -/
def Sees (v : Version V) (body : V → V × Bool) (o : Observation V) : Prop :=
  o = .ready ∨ o = .value (body v.input).1

structure MemOk (v : Version V) (body : V → V × Bool) (m : Mem V) : Prop where
  before : m.runs = 0 → m.given = none ∧ m.failed = false
  produced : m.slot.out.armed = true → m.runs = 0 → m.cell = v.last
  once : m.runs ≤ 1
  started : 0 < m.runs → m.slot.out.armed = true ∧ m.word.count = 0 ∧ m.given = some v.input
  closed : m.closed = true → Done v body m ∧ m.arcs = 0
  observed : (body v.input).2 = false → ∀ o ∈ m.observed, Sees v body o

def Relies (v : Version V) (body : V → V × Bool) (m : Mem V) : Instr → Prop
  | .produce => m.cell = v.stored
  | .slot .storeCountdown => m.cell = v.last
  | .execute => m.runs = 0
  | .invoke => m.runs = 0
  | .finish => m.runs = 1 ∧ m.failed = false
  | .closeList => Done v body m
  | .notifyArcs _ failed => m.closed = true ∧ failed = m.failed
  | .hasFailure => m.closed = true
  | .consume failed => m.closed = true ∧ failed = m.failed
  | .status _ => m.closed = true
  | .follow => m.closed = true ∧ m.failed = false
  | _ => True

def recovery (v : Version V) (body : V → V × Bool) : Protocol (Mem V) Instr Right where
  balance := balance
  tokens := tokens
  memory := MemOk v body
  relies m ins rest := Relies v body m ins ∧ (ins.isUse = true → ∀ x ∈ rest, x.isUse = true)
  tokens_nonneg ins k := by
    cases k with
    | use => exact Int.natCast_nonneg _
    | _ =>
      simp only [tokens]
      split_ifs <;> decide

/-- What the slot guarantees at any time. -/
structure SlotOk (m : Mem V) : Prop where
  once : m.slot.out.notified ≤ 1
  armed : 0 < m.slot.out.notified → m.slot.out.armed = true

end Protocol

/-! ## Steps -/

section Steps

variable {V : Type} {m m' : Mem V} {choice : Bool} {ins : Instr} {rest push : List Instr}
variable {spawned : List (List Instr)}

theorem runs_of_together {other : Instr} (hother : other.runs = true)
    (hwith : Together balance tokens m ins other) : ins.runs = false := by
  have hk := hwith .run
  by_contra hins
  rw [Bool.not_eq_false] at hins
  simp only [tokens, hins, hother, if_true, balance] at hk
  split_ifs at hk <;> omega

theorem produces_of_together {other : Instr} (hother : other.produces = true)
    (hwith : Together balance tokens m ins other) :
    ins.produces = false ∧ m.slot.out.armed = false := by
  have hk := hwith .produce
  simp only [tokens, hother, if_true, balance] at hk
  cases hins : ins.produces <;> cases harmed : m.slot.out.armed <;>
    simp [hins, harmed] at hk ⊢

variable [Inhabited V] {v : Version V} {body : V → V × Bool}

/-- What a step must leave alone for the sake of the other threads. -/
structure Frame (v : Version V) (body : V → V × Bool) (m m' : Mem V) (ins : Instr) : Prop where
  running : ins.runs = true → m.slot.out.armed = true
  cell : ins.runs = false → ins.produces = false → m'.cell = m.cell
  alone : ins.runs = false → m'.runs = m.runs ∧ m'.failed = m.failed
  done : ins.runs = false → Done v body m → Done v body m'
  closed : m.closed = true → m'.closed = true ∧ m'.failed = m.failed

theorem Frame.stable {other : Instr} (hframe : Frame v body m m' ins) (h : Relies v body m other)
    (hwith : Together balance tokens m ins other) : Relies v body m' other := by
  have hruns : other.runs = true → ins.runs = false := fun hother => runs_of_together hother hwith
  have hcell : other.produces = true → m'.cell = m.cell := by
    intro hother
    obtain ⟨hproduces, harmed⟩ := produces_of_together hother hwith
    have hquiet : ins.runs = false := by
      by_contra hins
      rw [hframe.running ((Bool.not_eq_false _).mp hins)] at harmed
      cases harmed
    exact hframe.cell hquiet hproduces
  cases other with
  | produce => exact (hcell rfl).trans h
  | slot x =>
    cases x with
    | storeCountdown => exact (hcell rfl).trans h
    | _ => trivial
  | execute => exact (hframe.alone (hruns rfl)).1.trans h
  | invoke => exact (hframe.alone (hruns rfl)).1.trans h
  | finish =>
    obtain ⟨hsame, hfailed⟩ := hframe.alone (hruns rfl)
    exact ⟨hsame.trans h.1, hfailed.trans h.2⟩
  | closeList => exact hframe.done (hruns rfl) h
  | notifyArcs n failed =>
    obtain ⟨hclosed, hfailed⟩ := hframe.closed h.1
    exact ⟨hclosed, h.2.trans hfailed.symm⟩
  | hasFailure => exact (hframe.closed h).1
  | consume failed =>
    obtain ⟨hclosed, hfailed⟩ := hframe.closed h.1
    exact ⟨hclosed, h.2.trans hfailed.symm⟩
  | status get => exact (hframe.closed h).1
  | follow =>
    obtain ⟨hclosed, hfailed⟩ := hframe.closed h.1
    exact ⟨hclosed, hfailed.trans h.2⟩
  | _ => trivial

/-- Instructions put on a stack in order; uses are put on uses. -/
theorem stackOk_append {l : List Instr} (hpush : ∀ x ∈ push, Relies v body m x)
    (huse : ∀ x ∈ push, x.isUse = true → (∀ y ∈ push, y.isUse = true) ∧ ∀ y ∈ l, y.isUse = true)
    (hrest : StackOk (recovery v body).relies m l) :
    StackOk (recovery v body).relies m (push ++ l) := by
  induction push with
  | nil => exact hrest
  | cons x push ih =>
    refine ⟨⟨hpush x List.mem_cons_self, fun hx y hy => ?_⟩, ?_⟩
    · obtain ⟨hall, hl⟩ := huse x List.mem_cons_self hx
      rcases List.mem_append.mp hy with hy | hy
      · exact hall y (List.mem_cons_of_mem x hy)
      · exact hl y hy
    · refine ih (fun y hy => hpush y (List.mem_cons_of_mem x hy)) fun y hy hyes => ?_
      obtain ⟨hall, hl⟩ := huse y (List.mem_cons_of_mem x hy) hyes
      exact ⟨fun z hz => hall z (List.mem_cons_of_mem x hz), hl⟩

/-- A step keeps the protocol when it keeps the memory in order, leaves alone what others rely
on, and pushes in order. -/
theorem Frame.keeps (hframe : Frame v body m m' ins) (h : (recovery v body).Enters m ins rest)
    (hok : MemOk v body m') (hcons : Conserves balance tokens m ins m' push spawned)
    (hpush : ∀ x ∈ push, Relies v body m' x)
    (huse : ins.isUse = true ∧ (∀ x ∈ push, x.isUse = true) ∨ ∀ x ∈ push, x.isUse = false)
    (hspawned : ∀ l ∈ spawned, ∀ x ∈ l, Relies v body m' x)
    (hspawnedUse : ∀ l ∈ spawned, (∀ x ∈ l, x.isUse = true) ∨ ∀ x ∈ l, x.isUse = false) :
    (recovery v body).Keeps m ins rest m' push spawned where
  memory := hok
  conserves := hcons
  stable other _ hrelies hwith :=
    ⟨hframe.stable hrelies.1 (hwith other List.mem_cons_self), hrelies.2⟩
  push hrest := by
    refine stackOk_append hpush (fun x hx hyes => ?_) hrest
    rcases huse with ⟨hins, hall⟩ | hnone
    · exact ⟨hall, h.relies.2 hins⟩
    · rw [hnone x hx] at hyes
      cases hyes
  spawned l hl := by
    have hl' : StackOk (recovery v body).relies m' (l ++ []) := by
      refine stackOk_append (hspawned l hl) (fun x hx hyes => ?_) trivial
      rcases hspawnedUse l hl with hall | hnone
      · exact ⟨hall, fun y hy => by cases hy⟩
      · rw [hnone x hx] at hyes
        cases hyes
    rwa [List.append_nil] at hl'

/-- A step that leaves the task and its result alone. -/
theorem frame_of_same (hruns : ins.runs = false) (hcell : m'.cell = m.cell)
    (hsame : m'.runs = m.runs) (hfailed : m'.failed = m.failed) (hclosed : m'.closed = m.closed) :
    Frame v body m m' ins where
  running h := by
    rw [hruns] at h
    cases h
  cell _ _ := hcell
  alone _ := ⟨hsame, hfailed⟩
  done _ h := ⟨hsame.trans h.runs, hcell.trans h.cell, hfailed.trans h.failed⟩
  closed h := ⟨hclosed.trans h, hfailed⟩

theorem tokens_of_isUse {x : Instr} (hx : x.isUse = true) (k : Right) :
    tokens x k = if k = .use then 1 else 0 := by
  cases x <;> cases k <;> first | rfl | cases hx

theorem stackSum_of_isUse (hpush : ∀ x ∈ push, x.isUse = true) (k : Right) :
    stackSum tokens push k = if k = .use then (push.length : ℤ) else 0 := by
  induction push with
  | nil => cases k <;> rfl
  | cons x push ih =>
    rw [stackSum_cons, tokens_of_isUse (hpush x List.mem_cons_self),
      ih fun y hy => hpush y (List.mem_cons_of_mem x hy), List.length_cons]
    split_ifs
    · push_cast
      omega
    · rfl

/-- A step of a later use: it may put an arc on the open list, or record what it observed. -/
theorem use_keeps {arcs : ℕ} {observed : List (Observation V)}
    (h : (recovery v body).Enters m ins rest) (hins : ins.isUse = true)
    (hcount : observed.length + arcs + push.length = m.observed.length + m.arcs + 1)
    (harcs : m.closed = true → arcs = 0)
    (hobserved : (body v.input).2 = false → ∀ o ∈ observed, Sees v body o)
    (hpush : ∀ x ∈ push, Relies v body m x ∧ x.isUse = true) :
    (recovery v body).Keeps m ins rest { m with arcs := arcs, observed := observed } push [] := by
  have hruns : ins.runs = false := by
    cases ins <;> first | rfl | cases hins
  have hsame : ∀ x, Relies v body m x →
      Relies v body { m with arcs := arcs, observed := observed } x := by
    intro x hx
    cases x with
    | closeList => exact { hx with }
    | slot y => cases y <;> exact hx
    | _ => exact hx
  have hok := h.memory
  have hframe : Frame v body m { m with arcs := arcs, observed := observed } ins :=
    frame_of_same hruns rfl rfl rfl rfl
  refine hframe.keeps h ?_ (fun k => ?_) (fun x hx => hsame x (hpush x hx).1)
    (.inl ⟨hins, fun x hx => (hpush x hx).2⟩) (fun l hl => by cases hl) fun l hl => by cases hl
  · exact
      { before := hok.before
        produced := hok.produced
        once := hok.once
        started := hok.started
        closed := fun hclosed => ⟨{ (hok.closed hclosed).1 with }, harcs hclosed⟩
        observed := hobserved }
  · rw [stackSum_of_isUse fun x hx => (hpush x hx).2, tokens_of_isUse hins, threadSum_nil]
    cases k with
    | use =>
      simp only [balance, if_true]
      omega
    | _ => simp [balance]

/-- What a later use may observe is recorded. -/
theorem observe_keeps {o : Observation V} (h : (recovery v body).Enters m ins rest)
    (hins : ins.isUse = true) (ho : (body v.input).2 = false → Sees v body o) :
    (recovery v body).Keeps m ins rest (m.observe o) [] [] := by
  have hobserved : (body v.input).2 = false → ∀ o' ∈ o :: m.observed, Sees v body o' := by
    intro hgood o' ho'
    rcases List.mem_cons.mp ho' with rfl | ho'
    · exact ho hgood
    · exact h.memory.observed hgood o' ho'
  have hcount : (o :: m.observed).length + m.arcs + ([] : List Instr).length =
      m.observed.length + m.arcs + 1 := by
    simp only [List.length_cons, List.length_nil]
    omega
  exact use_keeps h hins hcount (fun hclosed => (h.memory.closed hclosed).2) hobserved
    fun x hx => by cases hx

/-- A later use goes on. -/
theorem go_keeps {next : Instr} (h : (recovery v body).Enters m ins rest)
    (hins : ins.isUse = true) (hnext : next.isUse = true) (hrelies : Relies v body m next) :
    (recovery v body).Keeps m ins rest m [next] [] := by
  have hpush : ∀ x ∈ [next], Relies v body m x ∧ x.isUse = true := by
    intro x hx
    obtain rfl := List.mem_singleton.mp hx
    exact ⟨hrelies, hnext⟩
  exact use_keeps h hins rfl (fun hclosed => (h.memory.closed hclosed).2) h.memory.observed hpush

/-! ### The slot and its producer -/

/-- Before the version's producer completes, the task has not run. -/
theorem unarmed (h : (recovery v body).Enters m ins rest) (hins : ins.produces = true) :
    m.slot.out.armed = false ∧ m.runs = 0 ∧ m.closed = false := by
  have hcovered : tokens ins .produce ≤ -balance m .produce := h.covered .produce
  have harmed : m.slot.out.armed = false := by
    cases harmed : m.slot.out.armed with
    | false => rfl
    | true => simp [tokens, hins, balance, harmed] at hcovered
  have hruns : m.runs = 0 := by
    by_contra hne
    have hyes := (h.memory.started (Nat.pos_of_ne_zero hne)).1
    rw [harmed] at hyes
    cases hyes
  refine ⟨harmed, hruns, ?_⟩
  by_contra hclosed
  rw [Bool.not_eq_false] at hclosed
  have hone := (h.memory.closed hclosed).1.runs
  omega

theorem stackSum_slot {l : List Handover.Instr} (hl : ∀ x ∈ l, x ≠ .storeCountdown) (k : Right) :
    stackSum tokens (l.map .slot) k = 0 := by
  induction l with
  | nil => cases k <;> rfl
  | cons x l ih =>
    have hx := hl x List.mem_cons_self
    rw [List.map_cons, stackSum_cons, ih fun y hy => hl y (List.mem_cons_of_mem x hy)]
    cases k with
    | produce =>
      cases x with
      | storeCountdown => exact absurd rfl hx
      | _ => rfl
    | _ => rfl

theorem threadSum_slot {ls : List (List Handover.Instr)}
    (hls : ∀ l ∈ ls, ∀ x ∈ l, x ≠ .storeCountdown) (k : Right) :
    threadSum tokens (ls.map fun l => l.map .slot) k = 0 := by
  induction ls with
  | nil => rfl
  | cons l ls ih =>
    rw [List.map_cons, threadSum_cons, stackSum_slot (hls l List.mem_cons_self),
      ih fun l' hl' => hls l' (List.mem_cons_of_mem l hl'), zero_add]

theorem relies_slot {x : Handover.Instr} (hx : x ≠ .storeCountdown) :
    Relies v body m (.slot x) := by
  cases x with
  | storeCountdown => exact absurd rfl hx
  | _ => trivial

/-- An operation on the slot. -/
theorem slot_keeps {x : Handover.Instr} (h : (recovery v body).Enters m (.slot x) rest)
    (hstep : slotStep m choice x = .next m' push spawned) :
    (recovery v body).Keeps m (.slot x) rest m' push spawned := by
  obtain ⟨s, push₁, spawned₁, hexec, rfl, rfl, rfl⟩ := slotStep_cases hstep
  obtain ⟨hnotified, harmed⟩ := slot_step hexec
  obtain ⟨hpush₁, hspawned₁⟩ := slot_pushes hexec
  have hok := h.memory
  have hframe : Frame v body m { m with slot := s } (.slot x) :=
    frame_of_same rfl rfl rfl rfl rfl
  refine hframe.keeps h ?_ (fun k => ?_) (fun y hy => ?_) (.inr fun y hy => ?_)
    (fun l hl y hy => ?_) fun l hl => .inr fun y hy => ?_
  · exact
      { before := hok.before
        produced := by
          intro hyes hruns
          by_cases hx : x = .storeCountdown
          · subst hx
            exact h.relies.1
          · rw [show s.out.armed = m.slot.out.armed by simpa [hx] using harmed] at hyes
            exact hok.produced hyes hruns
        once := hok.once
        started := by
          intro hruns
          obtain ⟨hyes, hcount, hgiven⟩ := hok.started hruns
          exact ⟨by rw [harmed, hyes]; rfl, hcount, hgiven⟩
        closed := fun hclosed => ⟨{ (hok.closed hclosed).1 with }, (hok.closed hclosed).2⟩
        observed := hok.observed }
  · rw [stackSum_append, stackSum_slot hpush₁, threadSum_slot hspawned₁]
    cases k with
    | produce =>
      have hnone : stackSum tokens
          (if x = .notifyNextWriter then [.removePrerequisite] else []) .produce = 0 := by
        split <;> rfl
      rw [hnone]
      by_cases hx : x = .storeCountdown
      · subst hx
        have hfalse := (unarmed h rfl).1
        simp [balance, tokens, Instr.produces, harmed, hfalse]
      · have hsame : s.out.armed = m.slot.out.armed := by simpa [hx] using harmed
        have hzero : tokens (.slot x) .produce = 0 := by
          cases x with
          | storeCountdown => exact absurd rfl hx
          | _ => rfl
        rw [hzero]
        simp only [balance, hsame, add_zero]
    | prerequisite =>
      by_cases hx : x = .notifyNextWriter
      · simp [hx, balance, tokens, hnotified]
        omega
      · simp [hx, balance, tokens, hnotified]
    | run => split <;> simp [balance, tokens, Instr.runs]
    | use => split <;> simp [balance, tokens, Instr.uses]
  · rcases List.mem_append.mp hy with hy | hy
    · obtain ⟨z, hz, rfl⟩ := List.mem_map.mp hy
      exact relies_slot (hpush₁ z hz)
    · split at hy
      · obtain rfl := List.mem_singleton.mp hy
        trivial
      · cases hy
  · rcases List.mem_append.mp hy with hy | hy
    · obtain ⟨z, -, rfl⟩ := List.mem_map.mp hy
      rfl
    · split at hy
      · obtain rfl := List.mem_singleton.mp hy
        rfl
      · cases hy
  · obtain ⟨l', hl', rfl⟩ := List.mem_map.mp hl
    obtain ⟨z, hz, rfl⟩ := List.mem_map.mp hy
    exact relies_slot (hspawned₁ l' hl' z hz)
  · obtain ⟨l', -, rfl⟩ := List.mem_map.mp hl
    obtain ⟨z, -, rfl⟩ := List.mem_map.mp hy
    rfl

/-- The producer stores its value. -/
theorem produce_keeps (h : (recovery v body).Enters m .produce rest) :
    (recovery v body).Keeps m .produce rest { m with cell := v.stores.or m.cell }
      [.slot .storeCountdown] [] := by
  obtain ⟨harmed, hruns, hclosed⟩ := unarmed h rfl
  have hok := h.memory
  have hstored : m.cell = v.stored := h.relies.1
  have hframe : Frame v body m { m with cell := v.stores.or m.cell } .produce :=
    { running := fun hins => by cases hins
      cell := fun _ hins => by cases hins
      alone := fun _ => ⟨rfl, rfl⟩
      done := fun _ hdone => by
        have hone := hdone.runs
        omega
      closed := fun hyes => by
        rw [hclosed] at hyes
        cases hyes }
  refine hframe.keeps h ?_ (fun k => ?_) (fun x hx => ?_) (.inr fun x hx => ?_)
    (fun l hl => by cases hl) fun l hl => by cases hl
  · exact
      { before := hok.before
        produced := fun hyes => by
          rw [harmed] at hyes
          cases hyes
        once := hok.once
        started := fun hpos => by
          rw [hruns] at hpos
          cases hpos
        closed := fun hyes => by
          rw [hclosed] at hyes
          cases hyes
        observed := hok.observed }
  · cases k <;> simp [balance, tokens, Instr.produces, Instr.runs, Instr.uses]
  · obtain rfl := List.mem_singleton.mp hx
    show v.stores.or m.cell = v.last
    rw [hstored]
    rfl
  · rw [List.mem_singleton.mp hx]
    rfl

/-! ### The task -/

/-- While the task has not closed its list after its last prerequisite, the slot is armed. -/
theorem running (h : (recovery v body).Enters m ins rest) (hs : SlotOk m) (hins : ins.runs = true) :
    m.word.count = 0 ∧ m.closed = false ∧ m.slot.out.armed = true := by
  have hrun : tokens ins .run ≤ -balance m .run := h.covered .run
  have hprerequisite : tokens ins .prerequisite ≤ -balance m .prerequisite :=
    h.covered .prerequisite
  have hnonneg : 0 ≤ tokens ins .prerequisite := (recovery v body).tokens_nonneg ins .prerequisite
  simp only [tokens, hins, if_true, balance] at hrun
  have hopen : m.word.count = 0 ∧ m.closed = false := by
    by_contra hno
    rw [if_neg hno] at hrun
    omega
  simp only [balance] at hprerequisite
  exact ⟨hopen.1, hopen.2, hs.armed (by omega)⟩

theorem removePrerequisite_keeps (h : (recovery v body).Enters m .removePrerequisite rest)
    (hs : SlotOk m) (hstep : removePrerequisite m = .next m' push spawned) :
    (recovery v body).Keeps m .removePrerequisite rest m' push spawned := by
  have hcovered : tokens .removePrerequisite .prerequisite ≤ -balance m .prerequisite :=
    h.covered .prerequisite
  have hone := hs.once
  simp only [tokens, balance, if_true] at hcovered
  have hok := h.memory
  have hruns : m.runs = 0 := by
    by_contra hne
    have hzero := (hok.started (Nat.pos_of_ne_zero hne)).2.1
    omega
  have hfailed := (hok.before hruns).2
  have hclosed : m.closed = false := by
    by_contra hyes
    rw [Bool.not_eq_false] at hyes
    have honce := (hok.closed hyes).1.runs
    omega
  let w : StartCount := { m.word with count := m.word.count - 1 }
  have hframe : Frame v body m { m with word := w } .removePrerequisite :=
    frame_of_same rfl rfl rfl rfl rfl
  have hmemory : MemOk v body { m with word := w } :=
    { before := hok.before
      produced := hok.produced
      once := hok.once
      started := fun hpos => by
        rw [hruns] at hpos
        cases hpos
      closed := fun hyes => by
        rw [hclosed] at hyes
        cases hyes
      observed := hok.observed }
  have hcount : ((m.word.count - 1 : ℕ) : ℤ) = m.word.count - 1 := by omega
  have hruns' : w.skips = false := by
    cases hskips : w.skips with
    | false => rfl
    | true => exact (StartCount.failed_of_skips hskips).symm.trans hfailed
  unfold removePrerequisite at hstep
  by_cases hlast : m.word.count = 1
  · have hremove : m.word.removePrerequisite 1 = some (w, true) := by
      rw [StartCount.removePrerequisite_last hlast]
      simp only [w, hlast, Nat.sub_self]
    simp only [hremove, hruns', Bool.false_eq_true, if_false] at hstep
    cases hstep
    refine hframe.keeps h hmemory (fun k => ?_) (fun x hx => by cases hx)
      (.inr fun x hx => by cases hx) (fun l hl x hx => ?_) fun l hl => .inr fun x hx => ?_
    · cases k with
      | prerequisite =>
        simp [balance, tokens, hcount, w]
        omega
      | run => simp [balance, tokens, Instr.runs, hlast, hclosed, w]
      | _ => simp [balance, tokens, Instr.produces, Instr.uses]
    · obtain rfl := List.mem_singleton.mp hl
      obtain rfl := List.mem_singleton.mp hx
      exact hruns
    · obtain rfl := List.mem_singleton.mp hl
      obtain rfl := List.mem_singleton.mp hx
      rfl
  · have hremove : m.word.removePrerequisite 1 = some (w, false) :=
      StartCount.removePrerequisite_left (by omega)
    simp only [hremove] at hstep
    cases hstep
    refine hframe.keeps h hmemory (fun k => ?_) (fun x hx => by cases hx)
      (.inr fun x hx => by cases hx) (fun l hl => by cases hl) fun l hl => by cases hl
    cases k with
    | prerequisite =>
      simp [balance, tokens, hcount, w]
      omega
    | run =>
      have hpos : m.word.count ≠ 0 := by omega
      have hleft : m.word.count - 1 ≠ 0 := by omega
      simp [balance, tokens, Instr.runs, hpos, hleft, w]
    | _ => simp [balance, tokens, Instr.produces, Instr.uses]

/-- A step of the running task that goes on with the task. -/
theorem run_keeps {next : Instr} (h : (recovery v body).Enters m ins rest) (hs : SlotOk m)
    (hins : ins.runs = true) (hnext : next.runs = true) (hcount : m'.word.count = m.word.count)
    (hclosed : m'.closed = m.closed) (hslot : m'.slot = m.slot) (harcs : m'.arcs = m.arcs)
    (htotal : m'.total = m.total) (hobserved : m'.observed = m.observed) (hok : MemOk v body m')
    (hrelies : Relies v body m' next) :
    (recovery v body).Keeps m ins rest m' [next] [] := by
  obtain ⟨-, hopen, harmed⟩ := running h hs hins
  have hframe : Frame v body m m' ins :=
    { running := fun _ => harmed
      cell := fun hno => by
        rw [hins] at hno
        cases hno
      alone := fun hno => by
        rw [hins] at hno
        cases hno
      done := fun hno => by
        rw [hins] at hno
        cases hno
      closed := fun hyes => by
        rw [hopen] at hyes
        cases hyes }
  have htokens : ∀ {x : Instr}, x.runs = true → ∀ k, tokens x k = if k = .run then 1 else 0 := by
    intro x hx k
    cases x <;> cases k <;> first | rfl | cases hx
  refine hframe.keeps h hok (fun k => ?_) (fun x hx => ?_) (.inr fun x hx => ?_)
    (fun l hl => by cases hl) fun l hl => by cases hl
  · have hbalance : balance m' k = balance m k := by
      cases k <;> simp only [balance, hcount, hclosed, hslot, harcs, htotal, hobserved]
    rw [hbalance, stackSum_cons, stackSum_nil, threadSum_nil, htokens hins, htokens hnext]
    omega
  · obtain rfl := List.mem_singleton.mp hx
    exact hrelies
  · obtain rfl := List.mem_singleton.mp hx
    cases x <;> first | rfl | cases hnext

theorem execute_keeps (h : (recovery v body).Enters m .execute rest) (hs : SlotOk m)
    (hstep : execute m = .next m' push spawned) :
    (recovery v body).Keeps m .execute rest m' push spawned := by
  unfold execute at hstep
  rw [(h.memory.before h.relies.1).2] at hstep
  cases hstep
  exact run_keeps h hs rfl rfl rfl rfl rfl rfl rfl rfl h.memory h.relies.1

/-- The task consumes the last stored value. -/
theorem invoke_keeps (hgood : v.misdirected = none) (h : (recovery v body).Enters m .invoke rest)
    (hs : SlotOk m) (hstep : invoke v m = .next m' push spawned) :
    (recovery v body).Keeps m .invoke rest m' push spawned := by
  obtain ⟨hcount, hopen, harmed⟩ := running h hs rfl
  have hok := h.memory
  have hcell : m.cell.getD default = v.input := by
    rw [hok.produced harmed h.relies.1]
    rfl
  have hruns : m.runs = 0 := h.relies.1
  unfold invoke at hstep
  rw [hgood] at hstep
  cases hstep
  refine run_keeps h hs rfl rfl rfl rfl rfl rfl rfl rfl ?_
    ⟨congrArg Nat.succ hruns, (hok.before hruns).2⟩
  exact
    { before := fun hzero => by cases hzero
      produced := fun _ hzero => by cases hzero
      once := by
        show m.runs + 1 ≤ 1
        omega
      started := fun _ => ⟨harmed, hcount, congrArg some hcell⟩
      closed := fun hyes => by
        rw [hopen] at hyes
        cases hyes
      observed := hok.observed }

theorem finish_keeps (h : (recovery v body).Enters m .finish rest) (hs : SlotOk m)
    (hstep : finish body m = .next m' push spawned) :
    (recovery v body).Keeps m .finish rest m' push spawned := by
  obtain ⟨-, hopen, -⟩ := running h hs rfl
  have hok := h.memory
  obtain ⟨hruns, hfine⟩ : m.runs = 1 ∧ m.failed = false := h.relies.1
  have hstarted := hok.started (by omega)
  have hcount : (if (body v.input).2 then m.word.mark .exception else m.word).count =
      m.word.count := by
    split_ifs
    · exact StartCount.mark_count _ _
    · rfl
  have hfailed : (if (body v.input).2 then m.word.mark .exception else m.word).failed =
      (body v.input).2 := by
    cases (body v.input).2 with
    | true => exact StartCount.mark_failed _ _
    | false => exact hfine
  unfold finish at hstep
  rw [hstarted.2.2] at hstep
  cases hstep
  refine run_keeps h hs rfl rfl hcount rfl rfl rfl rfl rfl ?_ ⟨hruns, rfl, hfailed⟩
  exact
    { before := fun hzero => by
        rw [show m.runs = 0 from hzero] at hruns
        cases hruns
      produced := fun _ hzero => by
        rw [show m.runs = 0 from hzero] at hruns
        cases hruns
      once := hok.once
      started := fun _ => ⟨hstarted.1, hcount.trans hstarted.2.1, rfl⟩
      closed := fun hyes => by
        rw [hopen] at hyes
        cases hyes
      observed := hok.observed }

/-- The task closes its list. -/
theorem closeList_keeps (h : (recovery v body).Enters m .closeList rest) (hs : SlotOk m)
    (hstep : closeList m = .next m' push spawned) :
    (recovery v body).Keeps m .closeList rest m' push spawned := by
  obtain ⟨hcount, hopen, harmed⟩ := running h hs rfl
  have hok := h.memory
  have hdone : Done v body m := h.relies.1
  unfold closeList at hstep
  rw [hopen] at hstep
  cases hstep
  have hframe : Frame v body m { m with arcs := 0, closed := true } .closeList :=
    { running := fun _ => harmed
      cell := fun hno => by cases hno
      alone := fun hno => by cases hno
      done := fun hno => by cases hno
      closed := fun _ => ⟨rfl, rfl⟩ }
  refine hframe.keeps h ?_ (fun k => ?_) (fun x hx => ?_) (.inr fun x hx => ?_)
    (fun l hl => by cases hl) fun l hl => by cases hl
  · exact
      { before := hok.before
        produced := hok.produced
        once := hok.once
        started := hok.started
        closed := fun _ => ⟨{ hdone with }, rfl⟩
        observed := hok.observed }
  · cases k with
    | run => simp [balance, tokens, Instr.runs, hcount, hopen]
    | use =>
      simp [balance, tokens, Instr.uses]
      omega
    | _ => simp [balance, tokens, Instr.produces]
  · obtain rfl := List.mem_singleton.mp hx
    exact ⟨rfl, rfl⟩
  · rw [List.mem_singleton.mp hx]
    rfl

/-! ### Later uses -/

/-- A reader on the list is told whether the task failed. -/
theorem notifyArcs_keeps {n : ℕ} {failed : Bool}
    (h : (recovery v body).Enters m (.notifyArcs n failed) rest)
    (hstep : notifyArcs m failed n = .next m' push spawned) :
    (recovery v body).Keeps m (.notifyArcs n failed) rest m' push spawned := by
  obtain ⟨hclosed, hfailed⟩ := h.relies.1
  have hframe : Frame v body m m (.notifyArcs n failed) := frame_of_same rfl rfl rfl rfl rfl
  cases n with
  | zero =>
    cases hstep
    refine hframe.keeps h h.memory (fun k => ?_) (fun x hx => by cases hx)
      (.inr fun x hx => by cases hx) (fun l hl => by cases hl) fun l hl => by cases hl
    cases k <;> simp [tokens, Instr.produces, Instr.runs, Instr.uses]
  | succ n =>
    cases hstep
    refine hframe.keeps h h.memory (fun k => ?_) (fun x hx => ?_) (.inr fun x hx => ?_)
      (fun l hl x hx => ?_) fun l hl => .inl fun x hx => ?_
    · cases k <;> simp [tokens, Instr.produces, Instr.runs, Instr.uses]
      omega
    · obtain rfl := List.mem_singleton.mp hx
      exact ⟨hclosed, hfailed⟩
    · obtain rfl := List.mem_singleton.mp hx
      rfl
    · obtain rfl := List.mem_singleton.mp hl
      obtain rfl := List.mem_singleton.mp hx
      exact ⟨hclosed, hfailed⟩
    · obtain rfl := List.mem_singleton.mp hl
      obtain rfl := List.mem_singleton.mp hx
      rfl

@[simp] theorem isUse_instr (u : Use) : u.instr.isUse = true := by
  cases u <;> rfl

theorem threadSum_uses (uses : List (List Use)) (k : Right) :
    threadSum tokens (uses.map fun l => l.map Use.instr) k =
      if k = .use then ((uses.map List.length).sum : ℤ) else 0 := by
  induction uses with
  | nil => cases k <;> rfl
  | cons l uses ih =>
    have hall : ∀ x ∈ l.map Use.instr, x.isUse = true := by
      intro x hx
      obtain ⟨u, -, rfl⟩ := List.mem_map.mp hx
      exact isUse_instr u
    rw [List.map_cons, threadSum_cons, ih, stackSum_of_isUse hall, List.length_map, List.map_cons,
      List.sum_cons]
    split_ifs
    · push_cast
      rfl
    · rfl

theorem later_keeps {uses : List (List Use)}
    (h : (recovery v body).Enters m (.later uses) rest) :
    (recovery v body).Keeps m (.later uses) rest m [] (uses.map fun l => l.map Use.instr) := by
  have hframe : Frame v body m m (.later uses) := frame_of_same rfl rfl rfl rfl rfl
  refine hframe.keeps h h.memory (fun k => ?_) (fun x hx => by cases hx)
    (.inr fun x hx => by cases hx) (fun l hl x hx => ?_) fun l hl => .inl fun x hx => ?_
  · rw [threadSum_uses]
    cases k <;> simp [tokens, Instr.produces, Instr.runs, Instr.uses]
  · obtain ⟨l', -, rfl⟩ := List.mem_map.mp hl
    obtain ⟨u, -, rfl⟩ := List.mem_map.mp hx
    cases u <;> trivial
  · obtain ⟨l', -, rfl⟩ := List.mem_map.mp hl
    obtain ⟨u, -, rfl⟩ := List.mem_map.mp hx
    exact isUse_instr u

/-- A later use of a recoverable var. -/
theorem later_use_keeps (hv : v.Recoverable) (h : (recovery v body).Enters m ins rest)
    (hins : ins.isUse = true) (hstep : exec v body m choice ins = .next m' push spawned) :
    (recovery v body).Keeps m ins rest m' push spawned := by
  have hok := h.memory
  cases ins with
  | register =>
    simp only [exec, register] at hstep
    split at hstep
    · rename_i hclosed
      cases hstep
      exact go_keeps h rfl rfl hclosed
    · rename_i hopen
      cases hstep
      refine use_keeps h rfl ?_ (fun hclosed => absurd hclosed hopen) hok.observed
        fun x hx => by cases hx
      simp only [List.length_nil]
      omega
  | hasFailure =>
    cases hstep
    exact go_keeps h rfl rfl ⟨h.relies.1, rfl⟩
  | consume failed =>
    obtain ⟨hclosed, hfailed⟩ := h.relies.1
    have hdone := (hok.closed hclosed).1
    simp only [exec, consume, hv.misdirected, hdone.cell] at hstep
    split at hstep
    · rename_i hyes
      cases hstep
      refine observe_keeps h rfl fun hsucceeds => ?_
      rw [← hdone.failed, ← hfailed, hyes] at hsucceeds
      cases hsucceeds
    · cases hstep
      exact observe_keeps h rfl fun _ => .inr rfl
  | wait get =>
    simp only [exec, wait] at hstep
    split at hstep
    · rename_i hclosed
      cases hstep
      exact go_keeps h rfl rfl hclosed
    · cases hstep
  | status get =>
    have hclosed : m.closed = true := h.relies.1
    have hdone := (hok.closed hclosed).1
    simp only [exec, status] at hstep
    split at hstep
    · rename_i hyes
      cases hstep
      refine observe_keeps h rfl fun hsucceeds => ?_
      rw [← hdone.failed, hyes] at hsucceeds
      cases hsucceeds
    · rename_i hno
      split at hstep
      · cases hstep
        exact go_keeps h rfl rfl ⟨hclosed, (Bool.not_eq_true _).mp hno⟩
      · cases hstep
        exact observe_keeps h rfl fun _ => .inl rfl
  | follow =>
    obtain ⟨hclosed, -⟩ := h.relies.1
    have hdone := (hok.closed hclosed).1
    simp only [exec, follow] at hstep
    rw [if_neg hv.followed.1, if_neg hv.followed.2, hdone.cell] at hstep
    cases hstep
    exact observe_keeps h rfl fun _ => .inr rfl
  | _ => cases hins

/-- Every step keeps the protocol, when the var is recoverable. -/
theorem keeps (hv : v.Recoverable) (h : (recovery v body).Enters m ins rest) (hs : SlotOk m)
    (hstep : exec v body m choice ins = .next m' push spawned) :
    (recovery v body).Keeps m ins rest m' push spawned := by
  cases ins with
  | slot x => exact slot_keeps h hstep
  | produce =>
    cases hstep
    exact produce_keeps h
  | removePrerequisite => exact removePrerequisite_keeps h hs hstep
  | execute => exact execute_keeps h hs hstep
  | invoke => exact invoke_keeps hv.misdirected h hs hstep
  | finish => exact finish_keeps h hs hstep
  | closeList => exact closeList_keeps h hs hstep
  | notifyArcs n failed => exact notifyArcs_keeps h hstep
  | later uses =>
    cases hstep
    exact later_keeps h
  | _ => exact later_use_keeps hv h rfl hstep

end Steps

/-! ## Runs -/

section Runs

variable {V : Type} {v : Version V} {c : State V}

theorem stack_of_isUse {l : List Instr} (hl : ∀ x ∈ l, x.isUse = true) :
    (slotPart V).stack l = [] := by
  induction l with
  | nil => rfl
  | cons x l ih =>
    have hrest := ih fun y hy => hl y (List.mem_cons_of_mem x hy)
    have hx := hl x List.mem_cons_self
    cases x <;> first | exact hrest | cases hx

/-- Seen from the slot, the program starts as the slot's own program does. -/
theorem slot_start_holds (readers : List ℕ) (others : ℕ) (uses : List (List Use)) :
    Handover.protocol.Holds ((slotPart V).config (start v readers others uses)) := by
  have hidle : ∀ l ∈ List.replicate others ([] : List Handover.Instr), l = [] :=
    fun l hl => List.eq_of_mem_replicate hl
  have h := (Handover.start_holds (.writer 0) readers).append_idle hidle
  have hregister : ∀ n, (slotPart V).stack (List.replicate n (.slot .register)) =
      List.replicate n .register := by
    intro n
    rw [← List.map_replicate, slotPart_stack_slot]
  have hconfig : (slotPart V).config (start v readers others uses) =
      ⟨(Handover.start (.writer 0) readers).mem,
        (Handover.start (.writer 0) readers).threads ++ List.replicate others []⟩ := by
    simp only [Part.config, start, Handover.start, List.map_append, List.map_cons, List.map_map,
      List.map_replicate, Function.comp_def, hregister]
    rfl
  rw [hconfig]
  exact h

/-- What the slot's protocol says about notifications. -/
theorem slotOk_of_holds (h : Handover.protocol.Holds ((slotPart V).config c))
    (htotal : c.mem.slot.total < 2 ^ 30 - 1) : SlotOk c.mem := by
  have hhanded := Handover.handedOver_of_holds h htotal
  refine ⟨hhanded.once, fun hpos => ?_⟩
  exact h.memory.closed (h.memory.handed (hhanded.after (.inl hpos)).1).1

variable [Inhabited V] {body : V → V × Bool}

theorem start_holds (readers : List ℕ) (others : ℕ) (uses : List (List Use)) :
    (recovery v body).Holds (start v readers others uses) where
  memory :=
    { before := fun _ => ⟨rfl, rfl⟩
      produced := fun h => by cases h
      once := Nat.zero_le 1
      started := fun h => by cases h
      closed := fun h => by cases h
      observed := fun _ o ho => by cases ho }
  law k := by
    have hreaders : ∀ k, threadSum tokens
        (readers.map fun n => List.replicate n (Instr.slot .register)) k = 0 := by
      intro k
      have hplain : ∀ l ∈ readers.map fun n => List.replicate n Handover.Instr.register,
          ∀ x ∈ l, x ≠ .storeCountdown := by
        intro l hl x hx
        obtain ⟨n, -, rfl⟩ := List.mem_map.mp hl
        rw [List.eq_of_mem_replicate hx]
        simp
      simpa [List.map_map, Function.comp_def] using threadSum_slot hplain k
    have hothers : threadSum tokens (List.replicate others [.removePrerequisite]) k =
        if k = .prerequisite then (others : ℤ) else 0 := by
      induction others with
      | zero => cases k <;> rfl
      | succ n ih =>
        rw [List.replicate_succ, threadSum_cons, ih]
        cases k <;> simp [tokens, Instr.produces, Instr.runs, Instr.uses, add_comm]
    show balance (start v readers others uses).mem k + threadSum tokens _ k = 0
    simp only [start, List.cons_append, threadSum_cons, threadSum_append, hreaders, hothers]
    cases k with
    | prerequisite =>
      simp [balance, tokens]
      omega
    | _ => simp [balance, tokens, Instr.produces, Instr.runs, Instr.uses]
  relies l hl := by
    have happend : StackOk (recovery v body).relies (start v readers others uses).mem (l ++ []) := by
      have hfacts : ∀ x ∈ l, Relies v body (start v readers others uses).mem x ∧
          x.isUse = false := by
        intro x hx
        rcases List.mem_append.mp hl with hl | hl
        · rcases List.mem_cons.mp hl with rfl | hl
          · rw [List.mem_singleton.mp hx]
            exact ⟨rfl, rfl⟩
          rcases List.mem_cons.mp hl with rfl | hl
          · rcases List.mem_cons.mp hx with rfl | hx
            · exact ⟨trivial, rfl⟩
            rcases List.mem_cons.mp hx with rfl | hx
            · exact ⟨trivial, rfl⟩
            · rw [List.mem_singleton.mp hx]
              exact ⟨trivial, rfl⟩
          · obtain ⟨n, -, rfl⟩ := List.mem_map.mp hl
            rw [List.eq_of_mem_replicate hx]
            exact ⟨trivial, rfl⟩
        · rw [List.eq_of_mem_replicate hl] at hx
          rw [List.mem_singleton.mp hx]
          exact ⟨trivial, rfl⟩
      refine stackOk_append (fun x hx => (hfacts x hx).1) (fun x hx hyes => ?_) trivial
      rw [(hfacts x hx).2] at hyes
      cases hyes
    rwa [List.append_nil] at happend

/-- No step changes how many readers the failed version has. -/
theorem total_step {m m' : Mem V} {choice : Bool} {ins : Instr} {push : List Instr}
    {spawned : List (List Instr)} (hstep : exec v body m choice ins = .next m' push spawned) :
    m'.slot.total = m.slot.total := by
  rcases follows hstep with ⟨x, -, hexec⟩ | ⟨hmemory, -, -⟩
  · exact (Handover.early_step hexec).2
  · exact congrArg Handover.Mem.total hmemory

variable {readers : List ℕ} {others : ℕ} {uses : List (List Use)}

/-- The slot's protocol holds along every run. -/
theorem slot_holds_of_reach {allowed : State V → Turn → Prop} (hfew : readers.sum < 2 ^ 30 - 2)
    (hreach : Reach (exec v body) allowed (start v readers others uses) c) :
    Handover.protocol.Holds ((slotPart V).config c) ∧ c.mem.slot.total = readers.sum := by
  apply hreach.invariant (I := fun c => Handover.protocol.Holds ((slotPart V).config c) ∧
    c.mem.slot.total = readers.sum) ⟨slot_start_holds readers others uses, rfl⟩
  intro c c' e ⟨h, htotal⟩ _ hstep
  have hle : c.mem.slot.early + c.mem.slot.late ≤ c.mem.slot.total := Handover.registered_le h
  constructor
  · apply Part.holds_step h hstep
    · intro ins m' push spawned hexec
      exact follows hexec
    · intro x rest m' push spawned hexec henters
      refine Handover.keeps henters ?_ hle hexec
      show c.mem.slot.early < 2 ^ 30 - 2
      omega
  · obtain ⟨ins, rest, push, spawned, -, hexec, -⟩ := Config.step_cases hstep
    rw [total_step hexec, htotal]

/-- Both protocols hold along every run. -/
theorem holds_of_reach {allowed : State V → Turn → Prop} (hv : v.Recoverable)
    (hfew : readers.sum < 2 ^ 30 - 2)
    (hreach : Reach (exec v body) allowed (start v readers others uses) c) :
    (recovery v body).Holds c := by
  have hslots : Reach (exec v body) (fun c _ => SlotOk c.mem) (start v readers others uses) c := by
    refine hreach.map id fun c c' e hreach _ hstep => Reach.start.step e ?_ hstep
    obtain ⟨h, htotal⟩ := slot_holds_of_reach hfew hreach
    have hlt : c.mem.slot.total < 2 ^ 30 - 1 := by omega
    exact slotOk_of_holds h hlt
  refine Protocol.Holds.of_reach (start_holds readers others uses) ?_ hslots
  intro c e ins rest m' push spawned _ hs _ hexec henters
  exact keeps hv henters hs hexec

/-! ## What the task and the later uses get -/

/-- The task runs at most once, after the failed version's readers are done and on the last stored
value; no assertion fails; if the task succeeds every later use gets its value; and in the end the
task has run and everybody has been served. -/
structure Recovered (v : Version V) (body : V → V × Bool) (c : State V) : Prop where
  noFault : ∀ ins rest, ins :: rest ∈ c.threads →
    ∀ choice cause, exec v body c.mem choice ins ≠ .fault cause
  once : c.mem.runs ≤ 1
  input : 0 < c.mem.runs → c.mem.given = some v.input
  alone : 0 < c.mem.runs → c.mem.slot.out.handed = true ∧ c.mem.slot.finished = c.mem.slot.total
  observed : (body v.input).2 = false → ∀ o ∈ c.mem.observed, Sees v body o
  served : c.Stuck (exec v body) →
    (∀ l ∈ c.threads, l = []) ∧ c.mem.runs = 1 ∧ c.mem.observed.length = c.mem.total
  ends : c.Ends (exec v body)

/-- No instruction of a recoverable program fails. -/
theorem not_fault (hv : v.Recoverable) (h : (recovery v body).Holds c)
    (hslot : Handover.protocol.Holds ((slotPart V).config c)) (hs : SlotOk c.mem) {ins : Instr}
    {rest : List Instr} (hl : ins :: rest ∈ c.threads) (choice : Bool) (cause : Fault) :
    exec v body c.mem choice ins ≠ .fault cause := by
  have henters := h.enters hl
  have hok := h.memory
  intro hfault
  cases ins with
  | slot x =>
    have hx : x :: (slotPart V).stack rest ∈ ((slotPart V).config c).threads :=
      List.mem_map.mpr ⟨_, hl, rfl⟩
    simp only [exec, slotStep] at hfault
    split at hfault
    · cases hfault
    · cases hfault
    · rename_i cause' hexec
      exact Handover.not_fault hslot hx choice cause' hexec
  | produce => cases hfault
  | removePrerequisite =>
    have hcovered : tokens .removePrerequisite .prerequisite ≤ -balance c.mem .prerequisite :=
      henters.covered .prerequisite
    have hone := hs.once
    simp only [tokens, balance, if_true] at hcovered
    simp only [exec, removePrerequisite] at hfault
    split at hfault
    · rename_i hnone
      have hless := StartCount.removePrerequisite_eq_none.mp hnone
      omega
    · split at hfault <;> cases hfault
    · cases hfault
  | execute => cases hfault
  | invoke =>
    simp only [exec, invoke, hv.misdirected] at hfault
    cases hfault
  | finish =>
    have hruns : c.mem.runs = 1 := henters.relies.1.1
    simp only [exec, finish, (hok.started (by omega)).2.2] at hfault
    cases hfault
  | closeList =>
    obtain ⟨-, hopen, -⟩ := running henters hs rfl
    simp only [exec, closeList, hopen] at hfault
    cases hfault
  | notifyArcs n failed => cases n <;> cases hfault
  | later uses => cases hfault
  | register =>
    simp only [exec, register] at hfault
    split at hfault <;> cases hfault
  | hasFailure => cases hfault
  | consume failed =>
    obtain ⟨hclosed, -⟩ := henters.relies.1
    simp only [exec, consume, hv.misdirected, (hok.closed hclosed).1.cell] at hfault
    split at hfault <;> cases hfault
  | wait get =>
    simp only [exec, wait] at hfault
    split at hfault <;> cases hfault
  | status get =>
    simp only [exec, status] at hfault
    split at hfault
    · cases hfault
    · split at hfault <;> cases hfault
  | follow =>
    obtain ⟨hclosed, -⟩ := henters.relies.1
    simp only [exec, follow] at hfault
    rw [if_neg hv.followed.1, if_neg hv.followed.2, (hok.closed hclosed).1.cell] at hfault
    cases hfault

/-- Only the installation of the next writer and the waits block. -/
theorem blocked_cases {m : Mem V} {choice : Bool} {ins : Instr}
    (hblocked : exec v body m choice ins = .blocked) :
    (∃ x, ins = .slot x ∧ Handover.exec m.slot choice x = .blocked) ∨
      (∃ get, ins = .wait get) ∧ m.closed = false := by
  cases ins with
  | slot x =>
    refine .inl ⟨x, rfl, ?_⟩
    simp only [exec, slotStep] at hblocked
    split at hblocked
    · cases hblocked
    · assumption
    · cases hblocked
  | wait get =>
    refine .inr ⟨⟨get, rfl⟩, ?_⟩
    simp only [exec, wait] at hblocked
    split at hblocked
    · cases hblocked
    · rename_i hopen
      exact (Bool.not_eq_true _).mp hopen
  | notifyArcs n failed => cases n <;> cases hblocked
  | _ =>
    simp only [exec, produce, removePrerequisite, execute, invoke, finish, closeList, later,
      register, hasFailure, consume, status, follow] at hblocked
    (repeat' split at hblocked) <;> cases hblocked

/-- When nothing can run any more, everybody has been served. -/
theorem served_of_stuck (h : (recovery v body).Holds c)
    (hnofault : ∀ ins rest, ins :: rest ∈ c.threads →
      ∀ cause, exec v body c.mem false ins ≠ .fault cause)
    (hserved : ((slotPart V).config c).Stuck Handover.exec →
      (∀ l ∈ ((slotPart V).config c).threads, l = []) ∧ c.mem.slot.out.notified = 1)
    (hstuck : c.Stuck (exec v body)) :
    (∀ l ∈ c.threads, l = []) ∧ c.mem.runs = 1 ∧ c.mem.observed.length = c.mem.total := by
  have htop : ∀ ins rest, ins :: rest ∈ c.threads →
      (∃ x, ins = .slot x ∧ Handover.exec c.mem.slot false x = .blocked) ∨
        (∃ get, ins = .wait get) ∧ c.mem.closed = false := by
    intro ins rest hl
    apply blocked_cases
    exact (hstuck.top hl).resolve_right fun ⟨cause, hfault⟩ => hnofault ins rest hl cause hfault
  have hslotStuck : ((slotPart V).config c).Stuck Handover.exec := by
    apply Part.stuck
    intro ins rest hl
    rcases htop ins rest hl with ⟨x, rfl, hblocked⟩ | ⟨⟨get, rfl⟩, -⟩
    · refine .inr ⟨x, rfl, fun m' push spawned hnext => ?_⟩
      rw [show Handover.exec ((slotPart V).memory c.mem) false x = .blocked from hblocked] at hnext
      cases hnext
    · left
      apply stack_of_isUse
      intro x hx
      rcases List.mem_cons.mp hx with rfl | hx
      · rfl
      · exact (h.relies _ hl).1.2 rfl x hx
  obtain ⟨hempty, hnotified⟩ := hserved hslotStuck
  -- what is left are waits and uses below them
  have huses : ∀ l ∈ c.threads, ∀ x ∈ l, x.isUse = true ∧ c.mem.closed = false := by
    intro l hl x hx
    cases l with
    | nil => cases hx
    | cons ins rest =>
      rcases htop ins rest hl with ⟨y, rfl, -⟩ | ⟨⟨get, rfl⟩, hopen⟩
      · have hnil := hempty _ (List.mem_map.mpr ⟨_, hl, rfl⟩)
        cases hnil
      · refine ⟨?_, hopen⟩
        rcases List.mem_cons.mp hx with rfl | hx
        · rfl
        · exact (h.relies _ hl).1.2 rfl x hx
  have hnone : ∀ k, k ≠ .use → 0 ≤ balance c.mem k := by
    intro k hk
    by_contra hneg
    obtain ⟨l, hl, x, hx, hpos⟩ := h.exists_holder (not_le.mp hneg)
    have hzero : tokens x k = if k = .use then 1 else 0 := tokens_of_isUse (huses l hl x hx).1 k
    rw [if_neg hk] at hzero
    have hpos' : 0 < tokens x k := hpos
    omega
  have hprerequisite := hnone .prerequisite (by decide)
  have hrun := hnone .run (by decide)
  simp only [balance, hnotified] at hprerequisite
  have hclosed : c.mem.closed = true := by
    by_contra hopen
    rw [Bool.not_eq_true] at hopen
    simp only [balance] at hrun
    rw [if_pos ⟨by omega, hopen⟩] at hrun
    omega
  have hall : ∀ l ∈ c.threads, l = [] := by
    intro l hl
    cases l with
    | nil => rfl
    | cons ins rest =>
      have hopen := (huses _ hl ins List.mem_cons_self).2
      rw [hclosed] at hopen
      cases hopen
  obtain ⟨hdone, harcs⟩ := h.memory.closed hclosed
  have huse : balance c.mem .use = 0 := h.settled hall .use
  simp only [balance, harcs] at huse
  exact ⟨hall, hdone.runs, by omega⟩

/-- What is left to do after an instruction, counted in steps. -/
def Instr.weight : Instr → ℕ
  | .slot x => 7 * x.weight
  | .produce => 50
  | .removePrerequisite => 6
  | .execute => 5
  | .invoke => 4
  | .finish => 3
  | .closeList => 2
  | .notifyArcs n _ => 2 * n + 1
  | .later uses => 3 * (uses.map List.length).sum + 1
  | .register => 3
  | .hasFailure => 2
  | .consume _ => 1
  | .wait _ => 3
  | .status _ => 2
  | .follow => 1

theorem threadWeight_slot (ls : List (List Handover.Instr)) :
    threadWeight Instr.weight (ls.map fun l => l.map .slot) =
      7 * threadWeight Handover.Instr.weight ls := by
  have hstack : ∀ l : List Handover.Instr,
      ((l.map Instr.slot).map Instr.weight).sum = 7 * (l.map Handover.Instr.weight).sum := by
    intro l
    induction l with
    | nil => rfl
    | cons x l ih =>
      simp only [List.map_cons, List.sum_cons, ih, Instr.weight]
      omega
  unfold threadWeight
  induction ls with
  | nil => rfl
  | cons l ls ih =>
    simp only [List.map_cons, List.sum_cons, ih, hstack]
    omega

theorem threadWeight_uses (uses : List (List Use)) :
    threadWeight Instr.weight (uses.map fun l => l.map Use.instr) =
      3 * (uses.map List.length).sum := by
  have hstack : ∀ l : List Use, ((l.map Use.instr).map Instr.weight).sum = 3 * l.length := by
    intro l
    induction l with
    | nil => rfl
    | cons u l ih =>
      have hone : u.instr.weight = 3 := by
        cases u <;> rfl
      simp only [List.map_cons, List.sum_cons, ih, hone, List.length_cons]
      omega
  unfold threadWeight
  induction uses with
  | nil => rfl
  | cons l uses ih =>
    simp only [List.map_cons, List.sum_cons, ih, hstack]
    omega

/-- Each step uses up some of the work. -/
theorem weight_step {m m' : Mem V} {choice : Bool} {ins : Instr} {push : List Instr}
    {spawned : List (List Instr)} (hstep : exec v body m choice ins = .next m' push spawned) :
    21 * m'.slot.arcs + 2 * m'.arcs + (push.map Instr.weight).sum +
        threadWeight Instr.weight spawned <
      21 * m.slot.arcs + 2 * m.arcs + ins.weight := by
  have hnone : threadWeight Instr.weight [] = 0 := rfl
  cases ins with
  | slot x =>
    obtain ⟨s, push₁, spawned₁, hexec, rfl, rfl, rfl⟩ := slotStep_cases hstep
    have hless := Handover.weight_step hexec
    have hpush := threadWeight_slot [push₁]
    simp only [threadWeight, List.map_cons, List.map_nil, List.sum_cons, List.sum_nil] at hpush
    have hrest : ((if x = .notifyNextWriter then [Instr.removePrerequisite] else []).map
        Instr.weight).sum ≤ 6 := by
      split <;> simp [Instr.weight]
    rw [List.map_append, List.sum_append, threadWeight_slot]
    simp only [Instr.weight]
    omega
  | later uses =>
    cases hstep
    rw [threadWeight_uses]
    simp only [Instr.weight, List.map_nil, List.sum_nil]
    omega
  | notifyArcs n failed =>
    cases n with
    | zero =>
      cases hstep
      simp [hnone, Instr.weight]
    | succ n =>
      cases hstep
      simp [threadWeight, Instr.weight]
      omega
  | _ =>
    simp only [exec, produce, removePrerequisite, execute, invoke, finish, closeList, register,
      hasFailure, consume, wait, status, follow] at hstep
    (repeat' split at hstep) <;> cases hstep
    all_goals
      simp [threadWeight, Instr.weight, Handover.Instr.weight, Mem.observe]
      try omega

/-- In every run in which the failed version has fewer than `2 ^ 30 - 2` readers, a recoverable
var recovers. -/
theorem overwritten (hv : v.Recoverable) (hfew : readers.sum < 2 ^ 30 - 2)
    (hreach : Reach (exec v body) (fun _ _ => True) (start v readers others uses) c) :
    Recovered v body c := by
  obtain ⟨hslot, htotal⟩ := slot_holds_of_reach hfew hreach
  have hlt : ((slotPart V).config c).mem.total < 2 ^ 30 - 1 := by
    show c.mem.slot.total < _
    omega
  have hhanded := Handover.handedOver_of_holds hslot hlt
  have hs := slotOk_of_holds hslot hlt
  have h := holds_of_reach hv hfew hreach
  exact
    { noFault := fun ins rest hl choice cause => not_fault hv h hslot hs hl choice cause
      once := h.memory.once
      input := fun hruns => (h.memory.started hruns).2.2
      alone := by
        intro hruns
        have hcount := (h.memory.started hruns).2.1
        have hprerequisite : 0 ≤ -balance c.mem .prerequisite := by
          have hlaw : balance c.mem .prerequisite + threadSum tokens c.threads .prerequisite = 0 :=
            h.law .prerequisite
          have hnonneg : 0 ≤ threadSum tokens c.threads .prerequisite :=
            Protocol.Holds.sum_nonneg (P := recovery v body) c .prerequisite
          omega
        simp only [balance, hcount] at hprerequisite
        obtain ⟨hdone, -, hfinished, -⟩ := hhanded.after (.inl (by
          show 0 < c.mem.slot.out.notified
          omega))
        exact ⟨hdone, hfinished⟩
      observed := h.memory.observed
      served := served_of_stuck h (fun ins rest hl cause => not_fault hv h hslot hs hl false cause)
        hhanded.served
      ends := Config.ends_of_weight Instr.weight (fun m => 21 * m.slot.arcs + 2 * m.arcs)
        (fun _ _ _ _ _ _ _ hstep => ⟨trivial, weight_step hstep⟩) trivial }

end Runs

/-- A producer that stored 1 and threw, with one reader: a task that adds 1 runs, and a wait, a
`wait_and_get` and a reader see that. -/
example :
    ((start ⟨0, false, false, some 5, some 1⟩ [1] 0 [[.wait, .get], [.read]]).run
      (exec ⟨0, false, false, some 5, some 1⟩ fun x : ℕ => (x + 1, false))
      (rounds [(2, 1), (0, 8), (3, 1), (1, 6), (6, 1), (4, 6), (5, 5), (7, 1)])).any
        (fun c => decide (c.mem.observed = [.value 2, .value 2, .ready])) = true := by
  decide

/-! ## What happens otherwise -/

section Otherwise

variable {V : Type} [Inhabited V] {v : Version V} {body : V → V × Bool}

/-- Without readers the task gets as far as its body. -/
theorem leads_invoke (v : Version V) (body : V → V × Bool) :
    ∃ m : Mem V, m.closed = false ∧ m.arcs = 0 ∧ m.failed = false ∧
      RunsTo (exec v body) (start v [] 0 [[.get]]) m [[.invoke], [.wait true], [], []] := by
  let out₀ : OutputNode := {}
  let out₁ : OutputNode := { out₀ with countdown := countdownBias, armed := true }
  let out₂ : OutputNode := { out₁ with nextWriter := .ready }
  let out₃ : OutputNode := { out₂ with countdown := 1, handed := true }
  let out₄ : OutputNode := { out₃ with nextWriter := .node 0 }
  let out₅ : OutputNode := { out₄ with countdown := 0 }
  let out₆ : OutputNode := { out₅ with notified := 1 }
  let mem (out : OutputNode) (closed : Bool) (count : ℕ) : Mem V :=
    { slot := { out := out, closed := closed }, cell := v.last, word := { count := count }, total := 1 }
  let m₀ : Mem V := { slot := {}, cell := v.stored, word := { count := 2 }, total := 1 }
  let task : List Instr := [.slot (.install (.writer 0)), .removePrerequisite, .later [[.get]]]
  let e := exec v body
  -- the producer completes
  have h₁ : e m₀ false .produce = goto (mem out₀ false 2) [.slot .storeCountdown] := rfl
  have h₂ : e (mem out₀ false 2) false (.slot .storeCountdown) =
      goto (mem out₁ false 2) [.slot (.closeList countdownBias)] := rfl
  have h₃ : e (mem out₁ false 2) false (.slot (.closeList countdownBias)) =
      goto (mem out₁ true 2) [.slot (.notifyArcs 0 countdownBias)] := rfl
  have h₄ : e (mem out₁ true 2) false (.slot (.notifyArcs 0 countdownBias)) =
      goto (mem out₁ true 2) [.slot (.outLoad countdownBias)] := rfl
  have h₅ : e (mem out₁ true 2) false (.slot (.outLoad countdownBias)) =
      goto (mem out₁ true 2) [.slot (.outCas countdownBias)] := rfl
  have h₆ : e (mem out₁ true 2) false (.slot (.outCas countdownBias)) =
      goto (mem out₂ true 2) [.slot (.outSub (countdownBias - 1))] := rfl
  have h₇ : e (mem out₂ true 2) false (.slot (.outSub (countdownBias - 1))) =
      goto (mem out₃ true 2) [] := rfl
  -- the task is set up, and its last prerequisite goes
  have h₈ : e (mem out₃ true 2) false (.slot (.install (.writer 0))) =
      goto (mem out₄ true 2) [.slot .removeBackArc] := rfl
  have h₉ : e (mem out₄ true 2) false (.slot .removeBackArc) =
      goto (mem out₅ true 2) [.slot .notifyNextWriter] := rfl
  have h₁₀ : e (mem out₅ true 2) false (.slot .notifyNextWriter) =
      goto (mem out₆ true 2) [.removePrerequisite] := rfl
  have h₁₁ : e (mem out₆ true 2) false .removePrerequisite = goto (mem out₆ true 1) [] := rfl
  have h₁₂ : e (mem out₆ true 1) false .removePrerequisite =
      .next (mem out₆ true 0) [] [[.execute]] := rfl
  have h₁₃ : e (mem out₆ true 0) false (.later [[.get]]) =
      .next (mem out₆ true 0) [] [[.wait true]] := rfl
  have h₁₄ : e (mem out₆ true 0) false .execute = goto (mem out₆ true 0) [.invoke] := rfl
  have hstart : RunsTo e (start v [] 0 [[.get]]) m₀ [[.produce], task] := RunsTo.start _ _
  have hproduced := ((((((hstart.step h₁ rfl).step h₂ rfl).step h₃ rfl).step h₄ rfl).step h₅ rfl).step
    h₆ rfl).step h₇ rfl
  have htask := (((((hproduced.swap.step h₈ rfl).step h₉ rfl).step h₁₀ rfl).step h₁₁ rfl).step h₁₂
    rfl).step h₁₃ rfl
  have hlast : RunsTo e (start v [] 0 [[.get]]) (mem out₆ true 0)
      ([[], [], [Instr.execute]] ++ [[Instr.wait true]]) := htask
  have hexecute : RunsTo e (start v [] 0 [[.get]]) (mem out₆ true 0)
      ([[Instr.wait true], [], []] ++ [[Instr.execute]]) := hlast.last
  exact ⟨_, rfl, rfl, rfl, hexecute.last.step h₁₄ rfl⟩

/-- In a forwarded var whose inner version failed, `wait_and_get` still finds that failure. -/
theorem failure_stays (hdepth : v.depth = 1) (hreturned : v.returned = true)
    (hinner : v.innerFailed = true) (x : V) :
    ∃ c, Reach (exec v fun _ => (x, false)) (fun _ _ => True) (start v [] 0 [[.get]]) c ∧
      .failed ∈ c.mem.observed := by
  obtain ⟨m, hopen, harcs, hfine, hinvoke⟩ := leads_invoke v fun _ => (x, false)
  let e := exec v fun _ => (x, false)
  have hgood : v.misdirected = none := by simp [Version.misdirected, hdepth, hreturned]
  let y : V := m.cell.getD default
  let m₁ : Mem V := { m with cell := some y, runs := m.runs + 1, given := some y }
  let m₂ : Mem V := { m₁ with cell := some x }
  let m₃ : Mem V := { m₂ with arcs := 0, closed := true }
  have h₁ : e m false .invoke = goto m₁ [.finish] := by
    simp only [e, exec, invoke, hgood]
    rfl
  have h₂ : e m₁ false .finish = goto m₂ [.closeList] := rfl
  have hopen₂ : m₂.closed = false := hopen
  have harcs₂ : m₂.arcs = 0 := harcs
  have hfailed : m₂.failed = false := hfine
  have h₃ : e m₂ false .closeList = goto m₃ [.notifyArcs 0 false] := by
    simp only [e, exec, closeList, hopen₂, harcs₂, hfailed, Bool.false_eq_true, if_false, m₃]
  have h₄ : e m₃ false (.notifyArcs 0 false) = goto m₃ [] := rfl
  have h₅ : e m₃ false (.wait true) = goto m₃ [.status true] := rfl
  have hfailed₃ : m₃.failed = false := hfine
  have h₆ : e m₃ false (.status true) = goto m₃ [.follow] := by
    simp only [e, exec, status, hfailed₃, Bool.false_eq_true, if_false, if_true]
  have h₇ : e m₃ false .follow = goto (m₃.observe .failed) [] := by
    simp only [e, exec, follow]
    rw [if_neg (by simp [hreturned]), if_pos ⟨by omega, hinner⟩]
  have htask := (((hinvoke.step h₁ rfl).step h₂ rfl).step h₃ rfl).step h₄ rfl
  have hget := ((htask.swap.step h₅ rfl).step h₆ rfl).step h₇ rfl
  obtain ⟨c, hreach, hmem, -⟩ := hget
  refine ⟨c, hreach, ?_⟩
  rw [hmem]
  exact List.mem_cons_self

end Otherwise

end Oox.Recovery
