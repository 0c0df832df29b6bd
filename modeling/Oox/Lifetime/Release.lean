import Mathlib.Data.List.Perm.Basic
import Mathlib.Data.List.Count
import Oox.Library.Protocol

/-!
# The shortcut of life_release

`task_life::life_release` (oox.h:192-203) first loads `life_count` and returns at once when all
that is left is what the caller releases; the counter then stays as it is. Any number of threads
release their parts of one count, in any interleaving of the loads and the subtractions. Plain
reference counting is the same function without the load. Counts stay between zero and the
initial one, so `int` is enough for them.
-/

set_option autoImplicit false

namespace Oox.Release

open Library

/-- One call `life_release(n)` of at least one unit, with a name to tell it from others. -/
structure Call where
  name : ℕ
  n : ℤ
  pos : 1 ≤ n
  deriving DecidableEq, Repr

/-- The life count of one task. -/
structure Mem where
  lifeCount : ℤ
  -- history
  /-- what the call that took the shortcut left in the counter. -/
  left : ℤ := 0
  /-- the calls that returned, each with its result. -/
  returned : List (Call × Bool) := []
  deriving DecidableEq, Repr

inductive Instr where
  /-- `life_count.load() == n`. -/
  | load (call : Call)
  /-- `int k = life_count -= n`. -/
  | subtract (call : Call)
  /-- the assertion `k >= 0` and `return (k == 0)`. -/
  | test (call : Call) (k : ℤ)
  deriving DecidableEq, Repr

inductive Fault where
  /-- "invalid life_count detected while removing prerequisite". -/
  | assertion
  deriving DecidableEq, Repr

abbrev State := Config Mem Instr
abbrev Step := Outcome Mem Instr Fault

def returns (m : Mem) (call : Call) (last : Bool) : Mem :=
  { m with returned := (call, last) :: m.returned }

def load (m : Mem) (call : Call) : Step :=
  if m.lifeCount = call.n then .next (returns { m with left := call.n } call true) [] []
  else .next m [.subtract call] []

def subtract (m : Mem) (call : Call) : Step :=
  let k := m.lifeCount - call.n
  .next { m with lifeCount := k } [.test call k] []

def test (m : Mem) (call : Call) (k : ℤ) : Step :=
  if 0 ≤ k then .next (returns m call (k == 0)) [] [] else .fault .assertion

def exec (m : Mem) (_choice : Bool) : Instr → Step
  | .load call => load m call
  | .subtract call => subtract m call
  | .test call k => test m call k

/-- Threads that each make some calls to `life_release`, one after the other. -/
def start (c : ℤ) (users : List (List Call)) : State :=
  { mem := { lifeCount := c }, threads := users.map fun l => l.map .load }

/-- The same threads with plain reference counting. -/
def startPlain (c : ℤ) (users : List (List Call)) : State :=
  { mem := { lifeCount := c }, threads := users.map fun l => l.map .subtract }

/-- The call an instruction works for. -/
def Instr.call : Instr → Call
  | .load call => call
  | .subtract call => call
  | .test call _ => call

/-- The call has not taken its last step on the counter. -/
def Instr.counts : Instr → Bool
  | .test _ _ => false
  | _ => true

/-- How many calls returned `true`. -/
def Mem.lasts (m : Mem) : ℕ := m.returned.countP fun x => x.2

/-- How many times a call returned. -/
def Mem.times (m : Mem) (call : Call) : ℕ := m.returned.countP fun x => x.1 == call

/-- What is still to be released. -/
def Mem.units (m : Mem) : ℤ := m.lifeCount - m.left

/-! ## The protocol -/

inductive Right where
  /-- to release one unit of the count. -/
  | unit
  /-- to return `true`. -/
  | last
  /-- to return from a call. -/
  | call (call : Call)
  deriving DecidableEq, Repr

def tokens (ins : Instr) : Right → ℤ
  | .unit => if ins.counts then ins.call.n else 0
  | .last =>
    match ins with
    | .test _ k => (k == 0).toNat
    | _ => 0
  | .call call => (ins.call == call).toNat

/-- Every unit that is left, every call that has not returned and the one `true` are owed. -/
def balance (users : List (List Call)) (m : Mem) : Right → ℤ
  | .unit => -m.units
  | .last => m.lasts - (m.units == 0).toNat
  | .call call => m.times call - (users.flatten.count call : ℤ)

/-- What an instruction relies on: the assertion it will make. -/
def Relies (_m : Mem) (ins : Instr) (_rest : List Instr) : Prop :=
  match ins with
  | .test _ k => 0 ≤ k
  | _ => True

theorem tokens_nonneg (ins : Instr) (k : Right) : 0 ≤ tokens ins k := by
  cases k with
  | unit =>
    have hpos := ins.call.pos
    simp only [tokens]
    split_ifs <;> omega
  | last =>
    simp only [tokens]
    split <;> omega
  | call call => exact Int.natCast_nonneg _

def protocol (users : List (List Call)) : Protocol Mem Instr Right where
  balance := balance users
  tokens := tokens
  memory m := m.left = 0 ∨ m.units = 0
  relies := Relies
  tokens_nonneg := tokens_nonneg

/-! ## Steps -/

section Steps

variable {users : List (List Call)} {m m' : Mem} {ins : Instr} {rest push : List Instr}
variable {spawned : List (List Instr)} {call : Call}

@[simp] theorem returns_lifeCount (last : Bool) :
    (returns m call last).lifeCount = m.lifeCount := rfl

@[simp] theorem returns_left (last : Bool) : (returns m call last).left = m.left := rfl

@[simp] theorem returns_units (last : Bool) : (returns m call last).units = m.units := rfl

@[simp] theorem returns_lasts (last : Bool) :
    (returns m call last).lasts = m.lasts + last.toNat := by
  cases last <;> simp [returns, Mem.lasts]

@[simp] theorem returns_times (last : Bool) (call' : Call) :
    (returns m call last).times call' = m.times call' + (call == call').toNat := by
  by_cases h : call = call' <;> simp [returns, Mem.times, h]

/-- A call that has not taken its last step on the counter finds its units there, and nobody
took the shortcut. -/
theorem covers (h : (protocol users).Enters m ins rest) (hins : ins.counts = true) :
    ins.call.n ≤ m.lifeCount ∧ m.left = 0 ∧ (m.units == 0) = false := by
  have hpos := ins.call.pos
  have hcov := h.covered .unit
  simp only [protocol, tokens, hins, if_true, balance, neg_neg] at hcov
  have hsome : (m.units == 0) = false := beq_eq_false_iff_ne.mpr (by omega)
  rcases h.memory with hleft | hunits
  · simp only [Mem.units, hleft] at hcov
    exact ⟨by omega, hleft, hsome⟩
  · omega

theorem keeps_of_relies (hmem : m'.left = 0 ∨ m'.units = 0)
    (hcons : Conserves (balance users) tokens m ins m' push [])
    (hpush : ∀ x ∈ push, Relies m' x rest) (hone : push.length ≤ 1) :
    (protocol users).Keeps m ins rest m' push [] where
  memory := hmem
  conserves := hcons
  stable _ _ hother _ := hother
  push hrest := by
    match push, hone with
    | [], _ => exact hrest
    | [x], _ => exact ⟨hpush x List.mem_cons_self, hrest⟩
  spawned l hl := by cases hl

theorem load_keeps (h : (protocol users).Enters m (.load call) rest)
    (hstep : load m call = .next m' push spawned) :
    (protocol users).Keeps m (.load call) rest m' push spawned := by
  obtain ⟨-, hleft, hsome⟩ := covers h rfl
  have hpos := call.pos
  simp only [load] at hstep
  split at hstep
  · rename_i hall
    obtain ⟨rfl, rfl, rfl⟩ := hstep
    have hunits : ({ m with left := call.n } : Mem).units = 0 := by
      simp only [Mem.units, hall, sub_self]
    refine keeps_of_relies (.inr hunits) (fun k => ?_) (fun x hx => by cases hx) (by simp)
    have hbefore : m.units = call.n := by
      simp only [Mem.units, hall, hleft, sub_zero]
    cases k with
    | unit =>
      simp [balance, hunits, hbefore, tokens, Instr.counts, Instr.call]
    | last =>
      have hlasts : ({ m with left := call.n } : Mem).lasts = m.lasts := rfl
      simp [balance, hunits, hsome, hlasts, tokens]
    | call other =>
      have htimes : ({ m with left := call.n } : Mem).times other = m.times other := rfl
      simp only [balance, returns_times, htimes, tokens, Instr.call, stackSum_nil, threadSum_nil]
      by_cases hother : call = other <;> simp [hother] <;> omega
  · obtain ⟨rfl, rfl, rfl⟩ := hstep
    refine keeps_of_relies h.memory (fun k => ?_) (fun x hx => ?_) le_rfl
    · cases k with
      | call other => simp only [tokens, Instr.call, stackSum_cons, stackSum_nil, threadSum_nil, add_zero]
      | _ => simp [tokens, Instr.counts, Instr.call]
    · obtain rfl := List.mem_singleton.mp hx
      trivial

theorem subtract_keeps (h : (protocol users).Enters m (.subtract call) rest)
    (hstep : subtract m call = .next m' push spawned) :
    (protocol users).Keeps m (.subtract call) rest m' push spawned := by
  obtain ⟨hle, hleft, hsome⟩ := covers h rfl
  have hpos := call.pos
  simp only [Instr.call] at hle
  obtain ⟨rfl, rfl, rfl⟩ := hstep
  refine keeps_of_relies (.inl hleft) (fun k => ?_) (fun x hx => ?_) le_rfl
  · cases k with
    | unit =>
      simp only [balance, tokens, Instr.counts, Instr.call, Mem.units, hleft, stackSum_cons,
        stackSum_nil, threadSum_nil, if_true, Bool.false_eq_true, if_false]
      omega
    | last =>
      have hlasts : ({ m with lifeCount := m.lifeCount - call.n } : Mem).lasts = m.lasts := rfl
      have hunits : ({ m with lifeCount := m.lifeCount - call.n } : Mem).units =
          m.lifeCount - call.n := by
        simp only [Mem.units, hleft, sub_zero]
      simp only [balance, hlasts, hunits, hsome, tokens, stackSum_cons, stackSum_nil,
        threadSum_nil]
      by_cases hzero : m.lifeCount - call.n = 0 <;> simp [hzero]
    | call other =>
      simp only [balance, Mem.times, tokens, Instr.call, stackSum_cons, stackSum_nil,
        threadSum_nil, add_zero]
  · obtain rfl := List.mem_singleton.mp hx
    simp only [Relies]
    omega

theorem test_keeps {k : ℤ} (h : (protocol users).Enters m (.test call k) rest)
    (hstep : test m call k = .next m' push spawned) :
    (protocol users).Keeps m (.test call k) rest m' push spawned := by
  simp only [test] at hstep
  split at hstep
  · obtain ⟨rfl, rfl, rfl⟩ := hstep
    refine keeps_of_relies h.memory (fun key => ?_) (fun x hx => by cases hx) (by simp)
    cases key with
    | unit => simp [balance, tokens, Instr.counts]
    | last =>
      simp only [balance, returns_units, returns_lasts, tokens, stackSum_nil, threadSum_nil]
      by_cases hk : k = 0 <;> simp [hk] <;> omega
    | call other =>
      simp only [balance, returns_times, tokens, Instr.call, stackSum_nil, threadSum_nil]
      by_cases hother : call = other <;> simp [hother] <;> omega
  · cases hstep

end Steps

/-- Every step keeps the protocol. -/
theorem keeps {users : List (List Call)} {m m' : Mem} {choice : Bool} {ins : Instr}
    {rest push : List Instr} {spawned : List (List Instr)}
    (h : (protocol users).Enters m ins rest) (hexec : exec m choice ins = .next m' push spawned) :
    (protocol users).Keeps m ins rest m' push spawned := by
  cases ins with
  | load call => exact load_keeps h hexec
  | subtract call => exact subtract_keeps h hexec
  | test call k => exact test_keeps h hexec

/-! ## Runs -/

section Runs

variable {c : ℤ} {users : List (List Call)} {first : Call → Instr}

/-- The calls of all threads hold the whole count and nothing else. -/
theorem threadSum_first (hcounts : ∀ call, (first call).counts = true)
    (hcall : ∀ call, (first call).call = call) (users : List (List Call)) (k : Right) :
    threadSum tokens (users.map fun l => l.map first) k =
      match k with
      | .unit => (users.flatten.map Call.n).sum
      | .last => 0
      | .call call => users.flatten.count call := by
  have hone : ∀ l : List Call, stackSum tokens (l.map first) k =
      match k with
      | .unit => (l.map Call.n).sum
      | .last => 0
      | .call call => l.count call := by
    intro l
    induction l with
    | nil => cases k <;> rfl
    | cons x l ih =>
      rw [List.map_cons, stackSum_cons, ih]
      cases k with
      | unit => simp [tokens, hcounts, hcall]
      | last =>
        have hx := hcounts x
        cases hfirst : first x with
        | test call k => rw [hfirst] at hx; cases hx
        | _ => rfl
      | call call =>
        simp only [tokens, hcall, List.count_cons]
        cases x == call <;> simp [add_comm]
  induction users with
  | nil => cases k <;> rfl
  | cons l users ih =>
    rw [List.map_cons, threadSum_cons, ih, hone l]
    cases k <;> simp

/-- The protocol holds before the first call, with the shortcut and without. -/
theorem first_holds (hfirst : first = .load ∨ first = .subtract) (hc : 1 ≤ c)
    (hsum : (users.flatten.map Call.n).sum = c) :
    (protocol users).Holds ⟨{ lifeCount := c }, users.map fun l => l.map first⟩ where
  memory := .inl rfl
  law k := by
    have hsome : (c == 0) = false := beq_eq_false_iff_ne.mpr (by omega)
    have hthreads : threadSum tokens (users.map fun l => l.map first) k = _ :=
      threadSum_first (by rcases hfirst with rfl | rfl <;> exact fun _ => rfl)
        (by rcases hfirst with rfl | rfl <;> exact fun _ => rfl) users k
    simp only [protocol, hthreads]
    cases k with
    | unit => simp only [balance, Mem.units, hsum, sub_zero, neg_add_cancel]
    | last => simp [balance, Mem.units, Mem.lasts, hsome]
    | call call => simp [balance, Mem.times]
  relies l hl := by
    obtain ⟨us, -, rfl⟩ := List.mem_map.mp hl
    refine stackOk_iff.mpr fun ins hins => ?_
    obtain ⟨call, -, rfl⟩ := List.mem_map.mp hins
    rcases hfirst with rfl | rfl <;> trivial

end Runs

theorem holds_of_reach {allowed : State → Turn → Prop} {users : List (List Call)} {c₀ c : State}
    (hstart : (protocol users).Holds c₀) (hreach : Reach exec allowed c₀ c) :
    (protocol users).Holds c :=
  Protocol.Holds.of_reach hstart (fun _ _ _ _ _ _ _ _ _ _ hexec h => keeps h hexec) hreach

/-! ## What releasing threads may count on -/

/-- The assertion does not fail, at most one call returns `true` and then no call has a step on
the counter left, and when all calls have returned one of them has returned `true`. -/
structure Counted (users : List (List Call)) (c : State) : Prop where
  noError : ∀ ins rest, ins :: rest ∈ c.threads →
    ∀ choice cause, exec c.mem choice ins ≠ .fault cause
  atMostOne : c.mem.lasts ≤ 1
  alone : 0 < c.mem.lasts → ∀ l ∈ c.threads, ∀ ins ∈ l, ins.counts = false
  exactlyOne : c.Stuck exec → (∀ l ∈ c.threads, l = []) ∧ c.mem.lasts = 1 ∧
    (c.mem.returned.map Prod.fst).Perm users.flatten
  ends : c.Ends exec

/-- What is left to do after an instruction, counted in steps. -/
def Instr.weight : Instr → ℕ
  | .load _ => 3
  | .subtract _ => 2
  | .test _ _ => 1

theorem weight_step {m m' : Mem} {choice : Bool} {ins : Instr} {push : List Instr}
    {spawned : List (List Instr)} (hexec : exec m choice ins = .next m' push spawned) :
    (push.map Instr.weight).sum + threadWeight Instr.weight spawned < ins.weight := by
  cases ins with
  | load call =>
    simp only [exec, load] at hexec
    split at hexec <;> cases hexec <;> simp [threadWeight, Instr.weight]
  | subtract call =>
    cases hexec
    simp [threadWeight, Instr.weight]
  | test call k =>
    simp only [exec, test] at hexec
    split at hexec <;> cases hexec
    simp [threadWeight, Instr.weight]

section Results

variable {users : List (List Call)} {c : State}

theorem not_fault (h : (protocol users).Holds c) {ins : Instr} {rest : List Instr}
    (hl : ins :: rest ∈ c.threads) (choice : Bool) (cause : Fault) :
    exec c.mem choice ins ≠ .fault cause := by
  intro hfault
  cases ins with
  | load call =>
    simp only [exec, load] at hfault
    split at hfault <;> cases hfault
  | subtract call => cases hfault
  | test call k =>
    have hk : 0 ≤ k := (h.enters hl).relies
    simp [exec, test, hk] at hfault

theorem not_blocked (m : Mem) (choice : Bool) (ins : Instr) : exec m choice ins ≠ .blocked := by
  cases ins with
  | load call =>
    simp only [exec, load]
    split <;> simp
  | subtract call => simp [exec, subtract]
  | test call k =>
    simp only [exec, test]
    split <;> simp

/-- Only when no unit is left may a call have returned `true`. -/
theorem lasts_le (h : (protocol users).Holds c) :
    c.mem.lasts ≤ (c.mem.units == 0).toNat := by
  have hlaw := h.law .last
  have hnonneg := Protocol.Holds.sum_nonneg (P := protocol users) c .last
  simp only [protocol, balance] at hlaw hnonneg
  omega

theorem counted_of_holds (h : (protocol users).Holds c) : Counted users c where
  noError _ _ hl choice cause := not_fault h hl choice cause
  atMostOne := (lasts_le h).trans (Bool.toNat_le _)
  alone hlast l hl ins hins := by
    -- what a call would still release is part of what is left, and nothing is left
    by_contra hcounts
    rw [Bool.not_eq_false] at hcounts
    have hunits : c.mem.units = 0 := by
      by_contra hsome
      have hle := lasts_le h
      rw [beq_eq_false_iff_ne.mpr hsome] at hle
      exact absurd hle (by simpa using hlast.ne')
    have hcov := h.covered hl hins .unit
    have hpos := ins.call.pos
    simp only [protocol, tokens, hcounts, if_true, balance, neg_neg, hunits] at hcov
    omega
  exactlyOne hstuck := by
    have hempty : ∀ l ∈ c.threads, l = [] := by
      intro l hl
      cases l with
      | nil => rfl
      | cons ins rest =>
        rcases hstuck.top hl with hblocked | ⟨cause, hfault⟩
        · exact absurd hblocked (not_blocked c.mem false ins)
        · exact absurd hfault (not_fault h hl false cause)
    have hunits := h.settled hempty .unit
    have hlast := h.settled hempty .last
    simp only [protocol, balance, neg_eq_zero] at hunits hlast
    refine ⟨hempty, ?_, List.perm_iff_count.mpr fun call => ?_⟩
    · simp only [hunits, beq_self_eq_true, Bool.toNat_true] at hlast
      omega
    · have hcall := h.settled hempty (.call call)
      simp only [protocol, balance, Mem.times] at hcall
      have hcount : (c.mem.returned.map Prod.fst).count call =
          c.mem.returned.countP fun x => x.1 == call := by
        rw [List.count, List.countP_map]
        rfl
      rw [hcount]
      omega
  ends := Config.ends_of_weight Instr.weight (fun _ => 0)
    (fun _ _ _ _ _ _ _ hexec => ⟨trivial, by simpa using weight_step hexec⟩) trivial

/-! ## Plain reference counting -/

/-- The instruction of plain reference counting. -/
def Instr.plain : Instr → Instr
  | .load call => .subtract call
  | ins => ins

/-- The same moment of plain reference counting: what the shortcut left is subtracted too. -/
def plain (c : State) : State where
  mem := { c.mem with lifeCount := c.mem.units, left := 0 }
  threads := c.threads.map fun l => l.map Instr.plain

theorem plain_start (count : ℤ) (users : List (List Call)) :
    plain (start count users) = startPlain count users := by
  simp [plain, start, startPlain, Mem.units, Function.comp_def, Instr.plain]

/-- One step of a thread, given what its top instruction does. -/
theorem step_of_exec {d : State} {i : ℕ} {ins : Instr} {rest push : List Instr} {m' : Mem}
    (htop : d.threads[i]? = some (ins :: rest)) (hexec : exec d.mem false ins = .next m' push []) :
    d.step exec ⟨i, false⟩ = some ⟨m', d.threads.set i (push ++ rest)⟩ := by
  simp [Config.step, htop, hexec]

/-- A step with the shortcut is no step, one step or two steps of plain reference counting. -/
theorem plain_step (h : (protocol users).Holds c) {c' : State} {e : Turn}
    (hstep : c.step exec e = some c') : Reach exec (fun _ _ => True) (plain c) (plain c') := by
  obtain ⟨ins, rest, push, spawned, htop, hexec, hthreads⟩ := Config.step_cases hstep
  obtain ⟨m', threads⟩ := c'
  subst hthreads
  have hk := h.enters (List.mem_of_getElem? htop)
  have htop' : (plain c).threads[e.thread]? = some (ins.plain :: rest.map Instr.plain) := by
    simp [plain, htop]
  have hsub : ∀ call : Call, exec (plain c).mem false (.subtract call) =
      .next { (plain c).mem with lifeCount := c.mem.units - call.n }
        [.test call (c.mem.units - call.n)] [] := fun _ => rfl
  cases ins with
  | load call =>
    obtain ⟨-, hleft, -⟩ := covers hk rfl
    simp only [exec, load] at hexec
    split at hexec
    · rename_i hall
      cases hexec
      -- plain reference counting subtracts and finds zero
      have hzero : c.mem.units - call.n = 0 := by
        simp only [Mem.units, hleft, hall, sub_zero, sub_self]
      have hfirst := step_of_exec htop' (hsub call)
      rw [hzero] at hfirst
      refine .step ⟨e.thread, false⟩ (.step ⟨e.thread, false⟩ .start trivial hfirst) trivial ?_
      have hlt := (List.getElem?_eq_some_iff.mp htop').1
      have hlast : exec { (plain c).mem with lifeCount := 0 } false (.test call 0) =
          .next (returns { (plain c).mem with lifeCount := 0 } call true) [] [] := rfl
      have htest : ((plain c).threads.set e.thread
          (.test call 0 :: rest.map Instr.plain))[e.thread]? = _ := List.getElem?_set_self hlt
      rw [step_of_exec htest hlast]
      simp [plain, returns, Mem.units, hall, List.map_set]
    · cases hexec
      have hsame : (c.threads.set e.thread (.subtract call :: rest)).map (fun l => l.map Instr.plain) =
          c.threads.map fun l => l.map Instr.plain := by
        obtain ⟨hlt, heq⟩ := List.getElem?_eq_some_iff.mp htop'
        have hself := List.set_getElem_self hlt
        rw [heq] at hself
        rw [List.map_set]
        exact hself
      simp only [plain, List.append_nil, List.cons_append, List.nil_append, hsame]
      exact .start
  | subtract call =>
    obtain ⟨-, hleft, -⟩ := covers hk rfl
    cases hexec
    refine .step ⟨e.thread, false⟩ .start trivial ?_
    rw [step_of_exec htop' (hsub call)]
    simp [plain, Mem.units, hleft, List.map_set, Instr.plain]
  | test call k =>
    simp only [exec, test] at hexec
    split at hexec
    · rename_i hnonneg
      cases hexec
      have htest : exec (plain c).mem false (.test call k) =
          .next (returns (plain c).mem call (k == 0)) [] [] := by
        simp only [exec, test, hnonneg, if_true]
      refine .step ⟨e.thread, false⟩ .start trivial ?_
      rw [step_of_exec htop' htest]
      simp [plain, returns, Mem.units, List.map_set]
    · cases hexec

end Results

/-- With the shortcut and without, the releases of one count are counted: no assertion fails,
exactly one call returns `true`, and by then every call has taken its last step on the counter.
Whatever has been returned with the shortcut is also returned in a run without it. -/
theorem release_counted {count : ℤ} {users : List (List Call)} (hcount : 1 ≤ count)
    (hsum : (users.flatten.map Call.n).sum = count) :
    (∀ c, Reach exec (fun _ _ => True) (startPlain count users) c → Counted users c) ∧
    ∀ c, Reach exec (fun _ _ => True) (start count users) c → Counted users c ∧
      Reach exec (fun _ _ => True) (startPlain count users) (plain c) := by
  refine ⟨fun c hreach => ?_, fun c hreach => ⟨?_, ?_⟩⟩
  · exact counted_of_holds (holds_of_reach (first_holds (.inr rfl) hcount hsum) hreach)
  · exact counted_of_holds (holds_of_reach (first_holds (.inl rfl) hcount hsum) hreach)
  · rw [← plain_start]
    refine hreach.map plain fun c c' e hreach _ hstep => ?_
    exact plain_step (holds_of_reach (first_holds (.inl rfl) hcount hsum) hreach) hstep

/-- Three calls release five units; the last one takes the shortcut. -/
theorem release_counted_three : ∃ c,
    Reach exec (fun _ _ => True)
      (start 5 [[⟨0, 2, by decide⟩], [⟨1, 1, by decide⟩], [⟨2, 2, by decide⟩]]) c ∧
    c.mem.left = 2 ∧
    Counted [[⟨0, 2, by decide⟩], [⟨1, 1, by decide⟩], [⟨2, 2, by decide⟩]] c := by
  obtain ⟨c, hreach, hc⟩ := Reach.exists_of_run exec
    (start 5 [[⟨0, 2, by decide⟩], [⟨1, 1, by decide⟩], [⟨2, 2, by decide⟩]])
    (rounds [(0, 1), (1, 1), (0, 1), (1, 2), (2, 1), (0, 1)])
    (fun c => decide (c.mem.left = 2)) (by decide)
  exact ⟨c, hreach, of_decide_eq_true hc, ((release_counted (by decide) (by decide)).2 c hreach).1⟩

end Oox.Release
