import Oox.Library.Protocol
import Oox.Model.Words

/-!
# Waiting on the plain STD backend

In the plain STD backend (oox.h:532-555) a task waits and is woken through one
`std::promise<void>`. Any number of threads call `oox_var_base::wait` on the var of one task,
other threads add arcs to the task, and the task completes.
-/

set_option autoImplicit false

namespace Oox.Promise

open Library

/-- The list head of a task and its `waiter`. -/
structure Mem where
  head : Head := .list []
  /-- `get_future` was called. -/
  retrieved : Bool := false
  /-- `set_value` was called. -/
  satisfied : Bool := false
  -- history
  /-- how many waits found the list open. -/
  entered : ℕ := 0
  /-- how many waits returned. -/
  returned : ℕ := 0
  deriving DecidableEq, Repr

inductive Instr where
  -- notify_successors of the task
  | closeList (terminal : Option ℕ)
  | notifyArcs (r : List ℕ)
  | wakeup
  -- a thread that registers a consumer
  | addArc (a : ℕ)
  -- oox_var_base::wait
  | waitHead
  | getFuture
  | waitFuture
  | waitDone
  deriving DecidableEq, Repr

inductive Fault where
  /-- a debug assertion fails, or a list is closed twice. -/
  | assertion
  /-- `std::future_errc::future_already_retrieved`. -/
  | alreadyRetrieved
  /-- `std::future_errc::promise_already_satisfied`. -/
  | alreadySatisfied
  deriving DecidableEq, Repr

abbrev State := Config Mem Instr
abbrev Step := Outcome Mem Instr Fault

/-- Continue on the same thread. -/
abbrev goto (m : Mem) (push : List Instr) : Step := .next m push []

/-- `head.exchange(terminal)` of `notify_successors` (oox.h:1136-1158). -/
def closeList (m : Mem) (terminal : Option ℕ) : Step :=
  let closed : Head := match terminal with
    | some a => .terminal a
    | none => .done
  match m.head with
  | .list r => goto { m with head := closed } [.notifyArcs r]
  | _ => .fault .assertion

/-- A round of `do_notify_arcs`, which changes nothing a waiter reads. -/
def notifyArcs (m : Mem) : List ℕ → Step
  | [] => goto m [.wakeup]
  | _ :: r => goto m [.notifyArcs r]

/-- `task::wakeup`: `waiter.set_value()`. -/
def wakeup (m : Mem) : Step :=
  if m.satisfied then .fault .alreadySatisfied else goto { m with satisfied := true } []

/-- `arc_list::add_arc`. -/
def addArc (m : Mem) (a : ℕ) : Step :=
  match m.head with
  | .list l => goto { m with head := .list (a :: l) } []
  | _ => goto m []

/-- `oox_var_base::wait`: the check of `head` (oox.h:1338-1341). -/
def waitHead (m : Mem) : Step :=
  if m.head.isDone then
    goto { m with returned := m.returned + 1 } []
  else
    goto { m with entered := m.entered + 1 } [.getFuture]

/-- `task::wait`: `waiter.get_future()`. -/
def getFuture (m : Mem) : Step :=
  if m.retrieved then .fault .alreadyRetrieved
  else goto { m with retrieved := true } [.waitFuture]

/-- `task::wait`: `wait()` of the future. -/
def waitFuture (m : Mem) : Step :=
  if m.satisfied then goto m [.waitDone] else .blocked

/-- `oox_var_base::wait`: the assertion on `head` after the backend's wait. -/
def waitDone (m : Mem) : Step :=
  if m.head.isDone then goto { m with returned := m.returned + 1 } [] else .fault .assertion

def exec (m : Mem) (_choice : Bool) : Instr → Step
  | .closeList terminal => closeList m terminal
  | .notifyArcs r => notifyArcs m r
  | .wakeup => wakeup m
  | .addArc a => addArc m a
  | .waitHead => waitHead m
  | .getFuture => getFuture m
  | .waitFuture => waitFuture m
  | .waitDone => waitDone m

/-- What a thread of the user does with the var. -/
inductive Use where
  | wait
  | consume (a : ℕ)
  deriving DecidableEq, Repr

def Use.instr : Use → Instr
  | .wait => .waitHead
  | .consume a => .addArc a

/-- A task about to complete with the given terminal arc, and any number of threads. -/
def start (terminal : Option ℕ) (users : List (List Use)) : State :=
  { mem := {}, threads := [.closeList terminal] :: users.map fun l => l.map Use.instr }

/-! ## The protocol -/

inductive Right where
  /-- to call `set_value`. -/
  | promise
  /-- to call `get_future`. -/
  | future
  deriving DecidableEq, Repr

/-- The instructions of `notify_successors`. -/
def Instr.completes : Instr → Bool
  | .closeList _ => true
  | .notifyArcs _ => true
  | .wakeup => true
  | _ => false

def tokens (ins : Instr) : Right → ℤ
  | .promise => if ins.completes then 1 else 0
  | .future => if ins = .getFuture then 1 else 0

/-- One `set_value` is owed until it is called, and one `get_future` for each wait that found
the list open. -/
def balance (m : Mem) : Right → ℤ
  | .promise => if m.satisfied then 0 else -1
  | .future => (if m.retrieved then 1 else 0) - m.entered

/-- What an instruction relies on. Rights are held at the top of a stack only. -/
def Relies (m : Mem) (ins : Instr) (rest : List Instr) : Prop :=
  (∀ x ∈ rest, ∀ k, tokens x k = 0) ∧
  match ins with
  | .closeList _ => ∃ l, m.head = .list l
  | .notifyArcs _ => m.head.isDone = true
  | .wakeup => m.head.isDone = true
  | .waitDone => m.head.isDone = true
  | _ => True

structure MemOk (m : Mem) : Prop where
  satisfied : m.satisfied = true → m.head.isDone = true
  returned : 0 < m.returned → m.head.isDone = true
  /-- the head of a task is never a redirect. -/
  head : m.head.isDone = true ∨ ∃ l, m.head = .list l

def protocol : Protocol Mem Instr Right where
  balance := balance
  tokens := tokens
  memory := MemOk
  relies := Relies
  tokens_nonneg ins k := by
    cases k <;> simp only [tokens] <;> split_ifs <;> decide

/-- A turn that lets a wait find the list open only when no wait did before. -/
def alone (c : State) (e : Turn) : Bool :=
  match c.threads[e.thread]? with
  | some (.waitHead :: _) => c.mem.head.isDone || c.mem.entered == 0
  | _ => true

/-! ## Steps -/

section Steps

variable {m m' : Mem} {ins : Instr} {rest push : List Instr} {spawned : List (List Instr)}

theorem Relies.frame (h : Relies m ins rest) (hdone : m.head.isDone = true → m'.head.isDone = true)
    (hopen : ins.completes = true → (∃ l, m.head = .list l) → ∃ l, m'.head = .list l) :
    Relies m' ins rest := by
  refine ⟨h.1, ?_⟩
  have hins := h.2
  cases ins with
  | closeList terminal => exact hopen rfl hins
  | notifyArcs r => exact hdone hins
  | wakeup => exact hdone hins
  | waitDone => exact hdone hins
  | _ => trivial

theorem relies_of_eq (hhead : m'.head = m.head) (h : Relies m ins rest) : Relies m' ins rest :=
  h.frame (by rw [hhead]; exact id) (by rw [hhead]; exact fun _ => id)

/-- No two instructions hold the one right to complete the task. -/
theorem not_completes_of_together {other : Instr} (hins : ins.completes = true)
    (hwith : Together balance tokens m ins other) : other.completes = false := by
  have hk := hwith .promise
  by_contra hother
  simp only [tokens, hins, Bool.not_eq_false] at hk hother
  simp only [hother, if_true, balance] at hk
  split_ifs at hk <;> omega

/-- A step that leaves the head as it is and pushes instructions in order. -/
theorem keeps_of_head (hok : MemOk m') (hhead : m'.head = m.head)
    (hcons : Conserves balance tokens m ins m' push [])
    (hpush : StackOk Relies m' rest → StackOk Relies m' (push ++ rest)) :
    protocol.Keeps m ins rest m' push [] where
  memory := hok
  conserves := hcons
  stable _ _ hother _ := relies_of_eq hhead hother
  push := hpush
  spawned l hl := by cases hl

theorem closeList_keeps {terminal : Option ℕ} (h : protocol.Enters m (.closeList terminal) rest)
    (hstep : closeList m terminal = .next m' push spawned) :
    protocol.Keeps m (.closeList terminal) rest m' push spawned := by
  obtain ⟨r, hr⟩ := h.relies.2
  unfold closeList at hstep
  rw [hr] at hstep
  obtain ⟨rfl, rfl, rfl⟩ := hstep
  have hdone : ∀ closed : Option ℕ, (match closed with
      | some a => Head.terminal a
      | none => .done).isDone = true := by
    rintro (_ | a) <;> rfl
  exact
    { memory := ⟨fun _ => hdone _, fun _ => hdone _, .inl (hdone _)⟩
      conserves := fun k => by
        cases k <;> simp [protocol, balance, tokens, Instr.completes]
      stable := fun other rest' hother hwith => by
        refine hother.frame (fun _ => hdone _) fun hc => ?_
        rw [not_completes_of_together rfl (hwith other List.mem_cons_self)] at hc
        cases hc
      push := fun hrest => ⟨⟨h.relies.1, hdone _⟩, hrest⟩
      spawned := fun l hl => by cases hl }

theorem notifyArcs_keeps {r : List ℕ} (h : protocol.Enters m (.notifyArcs r) rest)
    (hstep : notifyArcs m r = .next m' push spawned) :
    protocol.Keeps m (.notifyArcs r) rest m' push spawned := by
  cases r with
  | nil =>
    obtain ⟨rfl, rfl, rfl⟩ := hstep
    refine keeps_of_head h.memory rfl (fun k => ?_) fun hrest => ⟨h.relies, hrest⟩
    cases k <;> simp [tokens, Instr.completes]
  | cons a r =>
    obtain ⟨rfl, rfl, rfl⟩ := hstep
    refine keeps_of_head h.memory rfl (fun k => ?_) fun hrest => ⟨h.relies, hrest⟩
    cases k <;> simp [tokens, Instr.completes]

theorem wakeup_keeps (h : protocol.Enters m .wakeup rest)
    (hstep : wakeup m = .next m' push spawned) :
    protocol.Keeps m .wakeup rest m' push spawned := by
  unfold wakeup at hstep
  split at hstep
  · cases hstep
  · rename_i hunset
    obtain ⟨rfl, rfl, rfl⟩ := hstep
    have hok : MemOk { m with satisfied := true } :=
      ⟨fun _ => h.relies.2, h.memory.returned, h.memory.head⟩
    refine keeps_of_head hok rfl (fun k => ?_) id
    cases k with
    | promise => simp [balance, tokens, Instr.completes, hunset]
    | future => simp [balance, tokens]

theorem addArc_keeps {a : ℕ} (h : protocol.Enters m (.addArc a) rest)
    (hstep : addArc m a = .next m' push spawned) :
    protocol.Keeps m (.addArc a) rest m' push spawned := by
  unfold addArc at hstep
  split at hstep
  · rename_i l hl
    obtain ⟨rfl, rfl, rfl⟩ := hstep
    have hopen : m.head.isDone = false := by
      rw [hl]
      rfl
    exact
      { memory :=
          { satisfied := fun hs => by rw [h.memory.satisfied hs] at hopen; cases hopen
            returned := fun hr => by rw [h.memory.returned hr] at hopen; cases hopen
            head := .inr ⟨_, rfl⟩ }
        conserves := fun k => by
          cases k <;> simp [protocol, balance, tokens, Instr.completes]
        stable := fun other rest' hother _ => by
          refine hother.frame (fun hdone => ?_) fun _ _ => ⟨_, rfl⟩
          rw [hopen] at hdone
          cases hdone
        push := id
        spawned := fun l hl => by cases hl }
  · obtain ⟨rfl, rfl, rfl⟩ := hstep
    refine keeps_of_head h.memory rfl (fun k => ?_) id
    cases k <;> simp [tokens, Instr.completes]

theorem waitHead_keeps (h : protocol.Enters m .waitHead rest) (hstep : waitHead m = .next m' push spawned) :
    protocol.Keeps m .waitHead rest m' push spawned := by
  unfold waitHead at hstep
  split at hstep
  · rename_i hdone
    obtain ⟨rfl, rfl, rfl⟩ := hstep
    have hok : MemOk { m with returned := m.returned + 1 } :=
      ⟨h.memory.satisfied, fun _ => hdone, h.memory.head⟩
    refine keeps_of_head hok rfl (fun k => ?_) id
    cases k <;> simp [balance, tokens, Instr.completes]
  · obtain ⟨rfl, rfl, rfl⟩ := hstep
    have hok : MemOk { m with entered := m.entered + 1 } :=
      ⟨h.memory.satisfied, h.memory.returned, h.memory.head⟩
    refine keeps_of_head hok rfl (fun k => ?_) fun hrest => ⟨⟨h.relies.1, trivial⟩, hrest⟩
    cases k with
    | promise => simp [balance, tokens, Instr.completes]
    | future =>
      simp only [balance, tokens, stackSum_cons, stackSum_nil, threadSum_nil, if_true,
        reduceCtorEq, if_false]
      push_cast
      omega

theorem getFuture_keeps (h : protocol.Enters m .getFuture rest)
    (hstep : getFuture m = .next m' push spawned) :
    protocol.Keeps m .getFuture rest m' push spawned := by
  unfold getFuture at hstep
  split at hstep
  · cases hstep
  · rename_i hfree
    obtain ⟨rfl, rfl, rfl⟩ := hstep
    have hok : MemOk { m with retrieved := true } :=
      ⟨h.memory.satisfied, h.memory.returned, h.memory.head⟩
    refine keeps_of_head hok rfl (fun k => ?_) fun hrest => ⟨⟨h.relies.1, trivial⟩, hrest⟩
    cases k with
    | promise => simp [balance, tokens, Instr.completes]
    | future => simp [balance, tokens, hfree]; omega

theorem waitFuture_keeps (h : protocol.Enters m .waitFuture rest)
    (hstep : waitFuture m = .next m' push spawned) :
    protocol.Keeps m .waitFuture rest m' push spawned := by
  unfold waitFuture at hstep
  split at hstep
  · rename_i hset
    obtain ⟨rfl, rfl, rfl⟩ := hstep
    refine keeps_of_head h.memory rfl (fun k => ?_) fun hrest =>
      ⟨⟨h.relies.1, h.memory.satisfied hset⟩, hrest⟩
    cases k <;> simp [tokens, Instr.completes]
  · cases hstep

theorem waitDone_keeps (h : protocol.Enters m .waitDone rest)
    (hstep : waitDone m = .next m' push spawned) :
    protocol.Keeps m .waitDone rest m' push spawned := by
  unfold waitDone at hstep
  split at hstep
  · rename_i hdone
    obtain ⟨rfl, rfl, rfl⟩ := hstep
    have hok : MemOk { m with returned := m.returned + 1 } :=
      ⟨h.memory.satisfied, fun _ => hdone, h.memory.head⟩
    refine keeps_of_head hok rfl (fun k => ?_) id
    cases k <;> simp [balance, tokens, Instr.completes]
  · cases hstep

end Steps

/-- Every step keeps the protocol. -/
theorem keeps {m m' : Mem} {choice : Bool} {ins : Instr} {rest push : List Instr}
    {spawned : List (List Instr)} (h : protocol.Enters m ins rest)
    (hexec : exec m choice ins = .next m' push spawned) :
    protocol.Keeps m ins rest m' push spawned := by
  cases ins with
  | closeList terminal => exact closeList_keeps h hexec
  | notifyArcs r => exact notifyArcs_keeps h hexec
  | wakeup => exact wakeup_keeps h hexec
  | addArc a => exact addArc_keeps h hexec
  | waitHead => exact waitHead_keeps h hexec
  | getFuture => exact getFuture_keeps h hexec
  | waitFuture => exact waitFuture_keeps h hexec
  | waitDone => exact waitDone_keeps h hexec

/-! ## Runs -/

theorem stackSum_uses (us : List Use) (k : Right) : stackSum tokens (us.map Use.instr) k = 0 := by
  induction us with
  | nil => rfl
  | cons u us ih =>
    rw [List.map_cons, stackSum_cons, ih, add_zero]
    cases u <;> cases k <;> rfl

theorem tokens_of_use {us : List Use} {ins : Instr} (h : ins ∈ us.map Use.instr) (k : Right) :
    tokens ins k = 0 := by
  obtain ⟨u, -, rfl⟩ := List.mem_map.mp h
  cases u <;> cases k <;> rfl

theorem relies_uses (m : Mem) (us : List Use) : StackOk Relies m (us.map Use.instr) := by
  induction us with
  | nil => trivial
  | cons u us ih =>
    refine ⟨⟨fun x => tokens_of_use, ?_⟩, ih⟩
    cases u <;> trivial

/-- The protocol holds before the task completes. -/
theorem start_holds (terminal : Option ℕ) (users : List (List Use)) :
    protocol.Holds (start terminal users) where
  memory :=
    { satisfied := fun h => by cases h
      returned := fun h => by cases h
      head := .inr ⟨[], rfl⟩ }
  law k := by
    have husers : threadSum tokens (users.map fun l => l.map Use.instr) k = 0 := by
      induction users with
      | nil => rfl
      | cons l users ih => rw [List.map_cons, threadSum_cons, ih, stackSum_uses, add_zero]
    cases k <;> simp [start, protocol, balance, tokens, Instr.completes, husers]
  relies l hl := by
    rcases List.mem_cons.mp hl with rfl | hl
    · exact ⟨⟨fun x hx => (by cases hx), [], rfl⟩, trivial⟩
    · obtain ⟨us, -, rfl⟩ := List.mem_map.mp hl
      exact relies_uses _ us

theorem holds_of_reach {allowed : State → Turn → Prop} {terminal : Option ℕ}
    {users : List (List Use)} {c : State} (hreach : Reach exec allowed (start terminal users) c) :
    protocol.Holds c :=
  Protocol.Holds.of_reach (start_holds terminal users)
    (fun _ _ _ _ _ _ _ _ _ _ hexec h => keeps h hexec) hreach

/-- Only a wait that finds the list open is counted. -/
theorem entered_step {m m' : Mem} {choice : Bool} {ins : Instr} {push : List Instr}
    {spawned : List (List Instr)} (hexec : exec m choice ins = .next m' push spawned) :
    m'.entered = m.entered ∨
      ins = .waitHead ∧ m.head.isDone = false ∧ m'.entered = m.entered + 1 := by
  cases ins with
  | waitHead =>
    simp only [exec, waitHead] at hexec
    split at hexec
    · cases hexec
      exact .inl rfl
    · rename_i hopen
      cases hexec
      exact .inr ⟨rfl, by simpa using hopen, rfl⟩
  | notifyArcs r =>
    cases r <;> cases hexec <;> exact .inl rfl
  | closeList terminal =>
    simp only [exec, closeList] at hexec
    split at hexec <;> cases hexec
    exact .inl rfl
  | addArc a =>
    simp only [exec, addArc] at hexec
    split at hexec <;> cases hexec <;> exact .inl rfl
  | wakeup =>
    simp only [exec, wakeup] at hexec
    split at hexec <;> cases hexec
    exact .inl rfl
  | getFuture =>
    simp only [exec, getFuture] at hexec
    split at hexec <;> cases hexec
    exact .inl rfl
  | waitFuture =>
    simp only [exec, waitFuture] at hexec
    split at hexec <;> cases hexec
    exact .inl rfl
  | waitDone =>
    simp only [exec, waitDone] at hexec
    split at hexec <;> cases hexec
    exact .inl rfl

/-- At most one wait finds the list open when every turn sees to it. -/
theorem entered_le_one {terminal : Option ℕ} {users : List (List Use)} {c : State}
    (hreach : Reach exec (fun c e => alone c e = true) (start terminal users) c) :
    c.mem.entered ≤ 1 := by
  apply hreach.invariant (I := fun c => c.mem.entered ≤ 1) (Nat.zero_le _)
  intro c c' e hle halone hstep
  obtain ⟨ins, rest, push, spawned, htop, hexec, -⟩ := Config.step_cases hstep
  rcases entered_step hexec with hsame | ⟨rfl, hopen, hmore⟩
  · exact hsame ▸ hle
  · unfold alone at halone
    rw [htop] at halone
    have hzero : c.mem.entered = 0 := by simpa [hopen] using halone
    omega

/-! ## What waiters may count on -/

/-- No wait raises an error, a wait returns only once the task is complete, and nobody is left
waiting when nothing can run any more. -/
structure Served (c : State) : Prop where
  noError : ∀ l ∈ c.threads, ∀ ins rest, l = ins :: rest →
    ∀ choice cause, exec c.mem choice ins ≠ .fault cause
  returned : 0 < c.mem.returned → c.mem.head.isDone = true
  served : c.Stuck exec → ∀ l ∈ c.threads, l = []
  ends : c.Ends exec

/-- What is left to do after an instruction, counted in steps. -/
def Instr.weight : Instr → ℕ
  | .closeList _ => 3
  | .notifyArcs r => r.length + 2
  | .wakeup => 1
  | .addArc _ => 2
  | .waitHead => 4
  | .getFuture => 3
  | .waitFuture => 2
  | .waitDone => 1

/-- How many arcs the completion will have to notify. -/
def Mem.waiting (m : Mem) : ℕ :=
  match m.head with
  | .list l => l.length
  | _ => 0

/-- Every instruction outweighs what it leaves to do. -/
theorem weight_step {m m' : Mem} {choice : Bool} {ins : Instr} {push : List Instr}
    {spawned : List (List Instr)} (hexec : exec m choice ins = .next m' push spawned) :
    m'.waiting + (push.map Instr.weight).sum + threadWeight Instr.weight spawned <
      m.waiting + ins.weight := by
  cases ins with
  | closeList terminal =>
    simp only [exec, closeList] at hexec
    split at hexec
    · rename_i r hr
      cases hexec
      cases terminal <;> simp [Mem.waiting, threadWeight, Instr.weight, hr]
    · cases hexec
  | notifyArcs r =>
    cases r <;> cases hexec <;> simp [threadWeight, Instr.weight]
  | wakeup =>
    simp only [exec, wakeup] at hexec
    split at hexec <;> cases hexec
    simp [Mem.waiting, threadWeight, Instr.weight]
  | addArc a =>
    simp only [exec, addArc] at hexec
    split at hexec
    · rename_i l hl
      cases hexec
      simp [Mem.waiting, threadWeight, Instr.weight, hl]
    · cases hexec
      simp [threadWeight, Instr.weight]
  | waitHead =>
    simp only [exec, waitHead] at hexec
    split at hexec <;> cases hexec <;> simp [Mem.waiting, threadWeight, Instr.weight]
  | getFuture =>
    simp only [exec, getFuture] at hexec
    split at hexec <;> cases hexec
    simp [Mem.waiting, threadWeight, Instr.weight]
  | waitFuture =>
    simp only [exec, waitFuture] at hexec
    split at hexec <;> cases hexec
    simp [threadWeight, Instr.weight]
  | waitDone =>
    simp only [exec, waitDone] at hexec
    split at hexec <;> cases hexec
    simp [Mem.waiting, threadWeight, Instr.weight]

section Results

variable {c : State}

theorem not_fault (h : protocol.Holds c) (hentered : c.mem.entered ≤ 1) {ins : Instr}
    {rest : List Instr} (hl : ins :: rest ∈ c.threads) (choice : Bool) (cause : Fault) :
    exec c.mem choice ins ≠ .fault cause := by
  have hk := h.enters hl
  intro hfault
  cases ins with
  | closeList terminal =>
    obtain ⟨r, hr⟩ := hk.relies.2
    simp [exec, closeList, hr] at hfault
  | notifyArcs r => cases r <;> simp [exec, notifyArcs] at hfault
  | wakeup =>
    have hcov := hk.covered .promise
    have hset : c.mem.satisfied = false := by
      by_contra hset
      rw [Bool.not_eq_false] at hset
      simp [protocol, tokens, balance, Instr.completes, hset] at hcov
    simp [exec, wakeup, hset] at hfault
  | addArc a =>
    simp only [exec, addArc] at hfault
    split at hfault <;> cases hfault
  | waitHead =>
    simp only [exec, waitHead] at hfault
    split at hfault <;> cases hfault
  | getFuture =>
    -- only one wait entered, so nobody else has taken the future
    have hcov := hk.covered .future
    have hfree : c.mem.retrieved = false := by
      by_contra hset
      rw [Bool.not_eq_false] at hset
      simp [protocol, tokens, balance, hset] at hcov
      omega
    simp [exec, getFuture, hfree] at hfault
  | waitFuture =>
    simp only [exec, waitFuture] at hfault
    split at hfault <;> cases hfault
  | waitDone =>
    have hdone : c.mem.head.isDone = true := hk.relies.2
    simp [exec, waitDone, hdone] at hfault

/-- While `set_value` was not called, the completing thread can run. -/
theorem exists_completing (h : protocol.Holds c) (hunset : c.mem.satisfied = false) :
    ∃ ins rest, ins :: rest ∈ c.threads ∧ ins.completes = true := by
  have howed : protocol.balance c.mem .promise < 0 := by
    simp [protocol, balance, hunset]
  obtain ⟨l, hl, ins, hins, hpos⟩ := h.exists_holder howed
  have hcompletes : ins.completes = true := by
    by_contra hno
    simp [protocol, tokens, hno] at hpos
  cases l with
  | nil => cases hins
  | cons x rest =>
    rcases List.mem_cons.mp hins with rfl | hmem
    · exact ⟨ins, rest, hl, hcompletes⟩
    · have hnone := (h.enters hl).relies.1 ins hmem .promise
      simp [tokens, hcompletes] at hnone

theorem not_blocked_of_completes {m : Mem} {choice : Bool} {ins : Instr}
    (h : ins.completes = true) : exec m choice ins ≠ .blocked := by
  cases ins with
  | closeList terminal =>
    simp only [exec, closeList]
    split <;> simp
  | notifyArcs r => cases r <;> simp [exec, notifyArcs]
  | wakeup =>
    simp only [exec, wakeup]
    split <;> simp
  | _ => cases h

theorem served_of_holds (h : protocol.Holds c) (hentered : c.mem.entered ≤ 1) : Served c where
  noError l hl ins rest heq choice cause := by
    subst heq
    exact not_fault h hentered hl choice cause
  returned := h.memory.returned
  served hstuck l hl := by
    cases l with
    | nil => rfl
    | cons ins rest =>
      exfalso
      have hblocked := (hstuck.top hl).resolve_right fun ⟨cause, hfault⟩ =>
        not_fault h hentered hl false cause hfault
      have hunset : c.mem.satisfied = false := by
        cases ins with
        | waitFuture =>
          by_contra hset
          rw [Bool.not_eq_false] at hset
          simp [exec, waitFuture, hset] at hblocked
        | addArc a =>
          simp only [exec, addArc] at hblocked
          split at hblocked <;> cases hblocked
        | waitHead =>
          simp only [exec, waitHead] at hblocked
          split at hblocked <;> cases hblocked
        | getFuture =>
          simp only [exec, getFuture] at hblocked
          split at hblocked <;> cases hblocked
        | waitDone =>
          simp only [exec, waitDone] at hblocked
          split at hblocked <;> cases hblocked
        | _ => exact absurd hblocked (not_blocked_of_completes rfl)
      obtain ⟨ins', rest', hl', hc⟩ := exists_completing h hunset
      rcases hstuck.top hl' with hb | ⟨cause, hfault⟩
      · exact not_blocked_of_completes hc hb
      · exact not_fault h hentered hl' false cause hfault
  ends := Config.ends_of_weight Instr.weight Mem.waiting
    (fun _ _ _ _ _ _ _ hexec => ⟨trivial, weight_step hexec⟩) trivial

/-- In every run in which at most one wait finds the list of the task open, all waits are
served. -/
theorem served_of_alone {terminal : Option ℕ} {users : List (List Use)}
    (hreach : Reach exec (fun c e => alone c e = true) (start terminal users) c) : Served c :=
  served_of_holds (holds_of_reach hreach) (entered_le_one hreach)

/-- When nothing can run any more and all waits were served, at most one of them found the list
open. -/
theorem entered_le_one_of_served {allowed : State → Turn → Prop} {terminal : Option ℕ}
    {users : List (List Use)} (hreach : Reach exec allowed (start terminal users) c)
    (hstuck : c.Stuck exec) (hserved : Served c) : c.mem.entered ≤ 1 := by
  by_contra hmany
  have h := holds_of_reach hreach
  have howed : protocol.balance c.mem .future < 0 := by
    simp only [protocol, balance]
    split_ifs <;> omega
  obtain ⟨l, hl, ins, hins, -⟩ := h.exists_holder howed
  rw [hserved.served hstuck l hl] at hins
  cases hins

end Results

/-- One wait before the completion and one after it are served. -/
theorem served_of_alone_twice : ∃ c,
    Reach exec (fun c e => alone c e = true) (start none [[.wait], [.wait]]) c ∧
    c.mem.returned = 2 ∧ Served c := by
  obtain ⟨c, hreach, hc⟩ := Reach.exists_of_runIf exec alone (start none [[.wait], [.wait]])
    (rounds [(1, 2), (0, 3), (2, 1), (1, 2)]) (fun c => decide (c.mem.returned = 2))
    (by decide)
  exact ⟨c, hreach, of_decide_eq_true hc, served_of_alone hreach⟩

/-- Two waits that both find the list open: the second `get_future` raises an error. -/
theorem second_wait_raises : ∃ c,
    Reach exec (fun _ _ => True) (start none [[.wait], [.wait]]) c ∧
    c.threads[2]? = some [Instr.getFuture] ∧
    exec c.mem false .getFuture = .fault .alreadyRetrieved ∧ ¬ Served c := by
  obtain ⟨c, hreach, hc⟩ := Reach.exists_of_run exec (start none [[.wait], [.wait]])
    (rounds [(1, 1), (2, 1), (1, 1)])
    (fun c => decide (c.threads[2]? = some [Instr.getFuture] ∧ c.mem.retrieved = true))
    (by decide)
  obtain ⟨htop, hretrieved⟩ := of_decide_eq_true hc
  have hfault : exec c.mem false .getFuture = .fault .alreadyRetrieved := by
    simp [exec, getFuture, hretrieved]
  exact ⟨c, hreach, htop, hfault, fun hserved =>
    hserved.noError _ (List.mem_of_getElem? htop) _ _ rfl _ _ hfault⟩

end Oox.Promise
