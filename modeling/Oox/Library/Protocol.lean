import Oox.Library.Ledger

/-!
# Protocols with a ledger

A protocol says how its ledger is kept, what its memory satisfies, and what each instruction on
a stack may rely on. Checked once for every instruction, all of it holds in every configuration
a run reaches.
-/

set_option autoImplicit false

namespace Library

variable {Mem Instr Fault K : Type}

/-- The ledger of a protocol, its memory invariant and the facts its instructions rely on. -/
structure Protocol (Mem Instr K : Type) where
  balance : Mem → K → ℤ
  tokens : Instr → K → ℤ
  memory : Mem → Prop
  relies : Mem → Instr → List Instr → Prop
  tokens_nonneg : ∀ ins k, 0 ≤ tokens ins k

namespace Protocol

variable (P : Protocol Mem Instr K)

/-- What a protocol keeps in every configuration. -/
structure Holds (c : Config Mem Instr) : Prop where
  memory : P.memory c.mem
  law : Balanced P.balance P.tokens c
  relies : ∀ l ∈ c.threads, StackOk P.relies c.mem l

/-- What the instruction at the top of a stack may assume. -/
structure Enters (m : Mem) (ins : Instr) (rest : List Instr) : Prop where
  memory : P.memory m
  relies : P.relies m ins rest
  owed : ∀ k, stackSum P.tokens (ins :: rest) k ≤ -P.balance m k

/-- What it has to establish. -/
structure Keeps (m : Mem) (ins : Instr) (rest : List Instr) (m' : Mem) (push : List Instr)
    (spawned : List (List Instr)) : Prop where
  memory : P.memory m'
  conserves : Conserves P.balance P.tokens m ins m' push spawned
  stable : ∀ other rest', P.relies m other rest' →
    (∀ x ∈ other :: rest', Together P.balance P.tokens m ins x) → P.relies m' other rest'
  push : StackOk P.relies m' rest → StackOk P.relies m' (push ++ rest)
  spawned : ∀ l ∈ spawned, StackOk P.relies m' l

variable {P}

/-- What the memory owes covers the instruction itself. -/
theorem Enters.covered {m : Mem} {ins : Instr} {rest : List Instr} (h : P.Enters m ins rest)
    (k : K) : P.tokens ins k ≤ -P.balance m k :=
  (le_stackSum (fun x _ => P.tokens_nonneg x k) List.mem_cons_self).trans (h.owed k)

/-- What the memory owes covers the instruction and any one below it. -/
theorem Enters.covered_below {m : Mem} {ins x : Instr} {rest : List Instr}
    (h : P.Enters m ins rest) (hx : x ∈ rest) (k : K) :
    P.tokens ins k + P.tokens x k ≤ -P.balance m k := by
  have howed := h.owed k
  have hle : P.tokens x k ≤ stackSum P.tokens rest k :=
    le_stackSum (fun y _ => P.tokens_nonneg y k) hx
  rw [stackSum_cons] at howed
  omega

variable {exec : Mem → Bool → Instr → Outcome Mem Instr Fault}
variable {allowed : Config Mem Instr → Turn → Prop} {c c₀ c' : Config Mem Instr} {e : Turn}

namespace Holds

theorem holdings (c : Config Mem Instr) : Holdings P.tokens c :=
  fun _ _ ins _ k => P.tokens_nonneg ins k

theorem sum_nonneg (c : Config Mem Instr) (k : K) : 0 ≤ threadSum P.tokens c.threads k :=
  threadSum_nonneg fun _ _ ins _ => P.tokens_nonneg ins k

/-- What an instruction holds is part of what all threads hold. -/
theorem le_sum {l : List Instr} (hl : l ∈ c.threads) {ins : Instr} (hins : ins ∈ l) (k : K) :
    P.tokens ins k ≤ threadSum P.tokens c.threads k :=
  (le_stackSum (fun x _ => P.tokens_nonneg x k) hins).trans
    (le_threadSum (fun _ _ x _ => P.tokens_nonneg x k) hl)

/-- What the memory owes covers a whole stack. -/
theorem stack_covered (h : P.Holds c) {l : List Instr} (hl : l ∈ c.threads) (k : K) :
    stackSum P.tokens l k ≤ -P.balance c.mem k :=
  stack_le_owed h.law.backed (holdings c) hl k

/-- What the memory owes covers each instruction on a stack. -/
theorem covered (h : P.Holds c) {l : List Instr} (hl : l ∈ c.threads) {ins : Instr}
    (hins : ins ∈ l) (k : K) : P.tokens ins k ≤ -P.balance c.mem k :=
  (le_stackSum (fun x _ => P.tokens_nonneg x k) hins).trans (h.stack_covered hl k)

/-- A right the memory owes is held by an instruction of some stack. -/
theorem exists_holder (h : P.Holds c) {k : K} (howed : P.balance c.mem k < 0) :
    ∃ l ∈ c.threads, ∃ ins ∈ l, 0 < P.tokens ins k := by
  apply exists_pos_of_threadSum_pos
  have hk := h.law k
  omega

/-- When no thread has anything left to do, the memory owes nothing. -/
theorem settled (h : P.Holds c) (hempty : ∀ l ∈ c.threads, l = []) (k : K) :
    P.balance c.mem k = 0 := by
  have hle : ¬ 0 < threadSum P.tokens c.threads k := by
    intro hpos
    obtain ⟨l, hl, ins, hins, -⟩ := exists_pos_of_threadSum_pos hpos
    rw [hempty l hl] at hins
    cases hins
  have hnonneg := sum_nonneg (P := P) c k
  have hk := h.law k
  omega

theorem enters (h : P.Holds c) {ins : Instr} {rest : List Instr} (hl : ins :: rest ∈ c.threads) :
    P.Enters c.mem ins rest where
  memory := h.memory
  relies := (h.relies _ hl).1
  owed := h.stack_covered hl

/-- A step that keeps the protocol. -/
theorem step (h : P.Holds c)
    (hkeeps : ∀ ins rest m' push spawned, c.threads[e.thread]? = some (ins :: rest) →
      exec c.mem e.choice ins = .next m' push spawned → P.Enters c.mem ins rest →
      P.Keeps c.mem ins rest m' push spawned)
    (hstep : c.step exec e = some c') : P.Holds c' := by
  obtain ⟨ins, rest, push, spawned, htop, hexec, hthreads⟩ := Config.step_cases hstep
  have hl : ins :: rest ∈ c.threads := List.mem_of_getElem? htop
  have hk := hkeeps ins rest _ push spawned htop hexec (h.enters hl)
  refine ⟨hk.memory, h.law.step htop hk.conserves hthreads, ?_⟩
  exact stacks_step h.law.backed (holdings c) h.relies htop hthreads hk.stable hk.push hk.spawned

/-- A protocol that every allowed step keeps holds along every run. -/
theorem of_reach (hstart : P.Holds c₀)
    (hkeeps : ∀ c e ins rest m' push spawned, P.Holds c → allowed c e →
      c.threads[e.thread]? = some (ins :: rest) →
      exec c.mem e.choice ins = .next m' push spawned → P.Enters c.mem ins rest →
      P.Keeps c.mem ins rest m' push spawned)
    (hreach : Reach exec allowed c₀ c) : P.Holds c := by
  apply hreach.invariant hstart
  intro c c' e h hallowed hstep
  exact h.step (fun ins rest m' push spawned => hkeeps c e ins rest m' push spawned h hallowed)
    hstep

end Holds

end Protocol

/-! ## Threads that cannot run -/

/-- No thread can run, whatever its instruction chooses in the way it may rely on. -/
def Config.Stuck (exec : Mem → Bool → Instr → Outcome Mem Instr Fault)
    (c : Config Mem Instr) : Prop :=
  ∀ i, c.step exec ⟨i, false⟩ = none

/-- `Config.Stuck`, computed. -/
def Config.isStuck (exec : Mem → Bool → Instr → Outcome Mem Instr Fault)
    (c : Config Mem Instr) : Bool :=
  (List.range c.threads.length).all fun i => (c.step exec ⟨i, false⟩).isNone

theorem Config.stuck_of_isStuck {exec : Mem → Bool → Instr → Outcome Mem Instr Fault}
    {c : Config Mem Instr} (h : c.isStuck exec = true) : c.Stuck exec := by
  intro i
  by_cases hi : i < c.threads.length
  · exact Option.isNone_iff_eq_none.mp (List.all_eq_true.mp h i (List.mem_range.mpr hi))
  · unfold Config.step
    rw [List.getElem?_eq_none (Nat.le_of_not_lt hi)]

/-- The top instruction of a thread of a stuck configuration waits or fails. -/
theorem Config.Stuck.top {exec : Mem → Bool → Instr → Outcome Mem Instr Fault}
    {c : Config Mem Instr} (h : c.Stuck exec) {ins : Instr} {rest : List Instr}
    (hl : ins :: rest ∈ c.threads) :
    exec c.mem false ins = .blocked ∨ ∃ cause, exec c.mem false ins = .fault cause := by
  obtain ⟨i, hi⟩ := List.getElem?_of_mem hl
  have hnone := h i
  unfold Config.step at hnone
  rw [hi] at hnone
  dsimp only at hnone
  cases hexec : exec c.mem false ins with
  | next mem push spawned =>
    rw [hexec] at hnone
    cases hnone
  | blocked => exact .inl rfl
  | fault cause => exact .inr ⟨cause, rfl⟩

/-- Instructions of a kind that is never pushed stay below nothing but their own kind. -/
theorem Reach.pairwise {exec : Mem → Bool → Instr → Outcome Mem Instr Fault}
    {allowed : Config Mem Instr → Turn → Prop} {c₀ c : Config Mem Instr} {p : Instr → Bool}
    (hpush : ∀ m choice ins m' push spawned, exec m choice ins = .next m' push spawned →
      (∀ x ∈ push, p x = false) ∧ ∀ l ∈ spawned, ∀ x ∈ l, p x = false)
    (hstart : ∀ l ∈ c₀.threads, l.Pairwise fun x y => p x = true → p y = true)
    (hreach : Reach exec allowed c₀ c) :
    ∀ l ∈ c.threads, l.Pairwise fun x y => p x = true → p y = true := by
  apply hreach.invariant hstart
  intro c c' e h _ hstep
  obtain ⟨ins, rest, push, spawned, htop, hexec, hthreads⟩ := Config.step_cases hstep
  obtain ⟨hpushed, hspawned⟩ := hpush _ _ _ _ _ _ hexec
  have hnone : ∀ {l : List Instr} {q : Instr → Instr → Prop}, (∀ x ∈ l, p x = false) →
      l.Pairwise fun x y => p x = true → q x y := by
    intro l q hl
    induction l with
    | nil => exact .nil
    | cons x l ih =>
      refine .cons (fun y _ hx => ?_) (ih fun y hy => hl y (List.mem_cons_of_mem x hy))
      rw [hl x List.mem_cons_self] at hx
      cases hx
  intro l hl
  rw [hthreads] at hl
  rcases List.mem_append.mp hl with hl | hl
  · rcases List.mem_or_eq_of_mem_set hl with hl | rfl
    · exact h l hl
    · have hrest := (List.pairwise_cons.mp (h _ (List.mem_of_getElem? htop))).2
      refine List.pairwise_append.mpr ⟨hnone hpushed, hrest, fun x hx y _ hyes => ?_⟩
      rw [hpushed x hx] at hyes
      cases hyes
  · exact hnone (hspawned l hl)

/-! ## Programs that end -/

/-- There is a bound on how long a run from here can get. -/
def Config.Ends (exec : Mem → Bool → Instr → Outcome Mem Instr Fault)
    (c : Config Mem Instr) : Prop :=
  ∃ n, ∀ es c', c.run exec es = some c' → es.length ≤ n

/-- The weight of all instructions on a list of stacks. -/
def threadWeight (weight : Instr → ℕ) (ls : List (List Instr)) : ℕ :=
  (ls.map fun l => (l.map weight).sum).sum

theorem threadWeight_set (weight : Instr → ℕ) {ls : List (List Instr)} {i : ℕ} {l : List Instr}
    (h : ls[i]? = some l) (l' : List Instr) :
    threadWeight weight (ls.set i l') + (l.map weight).sum =
      threadWeight weight ls + (l'.map weight).sum := by
  induction ls generalizing i with
  | nil => cases h
  | cons x ls ih =>
    cases i with
    | zero =>
      obtain rfl := Option.some.inj h
      simp only [threadWeight, List.set_cons_zero, List.map_cons, List.sum_cons]
      omega
    | succ i =>
      have hrest := ih (i := i) h
      simp only [threadWeight, List.set_cons_succ, List.map_cons, List.sum_cons] at hrest ⊢
      omega

/-- When every instruction outweighs what it leaves to do, all runs end. -/
theorem Config.ends_of_weight {exec : Mem → Bool → Instr → Outcome Mem Instr Fault}
    (weight : Instr → ℕ) (potential : Mem → ℕ) {I : Mem → Prop}
    (hless : ∀ m choice ins m' push spawned, I m → exec m choice ins = .next m' push spawned →
      I m' ∧ potential m' + (push.map weight).sum + threadWeight weight spawned <
        potential m + weight ins)
    {c : Config Mem Instr} (hc : I c.mem) : c.Ends exec := by
  refine ⟨potential c.mem + threadWeight weight c.threads, fun es => ?_⟩
  induction es generalizing c with
  | nil => exact fun _ _ => Nat.zero_le _
  | cons e es ih =>
    intro c' hrun
    obtain ⟨c₁, hstep, hrest⟩ := Option.bind_eq_some_iff.mp hrun
    obtain ⟨ins, rest, push, spawned, htop, hexec, hthreads⟩ := Config.step_cases hstep
    obtain ⟨hc₁, hlt⟩ := hless _ _ _ _ _ _ hc hexec
    have hle := ih hc₁ c' hrest
    have hset := threadWeight_set weight htop (push ++ rest)
    have hsum : threadWeight weight c₁.threads =
        threadWeight weight (c.threads.set e.thread (push ++ rest)) + threadWeight weight spawned := by
      rw [hthreads]
      simp only [threadWeight, List.map_append, List.sum_append]
    simp only [List.map_cons, List.map_append, List.sum_cons, List.sum_append] at hset
    rw [List.length_cons]
    omega

end Library
