import Oox.Forwarding.Mirror

/-!
# Forwarding is transparent for failures

As long as the condition is met, whoever waits on the forwarding task's var or reads its result
observes the outcome that a wait on the returned var reports, whichever of the two tasks came
first. A returned var with a port other than 0 shows what happens otherwise.
-/

set_option autoImplicit false

namespace Oox.Transparent

open Library

/-! ## Runs -/

theorem stackSum_uses (us : List Use) (k : Right) :
    stackSum tokens (us.map Use.instr) k =
      if k = .view then (us.countP Use.observes : ℤ) else 0 := by
  induction us with
  | nil => split_ifs <;> rfl
  | cons u us ih =>
    rw [List.map_cons, stackSum_cons, ih, List.countP_cons]
    cases u with
    | wait t => cases t <;> cases k <;> simp [tokens, Use.instr, Use.observes, add_comm]
    | consume => cases k <;> simp [tokens, Use.instr, Use.observes, add_comm]
    | cancel => cases k <;> simp [tokens, Use.instr, Use.observes]

theorem threadSum_users (users : List (List Use)) (k : Right) :
    threadSum tokens (users.map fun l => l.map Use.instr) k =
      if k = .view then (((users.map fun l => l.countP Use.observes).sum : ℕ) : ℤ) else 0 := by
  induction users with
  | nil => split_ifs <;> rfl
  | cons l users ih =>
    rw [List.map_cons, threadSum_cons, ih, stackSum_uses, List.map_cons, List.sum_cons]
    split_ifs
    · push_cast
      rfl
    · rfl

theorem threadSum_prerequisites (l : List (Option Failure)) (k : Right) :
    threadSum tokens (l.map fun f => [.publish .inner f .remove]) k =
      if k = .start ∨ k = .clean then (l.length : ℤ) else 0 := by
  induction l with
  | nil => split_ifs <;> rfl
  | cons f l ih =>
    rw [List.map_cons, threadSum_cons, ih, stackSum_cons, stackSum_nil, List.length_cons]
    cases k <;> simp [tokens, add_comm]

theorem relies_uses (m : Mem) (us : List Use) : StackOk Relies m (us.map Use.instr) := by
  induction us with
  | nil => trivial
  | cons u us ih =>
    refine ⟨?_, ih⟩
    cases u <;> trivial

/-- The protocol holds before the forwarding task runs. -/
theorem start_holds (port : ℕ) (prerequisites : List (Option Failure)) (body : Body)
    (users : List (List Use)) : protocol.Holds (start port prerequisites body users) where
  memory :=
    { flag := fun t => by cases t <;> rfl
      ports := fun _ => ⟨rfl, rfl⟩
      waiting := fun _ => ⟨rfl, rfl⟩
      marked := fun _ hno => absurd rfl hno
      outer := fun hdone => by cases hdone
      fresh := fun hpos => absurd hpos (lt_irrefl 0)
      observed := fun o ho => by cases ho
      reported := fun o ho => by cases ho }
  law k := by
    simp only [start, protocol, List.cons_append, threadSum_cons, threadSum_append,
      threadSum_users, threadSum_prerequisites, stackSum_cons, stackSum_nil]
    cases k <;> simp [balance, tokens] <;> omega
  relies l hl := by
    rw [start, List.cons_append, List.cons_append] at hl
    rcases List.mem_cons.mp hl with rfl | hl
    · exact ⟨.inr ⟨rfl, rfl, rfl⟩, trivial⟩
    · rcases List.mem_cons.mp hl with rfl | hl
      · exact ⟨trivial, trivial⟩
      · rcases List.mem_append.mp hl with hl | hl
        · obtain ⟨f, -, rfl⟩ := List.mem_map.mp hl
          exact ⟨trivial, trivial⟩
        · obtain ⟨us, -, rfl⟩ := List.mem_map.mp hl
          exact relies_uses _ us

theorem holds_of_reach {port : ℕ} {prerequisites : List (Option Failure)} {body : Body}
    {users : List (List Use)} {c : State}
    (hreach : Reach exec (fun c e => admitted c e = true) (start port prerequisites body users) c) :
    protocol.Holds c := by
  refine Protocol.Holds.of_reach (start_holds port prerequisites body users) ?_ hreach
  intro c e ins rest m' push spawned _ hadmitted htop hexec henters
  refine keeps ?_ henters hexec
  unfold admitted at hadmitted
  rw [htop] at hadmitted
  exact hadmitted

/-- What the instructions of a user's thread are. -/
def Instr.isUse : Instr → Bool
  | .wait _ => true
  | .consume => true
  | .cancel => true
  | _ => false

theorem isUse_instr (u : Use) : u.instr.isUse = true := by
  cases u <;> rfl

/-- The instructions of the users are never pushed. -/
theorem not_isUse_of_exec {m m' : Mem} {choice : Bool} {ins : Instr} {push : List Instr}
    {spawned : List (List Instr)} (hexec : exec m choice ins = .next m' push spawned) :
    (∀ x ∈ push, x.isUse = false) ∧ ∀ l ∈ spawned, ∀ x ∈ l, x.isUse = false := by
  have hnext : ∀ (t : Who) (next : After), (next.instr t).isUse = false := by
    intro t next
    cases next <;> rfl
  cases ins with
  | publish t f next =>
    simp only [exec, publish] at hexec
    split at hexec
    · cases hexec
      simp [hnext]
    · split at hexec <;> cases hexec <;> simp [Instr.isUse]
    · cases hexec
      simp [Instr.isUse]
  | mark t b next =>
    simp only [exec, mark] at hexec
    split at hexec <;> cases hexec <;> simp [hnext]
  | removePrerequisite t =>
    simp only [exec, removePrerequisite] at hexec
    split_ifs at hexec <;> cases hexec <;> simp [Instr.isUse]
  | execute t =>
    cases t with
    | inner =>
      simp only [exec, execute, executeInner] at hexec
      split at hexec
      · cases hexec
        simp [Instr.isUse]
      · split at hexec <;> cases hexec <;> simp [Instr.isUse]
    | outer =>
      simp only [exec, execute, executeOuter] at hexec
      split_ifs at hexec <;> cases hexec <;> simp [Instr.isUse]
  | offerArc =>
    simp only [exec, offerArc] at hexec
    split at hexec <;> cases hexec <;> simp [Instr.isUse]
  | checkFailure =>
    simp only [exec, checkFailure] at hexec
    split_ifs at hexec <;> cases hexec <;> simp [Instr.isUse]
  | closeList t canThrow terminal =>
    simp only [exec, closeList] at hexec
    split at hexec <;> cases hexec <;> simp [Instr.isUse]
  | notifyArcs t canThrow failed l =>
    cases l with
    | nil =>
      cases hexec
      simp
    | cons x l =>
      cases x with
      | signal e =>
        simp only [exec, notifyArcs] at hexec
        split_ifs at hexec
        cases hexec
        simp [Instr.isUse]
      | arc =>
        cases t with
        | inner =>
          cases hexec
          split_ifs <;> simp [Instr.isUse]
        | outer =>
          simp only [exec, notifyArcs] at hexec
          split_ifs at hexec <;> cases hexec <;> simp [Instr.isUse]
  | cancel =>
    simp only [exec, cancel] at hexec
    split_ifs at hexec <;> cases hexec <;> simp [Instr.isUse]
  | consume =>
    simp only [exec, consume] at hexec
    split at hexec <;> cases hexec <;> simp [Instr.isUse]
  | lateCheck =>
    simp only [exec, lateCheck] at hexec
    split_ifs at hexec <;> cases hexec <;> simp [Instr.isUse]
  | wait t =>
    simp only [exec, wait] at hexec
    split_ifs at hexec
    cases hexec
    simp [Instr.isUse]
  | hasFailure t =>
    simp only [exec, hasFailure] at hexec
    split_ifs at hexec <;> cases hexec <;> simp [Instr.isUse]
  | _ =>
    cases hexec
    simp [Instr.isUse]

theorem users_below {allowed : State → Turn → Prop} {port : ℕ}
    {prerequisites : List (Option Failure)} {body : Body} {users : List (List Use)} {c : State}
    (hreach : Reach exec allowed (start port prerequisites body users) c) :
    ∀ l ∈ c.threads, l.Pairwise fun x y => x.isUse = true → y.isUse = true := by
  refine Reach.pairwise (fun _ _ _ _ _ _ => not_isUse_of_exec) (fun l hl => ?_) hreach
  rw [start, List.cons_append, List.cons_append] at hl
  rcases List.mem_cons.mp hl with rfl | hl
  · exact List.pairwise_singleton _ _
  · rcases List.mem_cons.mp hl with rfl | hl
    · exact List.pairwise_singleton _ _
    · rcases List.mem_append.mp hl with hl | hl
      · obtain ⟨f, -, rfl⟩ := List.mem_map.mp hl
        exact List.pairwise_singleton _ _
      · obtain ⟨us, -, rfl⟩ := List.mem_map.mp hl
        refine List.pairwise_map.mpr (List.pairwise_of_forall fun x y _ => isUse_instr y)

/-! ## Faults and waits -/

section Results

variable {c : State}

theorem not_fault (h : protocol.Holds c) {ins : Instr} {rest : List Instr}
    (hl : ins :: rest ∈ c.threads) (choice : Bool) (cause : Fault) :
    exec c.mem choice ins ≠ .fault cause := by
  have henters := h.enters hl
  have hremove : ∀ t, 1 ≤ (c.mem.task t).word.count →
      removePrerequisite c.mem t ≠ .fault cause := by
    intro t hpos
    unfold removePrerequisite
    dsimp only
    rw [if_neg (Nat.not_lt.mpr hpos)]
    split_ifs <;> simp
  have hclose : ∀ t canThrow terminal, (c.mem.task t).head.isDone = false →
      closeList c.mem t canThrow terminal ≠ .fault cause := by
    intro t canThrow terminal hopen
    obtain ⟨l, hhead⟩ := exists_list hopen
    unfold closeList
    rw [hhead]
    cases l <;> simp
  have hnotify : ∀ t canThrow failed x l, Notifying c.mem t canThrow (x :: l) →
      notifyArcs c.mem t canThrow failed (x :: l) ≠ .fault cause := by
    intro t canThrow failed x l hnotifying
    cases x with
    | signal e =>
      have hthrow : canThrow = true := by
        by_contra hno
        exact hnotifying.2.2 (Bool.eq_false_iff.mpr hno) e List.mem_cons_self
      simp [notifyArcs, hthrow]
    | arc =>
      cases t with
      | inner => simp [notifyArcs]
      | outer =>
        simp only [notifyArcs]
        split_ifs <;> simp
  intro hfault
  cases ins with
  | publish t f next =>
    simp only [exec, publish] at hfault
    split at hfault
    · cases hfault
    · split at hfault <;> cases hfault
    · cases hfault
  | mark t b next =>
    simp only [exec, mark] at hfault
    split at hfault <;> cases hfault
  | removePrerequisite t =>
    cases t with
    | inner =>
      obtain ⟨-, hpos⟩ := open_of_start henters rfl
      have hcount := (h.memory.waiting hpos).2
      exact hremove .inner (by simp only [Mem.task_inner]; omega) hfault
    | outer =>
      have hcount : c.mem.outer.word.count = 1 := henters.relies.2
      exact hremove .outer (by simp only [Mem.task_outer]; omega) hfault
  | execute t =>
    cases t with
    | inner =>
      simp only [exec, execute, executeInner] at hfault
      split at hfault
      · cases hfault
      · split at hfault <;> cases hfault
    | outer =>
      simp only [exec, execute, executeOuter] at hfault
      split_ifs at hfault
  | offerArc =>
    simp only [exec, offerArc] at hfault
    split at hfault <;> cases hfault
  | closeList t canThrow terminal =>
    cases t with
    | inner => exact hclose .inner canThrow terminal (open_of_runs henters rfl).1 hfault
    | outer => exact hclose .outer canThrow terminal (open_of_forwards henters Nat.one_pos).1 hfault
  | notifyArcs t canThrow failed l =>
    cases l with
    | nil => cases hfault
    | cons x l =>
      cases t with
      | inner => exact hnotify .inner canThrow failed x l henters.relies.1 hfault
      | outer => exact hnotify .outer canThrow failed x l henters.relies.1 hfault
  | cancel =>
    simp only [exec, cancel] at hfault
    split_ifs at hfault
  | consume =>
    simp only [exec, consume] at hfault
    split at hfault <;> cases hfault
  | lateCheck =>
    simp only [exec, lateCheck] at hfault
    split_ifs at hfault
  | wait t =>
    simp only [exec, wait] at hfault
    split_ifs at hfault
  | hasFailure t =>
    simp only [exec, hasFailure] at hfault
    split_ifs at hfault
  | _ => cases hfault

/-- Only a wait whose task has not completed is blocked. -/
theorem wait_of_blocked {m : Mem} {choice : Bool} {ins : Instr}
    (hblocked : exec m choice ins = .blocked) :
    ∃ t, ins = .wait t ∧ (m.task t).head.isDone = false := by
  cases ins with
  | wait t =>
    refine ⟨t, rfl, ?_⟩
    simp only [exec, wait] at hblocked
    split_ifs at hblocked with hdone
    exact Bool.eq_false_iff.mpr hdone
  | publish t f next =>
    simp only [exec, publish] at hblocked
    split at hblocked
    · cases hblocked
    · split at hblocked <;> cases hblocked
    · cases hblocked
  | mark t b next =>
    simp only [exec, mark] at hblocked
    split at hblocked <;> cases hblocked
  | removePrerequisite t =>
    simp only [exec, removePrerequisite] at hblocked
    split_ifs at hblocked
  | execute t =>
    cases t with
    | inner =>
      simp only [exec, execute, executeInner] at hblocked
      split at hblocked
      · cases hblocked
      · split at hblocked <;> cases hblocked
    | outer =>
      simp only [exec, execute, executeOuter] at hblocked
      split_ifs at hblocked
  | offerArc =>
    simp only [exec, offerArc] at hblocked
    split at hblocked <;> cases hblocked
  | closeList t canThrow terminal =>
    simp only [exec, closeList] at hblocked
    split at hblocked <;> cases hblocked
  | notifyArcs t canThrow failed l =>
    cases l with
    | nil => cases hblocked
    | cons x l =>
      cases x with
      | signal e =>
        simp only [exec, notifyArcs] at hblocked
        split_ifs at hblocked
      | arc =>
        cases t with
        | inner => cases hblocked
        | outer =>
          simp only [exec, notifyArcs] at hblocked
          split_ifs at hblocked
  | cancel =>
    simp only [exec, cancel] at hblocked
    split_ifs at hblocked
  | consume =>
    simp only [exec, consume] at hblocked
    split at hblocked <;> cases hblocked
  | lateCheck =>
    simp only [exec, lateCheck] at hblocked
    split_ifs at hblocked
  | hasFailure t =>
    simp only [exec, hasFailure] at hblocked
    split_ifs at hblocked
  | _ => cases hblocked

/-- The rights of a user's instruction. -/
theorem tokens_of_isUse {ins : Instr} (h : ins.isUse = true) {k : Right} (hk : k ≠ .view) :
    tokens ins k = 0 := by
  cases ins with
  | wait t => cases t <;> cases k <;> first | rfl | exact absurd rfl hk
  | consume => cases k <;> first | rfl | exact absurd rfl hk
  | cancel => cases k <;> rfl
  | _ => cases h

/-- When nothing can run, both tasks have completed, nobody waits and everybody has observed the
outcome. -/
theorem final_of_stuck (h : protocol.Holds c)
    (hbelow : ∀ l ∈ c.threads, l.Pairwise fun x y => x.isUse = true → y.isUse = true)
    (hstuck : c.Stuck exec) : (∀ l ∈ c.threads, l = []) ∧ c.mem.inner.head.isDone = true ∧
    c.mem.outer.head.isDone = true ∧ c.mem.observed.length = c.mem.users := by
  have htop : ∀ ins rest, ins :: rest ∈ c.threads →
      ∃ t, ins = .wait t ∧ (c.mem.task t).head.isDone = false := by
    intro ins rest hl
    rcases hstuck.top hl with hblocked | ⟨cause, hfault⟩
    · exact wait_of_blocked hblocked
    · exact absurd hfault (not_fault h hl false cause)
  -- only users are left, and they have no part in the two tasks
  have hnone : ∀ k, k ≠ .view → threadSum tokens c.threads k = 0 := by
    intro k hk
    by_contra hne
    obtain ⟨l, hl, ins, hins, hpos⟩ := exists_pos_of_threadSum_pos
      (lt_of_le_of_ne (Protocol.Holds.sum_nonneg (P := protocol) c k) (Ne.symm hne))
    have huse : ins.isUse = true := by
      cases l with
      | nil => cases hins
      | cons x rest =>
        obtain ⟨t, rfl, -⟩ := htop x rest hl
        rcases List.mem_cons.mp hins with rfl | hins
        · rfl
        · exact (List.pairwise_cons.mp (hbelow _ hl)).1 ins hins rfl
    have hzero : protocol.tokens ins k = 0 := tokens_of_isUse huse hk
    omega
  have hwaiting : c.mem.waiting = 0 := by
    have hlaw := h.law .start
    have hsum := hnone .start (by decide)
    simp only [protocol, balance] at hlaw
    omega
  have hinner : c.mem.inner.head.isDone = true := by
    have hlaw := h.law .inner
    have hsum := hnone .inner (by decide)
    by_contra hopen
    rw [Bool.not_eq_true] at hopen
    simp only [protocol, balance, hopen, hwaiting] at hlaw
    norm_num at hlaw
    omega
  have houter : c.mem.outer.head.isDone = true := by
    have hlaw := h.law .outer
    have hsum := hnone .outer (by decide)
    by_contra hopen
    rw [Bool.not_eq_true] at hopen
    have harcs : c.mem.inner.head.arcs = 0 := by
      cases hhead : c.mem.inner.head with
      | list l =>
        rw [hhead] at hinner
        cases hinner
      | done => rfl
      | terminal e => rfl
    simp only [protocol, balance, hopen, harcs] at hlaw
    norm_num at hlaw
    omega
  have hempty : ∀ l ∈ c.threads, l = [] := by
    intro l hl
    cases l with
    | nil => rfl
    | cons ins rest =>
      obtain ⟨t, -, hopen⟩ := htop ins rest hl
      cases t with
      | inner =>
        rw [Mem.task_inner, hinner] at hopen
        cases hopen
      | outer =>
        rw [Mem.task_outer, houter] at hopen
        cases hopen
  refine ⟨hempty, hinner, houter, ?_⟩
  have hlaw := h.law .view
  have hsum : threadSum tokens c.threads .view = 0 := by
    by_contra hne
    obtain ⟨l, hl, ins, hins, -⟩ := exists_pos_of_threadSum_pos
      (lt_of_le_of_ne (Protocol.Holds.sum_nonneg (P := protocol) c .view) (Ne.symm hne))
    rw [hempty l hl] at hins
    cases hins
  have harcs : c.mem.outer.head.arcs = 0 := by
    cases hhead : c.mem.outer.head with
    | list l =>
      rw [hhead] at houter
      cases houter
    | done => rfl
    | terminal e => rfl
  simp only [protocol, balance, harcs] at hlaw
  omega

end Results

/-! ## Every run ends -/

/-- What is left to do after an instruction, counted in steps. -/
def Instr.weight : Instr → ℕ
  | .publish .inner _ .remove => 38
  | .publish .inner _ .complete => 20
  | .publish .outer _ _ => 12
  | .mark .inner _ .remove => 23
  | .mark .inner _ .complete => 5
  | .mark .outer _ _ => 8
  | .publishFrom _ => 13
  | .removePrerequisite .inner => 22
  | .removePrerequisite .outer => 7
  | .execute .inner => 21
  | .execute .outer => 6
  | .forward => 16
  | .offerArc => 15
  | .checkFailure => 14
  | .complete _ _ => 4
  | .closeList _ _ _ => 3
  | .notifyLoad .inner _ l => 14 * l.length + 2
  | .notifyLoad .outer _ l => 3 * l.length + 2
  | .notifyArcs .inner _ _ l => 14 * l.length + 1
  | .notifyArcs .outer _ _ l => 3 * l.length + 1
  | .cancel => 2
  | .cancelMark => 1
  | .consume => 4
  | .lateCheck => 2
  | .consumerFailure => 1
  | .wait _ => 3
  | .hasFailure _ => 2
  | .failureBits _ => 1

/-- How many entries are on an open list. -/
def ListHead.entries : ListHead → ℕ
  | .list l => l.length
  | _ => 0

@[simp] theorem ListHead.entries_list (l : List Entry) : (list l).entries = l.length := rfl

@[simp] theorem ListHead.entries_closed (terminal : Option ℕ) : (closed terminal).entries = 0 := by
  cases terminal <;> rfl

/-- The steps of a forwarding body that has not run. -/
def Body.load : Body → ℕ
  | .accepted _ => 38
  | _ => 0

/-- What is left to do for the entries on the lists and for the bodies. -/
def Mem.load (m : Mem) : ℕ :=
  14 * m.inner.head.entries + 3 * m.outer.head.entries + m.body.load +
    16 * (!m.hasValue).toNat

section Weight

variable {m m' : Mem} {push : List Instr} {spawned : List (List Instr)}

theorem publish_weight {t : Who} {f : Option Failure} {next : After}
    (hstep : publish m t f next = .next m' push spawned) :
    m'.load + (push.map Instr.weight).sum + threadWeight Instr.weight spawned <
      m.load + (Instr.publish t f next).weight := by
  simp only [publish] at hstep
  split at hstep
  · cases hstep
    cases t <;> cases next <;> simp [threadWeight, Instr.weight, After.instr]
  · split at hstep
    · rename_i l hl
      cases hstep
      cases t with
      | inner =>
        rw [Mem.task_inner] at hl
        cases next <;> simp [Mem.load, threadWeight, Instr.weight, hl] <;> omega
      | outer =>
        rw [Mem.task_outer] at hl
        cases next <;> simp [Mem.load, threadWeight, Instr.weight, hl] <;> omega
    · cases hstep
      cases t <;> cases next <;> simp [Mem.load, threadWeight, Instr.weight]
  · cases hstep
    cases t <;> cases next <;> simp [threadWeight, Instr.weight]

theorem mark_weight {t : Who} {b : FailureBit} {next : After}
    (hstep : mark m t b next = .next m' push spawned) :
    m'.load + (push.map Instr.weight).sum + threadWeight Instr.weight spawned <
      m.load + (Instr.mark t b next).weight := by
  simp only [mark] at hstep
  split at hstep <;> cases hstep
  all_goals cases t <;> cases next <;>
    simp [Mem.load, threadWeight, Instr.weight, After.instr]

theorem removePrerequisite_weight {t : Who}
    (hstep : removePrerequisite m t = .next m' push spawned) :
    m'.load + (push.map Instr.weight).sum + threadWeight Instr.weight spawned <
      m.load + (Instr.removePrerequisite t).weight := by
  unfold removePrerequisite at hstep
  dsimp only at hstep
  split_ifs at hstep <;> cases hstep
  all_goals cases t <;> simp [Mem.load, threadWeight, Instr.weight]

theorem execute_weight {t : Who} (hstep : execute m t = .next m' push spawned) :
    m'.load + (push.map Instr.weight).sum + threadWeight Instr.weight spawned <
      m.load + (Instr.execute t).weight := by
  cases t with
  | outer =>
    simp only [execute, executeOuter] at hstep
    split_ifs at hstep with hfailed hvalue <;> cases hstep
    · simp [threadWeight, Instr.weight]
    · simp [threadWeight, Instr.weight]
    · simp [Mem.load, threadWeight, Instr.weight, hvalue]
  | inner =>
    simp only [execute, executeInner] at hstep
    split at hstep
    · cases hstep
      simp [threadWeight, Instr.weight]
    · split at hstep <;> rename_i hbody <;> cases hstep <;>
        simp [Mem.load, threadWeight, Instr.weight, Body.load, hbody]
      omega

theorem closeList_weight {t : Who} {canThrow : Bool} {terminal : Option ℕ}
    (hstep : closeList m t canThrow terminal = .next m' push spawned) :
    m'.load + (push.map Instr.weight).sum + threadWeight Instr.weight spawned <
      m.load + (Instr.closeList t canThrow terminal).weight := by
  cases hhead : (m.task t).head with
  | list l =>
    obtain ⟨rfl, rfl, rfl⟩ := closeList_cases hhead hstep
    cases t with
    | inner =>
      rw [Mem.task_inner] at hhead
      split_ifs <;> simp [Mem.load, threadWeight, Instr.weight, hhead] <;> omega
    | outer =>
      rw [Mem.task_outer] at hhead
      split_ifs <;> simp [Mem.load, threadWeight, Instr.weight, hhead] <;> omega
  | done =>
    simp only [closeList, hhead] at hstep
    cases hstep
  | terminal e =>
    simp only [closeList, hhead] at hstep
    cases hstep

theorem notifyArcs_weight {t : Who} {canThrow failed : Bool} {l : List Entry}
    (hstep : notifyArcs m t canThrow failed l = .next m' push spawned) :
    m'.load + (push.map Instr.weight).sum + threadWeight Instr.weight spawned <
      m.load + (Instr.notifyArcs t canThrow failed l).weight := by
  cases l with
  | nil =>
    cases hstep
    cases t <;> simp [threadWeight, Instr.weight]
  | cons x l =>
    cases x with
    | signal e =>
      simp only [notifyArcs] at hstep
      split_ifs at hstep
      cases hstep
      cases t <;> simp [threadWeight, Instr.weight]
    | arc =>
      cases t with
      | inner =>
        cases hstep
        split_ifs <;> simp [threadWeight, Instr.weight] <;> omega
      | outer =>
        simp only [notifyArcs] at hstep
        split_ifs at hstep <;> cases hstep <;>
          simp [Mem.load, Mem.observe, threadWeight, Instr.weight]
        omega

/-- Every instruction outweighs what it leaves to do. -/
theorem weight_step {choice : Bool} {ins : Instr} (hexec : exec m choice ins = .next m' push spawned) :
    m'.load + (push.map Instr.weight).sum + threadWeight Instr.weight spawned <
      m.load + ins.weight := by
  cases ins with
  | publish t f next => exact publish_weight hexec
  | mark t b next => exact mark_weight hexec
  | removePrerequisite t => exact removePrerequisite_weight hexec
  | execute t => exact execute_weight hexec
  | closeList t canThrow terminal => exact closeList_weight hexec
  | notifyArcs t canThrow failed l => exact notifyArcs_weight hexec
  | publishFrom next =>
    cases hexec
    simp [threadWeight, Instr.weight]
  | forward =>
    cases hexec
    simp [Mem.load, threadWeight, Instr.weight]
  | offerArc =>
    simp only [exec, offerArc] at hexec
    split at hexec
    · rename_i l hl
      cases hexec
      simp [Mem.load, threadWeight, Instr.weight, hl]
      omega
    · cases hexec
      simp [threadWeight, Instr.weight]
  | checkFailure =>
    cases hexec
    split_ifs <;> simp [threadWeight, Instr.weight]
  | complete t canThrow =>
    cases hexec
    simp [threadWeight, Instr.weight]
  | notifyLoad t canThrow l =>
    cases hexec
    cases t <;> simp [threadWeight, Instr.weight]
  | cancel =>
    simp only [exec, cancel] at hexec
    split_ifs at hexec <;> cases hexec <;> simp [threadWeight, Instr.weight]
  | cancelMark =>
    cases hexec
    simp [Mem.load, threadWeight, Instr.weight]
  | consume =>
    simp only [exec, consume] at hexec
    split at hexec
    · rename_i l hl
      cases hexec
      simp [Mem.load, threadWeight, Instr.weight, hl]
      omega
    · cases hexec
      simp [threadWeight, Instr.weight]
  | lateCheck =>
    simp only [exec, lateCheck] at hexec
    split_ifs at hexec <;> cases hexec <;>
      simp [Mem.load, Mem.observe, threadWeight, Instr.weight]
  | consumerFailure =>
    cases hexec
    simp [Mem.load, Mem.observe, threadWeight, Instr.weight]
  | wait t =>
    simp only [exec, wait] at hexec
    split_ifs at hexec
    cases hexec
    simp [threadWeight, Instr.weight]
  | hasFailure t =>
    simp only [exec, hasFailure] at hexec
    split_ifs at hexec <;> cases hexec
    · simp [threadWeight, Instr.weight]
    · cases t <;> simp [Mem.load, Mem.report, Mem.observe, threadWeight, Instr.weight]
  | failureBits t =>
    cases hexec
    cases t <;> simp [Mem.load, Mem.report, Mem.observe, threadWeight, Instr.weight]

end Weight

/-! ## Transparency -/

/-- What holds of the two vars at every moment, and when nothing can run. -/
structure Agree (c : State) : Prop where
  noFault : ∀ ins rest, ins :: rest ∈ c.threads →
    ∀ choice cause, exec c.mem choice ins ≠ .fault cause
  /-- what waits and readers observe on the forwarding task's var is the outcome of the returned
  var, -/
  observed : ∀ o ∈ c.mem.observed, Settled c.mem ∧ o = c.mem.returned
  /-- which is what every wait on the returned var reports. -/
  reported : ∀ o ∈ c.mem.reported, Settled c.mem ∧ o = c.mem.returned
  /-- in the end both tasks have completed and everybody has observed the outcome. -/
  final : c.Stuck exec → (∀ l ∈ c.threads, l = []) ∧ c.mem.inner.head.isDone = true ∧
    c.mem.outer.head.isDone = true ∧ c.mem.observed.length = c.mem.users
  ends : c.Ends exec

/-- In every run whose steps meet the condition, forwarding is transparent for failures. -/
theorem forwarding_transparent {port : ℕ} {prerequisites : List (Option Failure)} {body : Body}
    {users : List (List Use)} {c : State}
    (hreach : Reach exec (fun c e => admitted c e = true) (start port prerequisites body users) c) :
    Agree c := by
  have h := holds_of_reach hreach
  exact
    { noFault := fun ins rest hl choice cause => not_fault h hl choice cause
      observed := h.memory.observed
      reported := h.memory.reported
      final := final_of_stuck h (users_below hreach)
      ends := Config.ends_of_weight Instr.weight Mem.load (I := fun _ => True)
        (fun _ _ _ _ _ _ _ hexec => ⟨trivial, weight_step hexec⟩) trivial }

/-- A returned var of port 1 whose task is skipped: everybody sees a cancelled dependency. -/
theorem forwarding_transparent_two : ∃ c,
    Reach exec (fun c e => admitted c e = true)
      (start 1 [some .dependencyCancelled] .returns [[.wait .inner], [.wait .outer], [.consume]]) c ∧
    c.mem.observed = [some .dependencyCancelled, some .dependencyCancelled] ∧
    c.mem.reported = [some .dependencyCancelled] ∧ Agree c := by
  obtain ⟨c, hreach, hc⟩ := Reach.exists_of_runIf exec admitted
    (start 1 [some .dependencyCancelled] .returns [[.wait .inner], [.wait .outer], [.consume]])
    (rounds [(0, 3), (1, 1), (2, 14), (3, 3), (4, 3), (5, 3)])
    (fun c => decide (c.mem.observed = [some .dependencyCancelled, some .dependencyCancelled] ∧
      c.mem.reported = [some .dependencyCancelled]))
    (by decide)
  obtain ⟨hobserved, hreported⟩ := of_decide_eq_true hc
  exact ⟨c, hreach, hobserved, hreported, forwarding_transparent hreach⟩

/-- The body returns a var of port 1 whose task throws: a wait on the returned var reports a
cancelled dependency, and the forwarding task's var the exception. -/
theorem exception_through_port_one : ∃ c,
    Reach exec (fun _ _ => True)
      (start 1 [] (.throws 7) [[.wait .inner], [.wait .outer], [.consume]]) c ∧
    c.mem.observed = [some (.exception 7), some (.exception 7)] ∧
    c.mem.reported = [some .dependencyCancelled] := by
  obtain ⟨c, hreach, hc⟩ := Reach.exists_of_run exec
    (start 1 [] (.throws 7) [[.wait .inner], [.wait .outer], [.consume]])
    (rounds [(0, 3), (1, 1), (5, 15), (2, 3), (3, 3), (4, 3)])
    (fun c => decide (c.mem.observed = [some (.exception 7), some (.exception 7)] ∧
      c.mem.reported = [some .dependencyCancelled]))
    (by decide)
  obtain ⟨hobserved, hreported⟩ := of_decide_eq_true hc
  exact ⟨c, hreach, hobserved, hreported⟩

end Oox.Transparent
