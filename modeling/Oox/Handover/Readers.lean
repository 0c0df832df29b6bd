import Oox.Handover.Redirect
import Mathlib.Data.List.Nodup

/-!
# No reader of a deferred var is lost

Along every run each reader becomes dependent on the first writer at most once, is charged to
the writer's slot for the var and to no other, starts after the writer has completed, and gets
the writer's failure; when nothing can run any more all of this has happened.
-/

set_option autoImplicit false

namespace Oox.Deferred

open Library

/-! ## Runs -/

theorem threadSum_others (others : List (Option FailureBit)) (t : Who) (k : Right) :
    threadSum tokens (others.map fun f => [.other t f]) k =
      if k = .start t then (others.length : ℤ) else 0 := by
  induction others with
  | nil => split_ifs <;> rfl
  | cons f others ih =>
    rw [List.map_cons, threadSum_cons, ih, stackSum_cons, stackSum_nil, ← tokens_other]
    cases t with
    | writer =>
      cases k with
      | start u => cases u <;> simp [tokens, Instr.guarded, Instr.notifying, add_comm]
      | _ => simp [tokens, Instr.assigning, Instr.notifying]
    | reader r =>
      rw [tokens_removeReader, List.length_cons]
      split_ifs
      · push_cast
        omega
      · rfl

/-- Each reader starts with its whole count and with one of each of its other rights. -/
theorem threadSum_readers (r : ℕ) (readers : List Args) (k : Right) :
    threadSum tokens (readerThreads r readers) k = match k with
      | .start (.reader y) => if r ≤ y ∧ y < r + readers.length then (guard : ℤ) else 0
      | .dependency y => if r ≤ y ∧ y < r + readers.length then 1 else 0
      | .pending y => if r ≤ y ∧ y < r + readers.length then 1 else 0
      | .charge y => if r ≤ y ∧ y < r + readers.length then 1 else 0
      | _ => 0 := by
  induction readers generalizing r with
  | nil =>
    cases k with
    | start t => cases t <;> simp [readerThreads]
    | _ => simp [readerThreads]
  | cons x readers ih =>
    have hfew := x.few
    rw [readerThreads, List.cons_append, threadSum_cons, threadSum_append, ih, Args.threads, threadSum_others,
      stackSum_cons, stackSum_nil, tokens_assign (x := .assign r x.others.length) rfl]
    cases k with
    | start t =>
      cases t with
      | writer => simp
      | reader y =>
        simp only [Right.start.injEq, Who.reader.injEq, List.length_cons]
        split_ifs <;> omega
    | dependency y =>
      simp only [reduceCtorEq, if_false, List.length_cons]
      split_ifs <;> omega
    | pending y =>
      simp only [reduceCtorEq, if_false, List.length_cons]
      split_ifs <;> omega
    | charge y =>
      simp only [reduceCtorEq, if_false, List.length_cons]
      split_ifs <;> omega
    | _ => simp

theorem relies_others {m : Mem} {x : Args} {t : Who} {l : List Instr} (hl : l ∈ x.threads t) :
    StackOk Relies m l := by
  obtain ⟨f, -, rfl⟩ := List.mem_map.mp hl
  exact ⟨Relies.of_fact trivial rfl, trivial⟩

theorem relies_readers {m : Mem} (r : ℕ) (readers : List Args) :
    ∀ l ∈ readerThreads r readers, StackOk Relies m l := by
  induction readers generalizing r with
  | nil =>
    intro l hl
    cases hl
  | cons x readers ih =>
    intro l hl
    rw [readerThreads, List.cons_append] at hl
    rcases List.mem_cons.mp hl with rfl | hl
    · exact ⟨Relies.of_fact x.few rfl, trivial⟩
    · rcases List.mem_append.mp hl with hl | hl
      · exact relies_others hl
      · exact ih (r + 1) l hl

/-- The protocol holds before the writer is set up. -/
theorem start_holds (writer : Args) (before after : ℕ) (readers : List Args) :
    protocol.Holds (start writer before after readers) where
  memory :=
    { port := ⟨Nat.succ_pos before, by simp only [start]; omega⟩
      flag := rfl
      signal := fun l hl hmem => by
        cases hl
        cases hmem
      headPort := fun l a hl hmem => by
        cases hl
        cases hmem
      backPort := fun a ha => by cases ha
      closed := fun hc => by cases hc
      writer := rfl
      reader := fun r => by
        refine (if_neg ?_).symm
        rintro ⟨hr, hzero⟩
        simp only [start] at hr hzero
        rw [if_pos hr] at hzero
        cases hzero
      idle := fun r hr => by
        simp only [start] at hr ⊢
        rw [if_neg (Nat.not_lt.mpr hr)]
      untouched := fun _ _ => ⟨rfl, rfl⟩
      fresh := fun _ => rfl
      unarmed := fun _ _ => rfl
      next := fun _ _ => rfl
      count := fun q hq => by cases hq
      settled := fun r hr => absurd hr (lt_irrefl 0)
      finished := fun hf => absurd hf (lt_irrefl 0)
      received := fun r hr => by cases hr }
  law k := by
    have hfew := writer.few
    have hothers := threadSum_others writer.others .writer k
    have hreaders := threadSum_readers 0 readers k
    simp only [zero_add, Nat.zero_le, true_and] at hreaders
    simp only [start, protocol, List.cons_append, threadSum_cons, threadSum_append, Args.threads, hothers, hreaders,
      stackSum_cons, stackSum_nil]
    cases k with
    | start t =>
      cases t with
      | writer =>
        simp [balance, tokens]
        omega
      | reader y =>
        simp only [balance, tokens, Mem.deferredArcs, Mem.headArcs, Option.getD_some, countOf_nil,
          arcsOf_nil, Instr.removes, Instr.guarded, Instr.notifying, Instr.unpublished,
          Instr.assigns, Instr.notifies, Instr.arcs, Right.start.injEq, reduceCtorEq, if_false]
        split_ifs <;> simp
    | _ =>
      simp [balance, tokens, Instr.assigning, Instr.notifying, Mem.deferredArcs, Mem.headArcs,
        Mem.expected]
  relies l hl := by
    rw [start, List.cons_append] at hl
    rcases List.mem_cons.mp hl with rfl | hl
    · have hfew := writer.few
      have hpos : 0 < guard - (writer.others.length + 1) := Nat.sub_pos_of_lt hfew
      refine ⟨⟨trivial, fun _ => ⟨_, hpos, by simp⟩⟩, Relies.of_fact rfl rfl,
        Relies.of_fact hpos rfl, trivial⟩
    · rcases List.mem_append.mp hl with hl | hl
      · exact relies_others hl
      · exact relies_readers 0 readers l hl

theorem holds_of_reach {allowed : State → Turn → Prop} {writer : Args} {before after : ℕ}
    {readers : List Args} {c : State}
    (hreach : Reach exec allowed (start writer before after readers) c) : protocol.Holds c :=
  Protocol.Holds.of_reach (start_holds writer before after readers)
    (fun _ _ _ _ _ _ _ _ _ _ hexec h => keeps h hexec) hreach

/-! ## What readers may count on -/

/-- What holds of the readers and the writer at every moment, and when nothing can run. -/
structure Served (c : State) : Prop where
  noFault : ∀ ins rest, ins :: rest ∈ c.threads →
    ∀ choice cause, exec c.mem choice ins ≠ .fault cause
  /-- a reader becomes dependent once, and is notified or finds the writer complete once. -/
  once : ∀ r, c.mem.depends r ≤ 1 ∧ c.mem.settled r ≤ 1
  /-- it starts after the writer has completed. -/
  after : ∀ r, 0 < c.mem.dispatched (.reader r) →
    c.mem.head = none ∧ c.mem.depends r = 1 ∧ c.mem.settled r = 1
  /-- by then it is charged once, and always to the slot for the var. -/
  charged : ∀ r, countOf r c.mem.back ≤ 1 ∧
    (0 < c.mem.dispatched (.reader r) → countOf r c.mem.back = 1)
  slot : ∀ a ∈ c.mem.back, a.port = c.mem.port
  /-- it gets a failure exactly when the writer has one, as a cancelled dependency. -/
  failure : ∀ r, 0 < c.mem.settled r → c.mem.received r = c.mem.failed ∧
    (c.mem.failed = true → (c.mem.word (.reader r)).dependencyCancelled = true)
  /-- the writer completes after all deferred arcs were moved. -/
  moved : c.mem.head = none →
    c.mem.deferred = none ∧ ∀ l ∈ c.threads, ∀ r, Instr.moveArcs r ∉ l
  /-- in the end everybody is served, and the countdowns hold one unit for each reader. -/
  final : c.Stuck exec → (∀ l ∈ c.threads, l = []) ∧ c.mem.head = none ∧
    (∀ r < c.mem.readers, c.mem.depends r = 1 ∧ c.mem.dispatched (.reader r) = 1) ∧
    (c.mem.out c.mem.port).countdown = c.mem.readers + 1 ∧
    ∀ q < c.mem.slots, q ≠ c.mem.port → (c.mem.out q).countdown = 1
  ends : c.Ends exec

section Results

variable {c : State}

/-- A reader in `assign_prerequisite` still has its guard. -/
theorem assigning_le {m : Mem} {ins : Instr} (h : Fact m ins) (r : ℕ) :
    ins.assigning r ≤ ins.guarded r := by
  have hguard : ∀ x k, k + 1 < guard →
      (if x = r then 1 else 0) ≤ if x = r then guard - k else 0 := by
    intro x k hk
    split_ifs <;> omega
  cases ins with
  | assign x k => exact hguard x k h
  | assignWriter x k => exact hguard x k h
  | lateCheck x k => exact hguard x k h.1
  | increment x k => exact hguard x k h.1
  | publishFailure a late =>
    cases late with
    | none => exact le_rfl
    | some k => exact hguard a.reader k (h.1 k rfl)
  | addBackArc a k => exact Nat.zero_le _
  | _ => exact le_rfl

/-- A reader's rights come with units of its count. -/
theorem tokens_le_start {m : Mem} {ins : Instr} (h : Fact m ins) {r : ℕ} {k : Right}
    (hk : k = .dependency r ∨ k = .pending r ∨ k = .charge r) :
    tokens ins k ≤ tokens ins (.start (.reader r)) := by
  have hle := assigning_le h r
  rcases hk with rfl | rfl | rfl
  · simp only [tokens]
    push_cast
    omega
  · cases ins with
    | moveArcs l =>
      simp only [tokens, Instr.arcs] at hle ⊢
      push_cast
      omega
    | _ =>
      simp only [tokens] at hle ⊢
      push_cast
      omega
  · cases ins with
    | addBackArc a k =>
      have hlt : k + 1 < guard := h.1
      simp only [tokens, Instr.assigning, Instr.assigns, Instr.guarded, Instr.unpublished,
        Instr.notifying, Instr.notifies, Instr.removes, Instr.arcs, countOf_nil, reduceCtorEq,
        if_false]
      push_cast
      split_ifs <;> omega
    | _ =>
      simp only [tokens] at hle ⊢
      push_cast
      omega

/-- A task whose count is zero has nothing outstanding. -/
theorem outstanding (h : protocol.Holds c) {r : ℕ} (hzero : (c.mem.word (.reader r)).count = 0) :
    countOf r c.mem.deferredArcs = 0 ∧ countOf r c.mem.headArcs = 0 ∧
    threadSum tokens c.threads (.dependency r) = 0 ∧ threadSum tokens c.threads (.pending r) = 0 ∧
    threadSum tokens c.threads (.charge r) = 0 := by
  have hlaw := h.law (.start (.reader r))
  have hsum : 0 ≤ threadSum tokens c.threads (.start (.reader r)) :=
    Protocol.Holds.sum_nonneg (P := protocol) c _
  simp only [protocol, balance, hzero] at hlaw
  have hnone : ∀ k, k = .dependency r ∨ k = .pending r ∨ k = .charge r →
      threadSum tokens c.threads k = 0 := by
    intro k hk
    by_contra hne
    have hk0 : 0 ≤ threadSum tokens c.threads k := Protocol.Holds.sum_nonneg (P := protocol) c k
    obtain ⟨l, hl, ins, hins, hpos⟩ :=
      exists_pos_of_threadSum_pos (lt_of_le_of_ne hk0 (Ne.symm hne))
    obtain ⟨rest, -, hrelies⟩ := (h.relies l hl).exists_rest hins
    have hstart := tokens_le_start hrelies.1 hk
    have hle : tokens ins (.start (.reader r)) ≤ threadSum tokens c.threads (.start (.reader r)) :=
      Protocol.Holds.le_sum (P := protocol) hl hins _
    omega
  exact ⟨by omega, by omega, hnone _ (.inl rfl), hnone _ (.inr (.inl rfl)),
    hnone _ (.inr (.inr rfl))⟩

/-- A reader that was dispatched has become dependent, was notified and is charged. -/
theorem of_dispatched (h : protocol.Holds c) {r : ℕ}
    (hdispatched : 0 < c.mem.dispatched (.reader r)) :
    c.mem.depends r = 1 ∧ c.mem.settled r = 1 ∧ countOf r c.mem.back = 1 := by
  have hreader := h.memory.reader r
  split_ifs at hreader with hlive
  · obtain ⟨hdeferred, hhead, hdependency, hpending, hcharge⟩ := outstanding h hlive.2
    have hd := h.law (.dependency r)
    have hp := h.law (.pending r)
    have hc := h.law (.charge r)
    simp only [protocol, balance, Mem.expected, if_pos hlive.1] at hd hp hc
    omega
  · omega

/-- The writer holds its guard while deferred arcs are moved. -/
theorem not_moving (h : protocol.Holds c) (hclosed : c.mem.head = none) {l : List Instr}
    (hl : l ∈ c.threads) {ins : Instr} (hins : ins ∈ l) : ins.moves = false := by
  by_contra hmoves
  rw [Bool.not_eq_false] at hmoves
  obtain ⟨rest, hsuffix, hrelies⟩ := (h.relies l hl).exists_rest hins
  obtain ⟨n, hn, hmem⟩ := hrelies.2 hmoves
  have hmem' : Instr.removePrerequisite .writer n ∈ l :=
    hsuffix.subset (List.mem_cons_of_mem _ hmem)
  have hk : tokens (.removePrerequisite .writer n) (.start .writer) ≤
      -balance c.mem (.start .writer) := h.covered hl hmem' (.start .writer)
  simp only [tokens, balance, Instr.removes, if_true, (h.memory.closed hclosed).1] at hk
  omega

theorem moved_of_closed (h : protocol.Holds c) (hclosed : c.mem.head = none) :
    c.mem.deferred = none ∧ ∀ l ∈ c.threads, ∀ r, Instr.moveArcs r ∉ l := by
  refine ⟨?_, fun l hl r hr => ?_⟩
  · by_contra hopen
    have howed : protocol.balance c.mem .redirect < 0 := by
      simp [protocol, balance, Option.isSome_iff_ne_none, hopen]
    obtain ⟨l, hl, ins, hins, hpos⟩ := h.exists_holder howed
    have hredirect : ins = .redirect := by
      by_contra hne
      simp [protocol, tokens, hne] at hpos
    have hmoves := not_moving h hclosed hl hins
    rw [hredirect] at hmoves
    cases hmoves
  · have hmoves := not_moving h hclosed hl hr
    cases hmoves

theorem not_blocked {m : Mem} {choice : Bool} {ins : Instr} : exec m choice ins ≠ .blocked := by
  have hremove : ∀ (m₁ : Mem) (t : Who) (n : ℕ), removePrerequisite m₁ t n ≠ .blocked := by
    intro m₁ t n
    rw [removePrerequisite_eq]
    unfold dispatch
    cases t <;> dsimp only <;> split_ifs <;> simp
  cases ins with
  | moveArcs r =>
    cases r with
    | nil => simp [exec, moveArcs]
    | cons a r =>
      simp only [exec, moveArcs]
      split <;> simp
  | setNextWriter =>
    simp only [exec, setNextWriter]
    split <;> simp
  | removeBackArc =>
    simp only [exec, removeBackArc]
    (repeat' split) <;> simp
  | removePrerequisite t n => exact hremove m t n
  | notifyReader r => exact hremove _ (.reader r) 1
  | other t failure => cases failure <;> simp [exec, other]
  | execute =>
    simp only [exec, execute]
    split_ifs <;> simp
  | storeCountdown i canThrow =>
    simp only [exec, storeCountdown]
    split_ifs <;> simp
  | closeList canThrow =>
    simp only [exec, closeList]
    split <;> simp
  | notifyArcs l canThrow failed =>
    cases l with
    | nil => simp [exec, notifyArcs]
    | cons e l =>
      cases e with
      | arc a => simp [exec, notifyArcs]
      | signal =>
        simp only [exec, notifyArcs]
        split_ifs <;> simp
  | notifyOut i =>
    simp only [exec, notifyOut]
    (repeat' split) <;> simp
  | assign r k =>
    simp only [exec, assign]
    split <;> simp
  | assignWriter r k =>
    simp only [exec, assignWriter]
    split <;> simp
  | increment r k =>
    simp only [exec, increment_eq]
    split_ifs <;> simp
  | redirect => simp [exec, redirect]
  | notifyLoad l canThrow => simp [exec, notifyLoad]
  | lateCheck r k => simp [exec, lateCheck]
  | addBackArc a k => simp [exec, addBackArc]
  | publishFailure a late =>
    simp only [exec, publishFailure]
    split <;> simp

/-- Once the list is closed the countdown of a slot is at least one. -/
theorem countdown_pos (h : protocol.Holds c) {q : ℕ} (harmed : (c.mem.out q).armed = true) :
    1 ≤ (c.mem.out q).countdown := by
  have hlaw := h.law (.unit q)
  have hsum : 0 ≤ threadSum tokens c.threads (.unit q) :=
    Protocol.Holds.sum_nonneg (P := protocol) c _
  have hcount := h.memory.count q harmed
  simp only [protocol, balance, harmed, if_true] at hlaw
  simp only [countdownBias] at hcount
  split_ifs at hlaw <;> omega

theorem not_fault (h : protocol.Holds c) {ins : Instr} {rest : List Instr}
    (hl : ins :: rest ∈ c.threads) (choice : Bool) (cause : Fault) :
    exec c.mem choice ins ≠ .fault cause := by
  have henters := h.enters hl
  have hremove : ∀ (m₁ : Mem) (t : Who) (n : ℕ), n ≤ (m₁.word t).count →
      removePrerequisite m₁ t n ≠ .fault cause := by
    intro m₁ t n hle
    rw [removePrerequisite_eq]
    unfold dispatch
    simp only [if_neg (Nat.not_lt.mpr hle)]
    cases t <;> dsimp only <;> split_ifs <;> simp
  intro hfault
  cases ins with
  | redirect => cases hfault
  | moveArcs r =>
    cases r with
    | nil => cases hfault
    | cons a r =>
      obtain ⟨n, hn, hmem⟩ := henters.relies.2 rfl
      obtain ⟨-, hopen⟩ := undispatched henters hn (.inr hmem)
      obtain ⟨l, hhead⟩ := Option.ne_none_iff_exists'.mp hopen
      simp [exec, moveArcs, hhead] at hfault
  | setNextWriter =>
    have hslot : c.mem.slot = { nextWriter := .ready } := henters.relies.1
    simp only [exec, setNextWriter_eq, hslot] at hfault
    cases hfault
  | removeBackArc =>
    have hslot : c.mem.slot = { nextWriter := .node 0 } := henters.relies.1
    simp only [exec, removeBackArc, hslot] at hfault
    cases hfault
  | removePrerequisite t n =>
    refine hremove c.mem t n ?_ hfault
    have hk : tokens (.removePrerequisite t n) (.start t) ≤ -balance c.mem (.start t) :=
      henters.covered (.start t)
    cases t with
    | writer =>
      simp only [tokens, balance, Instr.removes, if_true] at hk
      omega
    | reader r =>
      rw [tokens_removeReader, if_pos rfl] at hk
      simp only [balance] at hk
      omega
  | other t failure => cases failure <;> cases hfault
  | execute =>
    simp only [exec, execute] at hfault
    split_ifs at hfault
  | storeCountdown i canThrow =>
    simp only [exec, storeCountdown] at hfault
    split_ifs at hfault
  | closeList canThrow =>
    obtain ⟨l, hhead⟩ := Option.ne_none_iff_exists'.mp henters.relies.1.1.2.1
    simp [exec, closeList, hhead] at hfault
  | notifyLoad l canThrow => cases hfault
  | notifyArcs l canThrow failed =>
    have hnotifying : Notifying c.mem l canThrow := henters.relies.1.1
    cases l with
    | nil => cases hfault
    | cons e l =>
      cases e with
      | arc a => cases hfault
      | signal =>
        -- a payload marker means that the writer has failed
        have hthrow : canThrow = true := by
          by_contra hno
          exact hnotifying.2.2.2.2 (Bool.eq_false_iff.mpr hno) List.mem_cons_self
        simp [exec, notifyArcs, hthrow] at hfault
  | notifyReader r =>
    refine hremove { c.mem with settled := bump c.mem.settled r } (.reader r) 1 ?_ hfault
    have hk : tokens (.notifyReader r) (.start (.reader r)) ≤
        -balance c.mem (.start (.reader r)) := henters.covered (.start (.reader r))
    simp [tokens, balance, Instr.guarded, Instr.notifying] at hk
    dsimp only
    omega
  | notifyOut i =>
    obtain ⟨hclosed, -, hhanded⟩ := henters.relies.1
    have hunhanded : (c.mem.out i).handed = false :=
      (hhanded i).trans (decide_eq_false (lt_irrefl i))
    simp only [exec, notifyOut_eq c.mem (h.memory.next i hunhanded)] at hfault
    split_ifs at hfault with hlt hzero
    have harmed : (c.mem.out i).armed = true :=
      ((h.memory.closed hclosed).2 i).trans (decide_eq_true hlt)
    have hlaw := h.law (.unit i)
    have hsum : 0 ≤ threadSum tokens c.threads (.unit i) :=
      Protocol.Holds.sum_nonneg (P := protocol) c _
    simp only [protocol, balance, harmed, hunhanded, if_true, Bool.false_eq_true, if_false] at hlaw
    omega
  | assign r k =>
    simp only [exec, assign] at hfault
    split at hfault <;> cases hfault
  | assignWriter r k =>
    simp only [exec, assignWriter] at hfault
    split at hfault <;> cases hfault
  | lateCheck r k => cases hfault
  | increment r k =>
    obtain ⟨-, hclosed, -⟩ := henters.relies.1
    have hpos := countdown_pos h (((h.memory.closed hclosed).2 c.mem.port).trans
      (decide_eq_true h.memory.port.2))
    simp only [exec, increment_eq] at hfault
    split_ifs at hfault with hlate
    omega
  | addBackArc a k => cases hfault
  | publishFailure a late =>
    simp only [exec, publishFailure] at hfault
    split at hfault <;> cases hfault

theorem length_of_countOf (l : List ReaderArc) (n : ℕ)
    (h : ∀ r, countOf r l = if r < n then 1 else 0) : l.length = n := by
  have hperm : (l.map ReaderArc.reader).Perm (List.range n) := by
    rw [List.perm_iff_count]
    intro r
    have hcount : (l.map ReaderArc.reader).count r = countOf r l := by
      rw [List.count, List.countP_map]
      rfl
    rw [hcount, h r]
    split_ifs with hr
    · exact (List.count_eq_one_of_mem List.nodup_range (List.mem_range.mpr hr)).symm
    · exact (List.count_eq_zero_of_not_mem fun hmem => hr (List.mem_range.mp hmem)).symm
  have hlength := hperm.length_eq
  rwa [List.length_map, List.length_range] at hlength

theorem countAt_of_port {l : List ReaderArc} {p : ℕ} (h : ∀ a ∈ l, a.port = p) (q : ℕ) :
    countAt q l = if q = p then l.length else 0 := by
  induction l with
  | nil => simp
  | cons a l ih =>
    have ha : a.port = p := h a List.mem_cons_self
    rw [countAt_cons, ih fun b hb => h b (List.mem_cons_of_mem _ hb), ha, List.length_cons]
    split_ifs <;> omega

/-- When nothing can run, the writer has completed and every reader was served. -/
theorem final_of_stuck (h : protocol.Holds c) (hstuck : c.Stuck exec) :
    (∀ l ∈ c.threads, l = []) ∧ c.mem.head = none ∧
    (∀ r < c.mem.readers, c.mem.depends r = 1 ∧ c.mem.dispatched (.reader r) = 1) ∧
    (c.mem.out c.mem.port).countdown = c.mem.readers + 1 ∧
    ∀ q < c.mem.slots, q ≠ c.mem.port → (c.mem.out q).countdown = 1 := by
  have hempty : ∀ l ∈ c.threads, l = [] := by
    intro l hl
    cases l with
    | nil => rfl
    | cons ins rest =>
      rcases hstuck.top hl with hblocked | ⟨cause, hfault⟩
      · exact absurd hblocked not_blocked
      · exact absurd hfault (not_fault h hl false cause)
  have hsum : ∀ k, threadSum tokens c.threads k = 0 := by
    intro k
    by_contra hne
    have hnonneg : 0 ≤ threadSum tokens c.threads k :=
      Protocol.Holds.sum_nonneg (P := protocol) c k
    obtain ⟨l, hl, ins, hins, -⟩ :=
      exists_pos_of_threadSum_pos (lt_of_le_of_ne hnonneg (Ne.symm hne))
    rw [hempty l hl] at hins
    cases hins
  have hlaw : ∀ k, balance c.mem k = 0 := by
    intro k
    have hk := h.law k
    simp only [protocol, hsum k] at hk
    omega
  -- the writer was dispatched and has finished
  have hstart := hlaw (.start .writer)
  have hcomplete := hlaw .complete
  have hwriter := h.memory.writer
  simp only [balance] at hstart hcomplete
  rw [if_pos (by omega)] at hwriter
  obtain ⟨hclosed, hhanded⟩ := h.memory.finished (by omega)
  obtain ⟨hdeferred, -⟩ := moved_of_closed h hclosed
  have harcs : c.mem.deferredArcs = [] ∧ c.mem.headArcs = [] := by
    simp [Mem.deferredArcs, Mem.headArcs, hdeferred, hclosed]
  have hback : ∀ r, countOf r c.mem.back = if r < c.mem.readers then 1 else 0 := by
    intro r
    have hcharge := hlaw (.charge r)
    simp only [balance, Mem.expected, harcs.1, harcs.2, countOf_nil] at hcharge
    split_ifs at hcharge ⊢ <;> omega
  have hlength := length_of_countOf c.mem.back c.mem.readers hback
  have hunits : ∀ q < c.mem.slots, (c.mem.out q).countdown = countAt q c.mem.back + 1 := by
    intro q hq
    have hunit := hlaw (.unit q)
    have harmed : (c.mem.out q).armed = true :=
      ((h.memory.closed hclosed).2 q).trans (decide_eq_true hq)
    have hdone : (c.mem.out q).handed = true := (hhanded q).symm.trans harmed
    simp only [balance, harmed, hdone, if_true] at hunit
    omega
  refine ⟨hempty, hclosed, fun r hr => ?_, ?_, fun q hq hne => ?_⟩
  · have hpending := hlaw (.pending r)
    have hcount := hlaw (.start (.reader r))
    simp only [balance, Mem.expected, harcs.1, harcs.2, countOf_nil, if_pos hr] at hpending hcount
    have hreader := h.memory.reader r
    rw [if_pos ⟨hr, by omega⟩] at hreader
    exact ⟨by omega, hreader⟩
  · rw [hunits _ h.memory.port.2, countAt_of_port h.memory.backPort, if_pos rfl, hlength]
  · rw [hunits q hq, countAt_of_port h.memory.backPort, if_neg hne]
    rfl

end Results

/-! ## Every run ends -/

/-- What is left to do after an instruction, counted in steps; `s` is the number of the writer's
slots. -/
def Instr.weight (s : ℕ) : Instr → ℕ
  | .redirect => 2
  | .moveArcs r => 4 * r.length + 1
  | .setNextWriter => 2 * s + 12
  | .removeBackArc => 2 * s + 11
  | .removePrerequisite _ _ => 2 * s + 10
  | .other _ _ => 2 * s + 14
  | .execute => 2 * s + 9
  | .storeCountdown i _ => (s - i) + s + 5
  | .closeList _ => s + 4
  | .notifyLoad l _ => 3 * l.length + s + 3
  | .notifyArcs l _ _ => 3 * l.length + s + 2
  | .notifyReader _ => 1
  | .notifyOut i => (s - i) + 1
  | .assign _ _ => 2 * s + 17
  | .assignWriter _ _ => 2 * s + 16
  | .lateCheck _ _ => 2 * s + 14
  | .increment _ _ => 2 * s + 12
  | .addBackArc _ _ => 2 * s + 11
  | .publishFailure _ none => 2
  | .publishFailure _ (some _) => 2 * s + 13

/-- What is left to do for the arcs on the lists. -/
def Mem.load (m : Mem) : ℕ := 4 * m.deferredArcs.length + 3 * (m.head.getD []).length

section Weight

variable {m m' : Mem} {push : List Instr} {spawned : List (List Instr)} {s : ℕ}

/-- A removal leaves at most the execution of the writer to do. -/
theorem removePrerequisite_weight {t : Who} {n : ℕ}
    (hstep : removePrerequisite m t n = .next m' push spawned) :
    m'.slots = m.slots ∧ m'.load = m.load ∧ (∀ r, t = .reader r → push = [] ∧ spawned = []) ∧
    (push.map (Instr.weight s)).sum + threadWeight (Instr.weight s) spawned ≤ 2 * s + 9 := by
  rw [removePrerequisite_eq] at hstep
  unfold dispatch at hstep
  dsimp only at hstep
  split at hstep
  · cases hstep
  · split at hstep
    · cases t with
      | reader r =>
        cases hstep
        exact ⟨rfl, rfl, fun _ _ => ⟨rfl, rfl⟩, by simp [threadWeight]⟩
      | writer =>
        dsimp only at hstep
        split at hstep
        · cases hstep
          refine ⟨rfl, rfl, fun r hr => (by cases hr), ?_⟩
          simp [threadWeight, Instr.weight]
          omega
        · cases hstep
          refine ⟨rfl, rfl, fun r hr => (by cases hr), ?_⟩
          simp [threadWeight, Instr.weight]
    · cases hstep
      exact ⟨rfl, rfl, fun _ _ => ⟨rfl, rfl⟩, by simp [threadWeight]⟩

/-- Every instruction outweighs what it leaves to do. -/
theorem weight_step {choice : Bool} {ins : Instr} (hslots : m.slots = s)
    (hexec : exec m choice ins = .next m' push spawned) :
    m'.slots = s ∧ m'.load + (push.map (Instr.weight s)).sum +
      threadWeight (Instr.weight s) spawned < m.load + ins.weight s := by
  cases ins with
  | redirect =>
    cases hexec
    refine ⟨hslots, ?_⟩
    simp [Mem.load, Mem.deferredArcs, threadWeight, Instr.weight]
    omega
  | moveArcs r =>
    cases r with
    | nil =>
      cases hexec
      exact ⟨hslots, by simp [threadWeight, Instr.weight]⟩
    | cons a r =>
      simp only [exec, moveArcs] at hexec
      split at hexec
      · rename_i l hl
        cases hexec
        refine ⟨hslots, ?_⟩
        simp [Mem.load, Mem.deferredArcs, threadWeight, Instr.weight, hl]
        omega
      · cases hexec
  | setNextWriter =>
    simp only [exec, setNextWriter_eq] at hexec
    split at hexec <;> cases hexec
    all_goals exact ⟨hslots, by simp [Mem.load, Mem.deferredArcs, threadWeight, Instr.weight]⟩
  | removeBackArc =>
    simp only [exec, removeBackArc] at hexec
    (repeat' split at hexec) <;> cases hexec
    all_goals exact ⟨hslots, by simp [Mem.load, Mem.deferredArcs, threadWeight, Instr.weight]⟩
  | removePrerequisite t n =>
    obtain ⟨hsame, hload, -, hle⟩ := removePrerequisite_weight (s := s) hexec
    refine ⟨hsame.trans hslots, ?_⟩
    simp only [Instr.weight]
    omega
  | other t failure =>
    cases failure with
    | none =>
      cases hexec
      exact ⟨hslots, by simp [threadWeight, Instr.weight]⟩
    | some b =>
      simp only [exec, other] at hexec
      cases hexec
      split_ifs
      · refine ⟨hslots, ?_⟩
        simp [Mem.load, Mem.setWord, Mem.deferredArcs, threadWeight, Instr.weight]
        cases m.head <;> simp
        omega
      · exact ⟨hslots, by simp [Mem.load, Mem.setWord, Mem.deferredArcs, threadWeight, Instr.weight]⟩
  | execute =>
    simp only [exec, execute] at hexec
    split_ifs at hexec <;> cases hexec
    · exact ⟨hslots, by
        simp only [threadWeight, Instr.weight, List.map_cons, List.map_nil, List.sum_cons, List.sum_nil]
        omega⟩
    · refine ⟨hslots, ?_⟩
      simp [Mem.load, Mem.setWord, Mem.deferredArcs, threadWeight, Instr.weight]
      cases m.head <;> simp <;> omega
    · exact ⟨hslots, by
        simp only [threadWeight, Instr.weight, List.map_cons, List.map_nil, List.sum_cons, List.sum_nil]
        omega⟩
  | storeCountdown i canThrow =>
    simp only [exec, storeCountdown] at hexec
    split_ifs at hexec <;> cases hexec
    · refine ⟨hslots, ?_⟩
      simp [Mem.load, Mem.deferredArcs, threadWeight, Instr.weight]
      omega
    · exact ⟨hslots, by
        simp only [threadWeight, Instr.weight, List.map_cons, List.map_nil, List.sum_cons, List.sum_nil]
        omega⟩
  | closeList canThrow =>
    simp only [exec, closeList] at hexec
    split at hexec
    · rename_i l hl
      cases hexec
      refine ⟨hslots, ?_⟩
      simp [Mem.load, Mem.deferredArcs, threadWeight, Instr.weight, hl]
      omega
    · cases hexec
  | notifyLoad l canThrow =>
    cases hexec
    exact ⟨hslots, by simp [threadWeight, Instr.weight]⟩
  | notifyArcs l canThrow failed =>
    cases l with
    | nil =>
      cases hexec
      exact ⟨hslots, by simp [threadWeight, Instr.weight]⟩
    | cons e l =>
      cases e with
      | signal =>
        simp only [exec, notifyArcs] at hexec
        split_ifs at hexec
        cases hexec
        exact ⟨hslots, by simp [threadWeight, Instr.weight]⟩
      | arc a =>
        cases hexec
        refine ⟨hslots, ?_⟩
        split_ifs
        · simp [Mem.load, Mem.deferredArcs, threadWeight, Instr.weight]
          omega
        · simp [Mem.load, Mem.deferredArcs, threadWeight, Instr.weight]
          omega
  | notifyReader r =>
    obtain ⟨hsame, hload, hnone, -⟩ := removePrerequisite_weight (s := s) hexec
    obtain ⟨rfl, rfl⟩ := hnone r rfl
    refine ⟨hsame.trans hslots, ?_⟩
    rw [hload]
    simp [Mem.load, Mem.deferredArcs, threadWeight, Instr.weight]
  | notifyOut i =>
    simp only [exec, notifyOut] at hexec
    (repeat' split at hexec) <;> cases hexec
    · refine ⟨hslots, ?_⟩
      simp [Mem.load, Mem.deferredArcs, threadWeight, Instr.weight]
      omega
    · exact ⟨hslots, by simp [Mem.load, Mem.deferredArcs, threadWeight, Instr.weight]⟩
  | assign r k =>
    simp only [exec, assign] at hexec
    split at hexec
    · rename_i l hl
      cases hexec
      refine ⟨hslots, ?_⟩
      simp [Mem.load, Mem.deferredArcs, threadWeight, Instr.weight, hl]
      omega
    · cases hexec
      exact ⟨hslots, by simp [threadWeight, Instr.weight]⟩
  | assignWriter r k =>
    simp only [exec, assignWriter] at hexec
    split at hexec
    · rename_i l hl
      cases hexec
      refine ⟨hslots, ?_⟩
      simp [Mem.load, Mem.deferredArcs, threadWeight, Instr.weight, hl]
      omega
    · cases hexec
      exact ⟨hslots, by simp [threadWeight, Instr.weight]⟩
  | lateCheck r k =>
    cases hexec
    refine ⟨hslots, ?_⟩
    split_ifs <;> simp [threadWeight, Instr.weight]
  | increment r k =>
    simp only [exec, increment] at hexec
    split at hexec <;> cases hexec
    exact ⟨hslots, by simp [Mem.load, Mem.deferredArcs, threadWeight, Instr.weight]⟩
  | addBackArc a k =>
    cases hexec
    exact ⟨hslots, by simp [Mem.load, Mem.deferredArcs, threadWeight, Instr.weight]⟩
  | publishFailure a late =>
    simp only [exec, publishFailure] at hexec
    split at hexec <;> cases hexec
    all_goals
      refine ⟨hslots, ?_⟩
      cases late <;> simp [Mem.load, Mem.setWord, Mem.deferredArcs, threadWeight, Instr.weight]

end Weight

/-- In every run no reader of the deferred var is lost. -/
theorem readers_served {allowed : State → Turn → Prop} {writer : Args} {before after : ℕ}
    {readers : List Args} {c : State}
    (hreach : Reach exec allowed (start writer before after readers) c) : Served c := by
  have h := holds_of_reach hreach
  have hbound : ∀ r, c.mem.expected r ≤ 1 := by
    intro r
    unfold Mem.expected
    split_ifs <;> omega
  have hnonneg : ∀ k, 0 ≤ threadSum tokens c.threads k := fun k =>
    Protocol.Holds.sum_nonneg (P := protocol) c k
  exact
    { noFault := fun ins rest hl choice cause => not_fault h hl choice cause
      once := fun r => by
        have hpending := h.law (.pending r)
        have hdependency := h.law (.dependency r)
        have hp := hnonneg (.pending r)
        have hd := hnonneg (.dependency r)
        have hr := hbound r
        simp only [protocol, balance] at hpending hdependency
        omega
      after := fun r hr => by
        obtain ⟨hdepends, hsettled, -⟩ := of_dispatched h hr
        exact ⟨(h.memory.settled r (by omega)).1, hdepends, hsettled⟩
      charged := fun r => by
        refine ⟨?_, fun hr => (of_dispatched h hr).2.2⟩
        have hcharge := h.law (.charge r)
        have hc := hnonneg (.charge r)
        have hr := hbound r
        simp only [protocol, balance] at hcharge
        omega
      slot := h.memory.backPort
      failure := fun r hr => by
        have hreceived := (h.memory.settled r hr).2
        refine ⟨hreceived, fun hfailed => ?_⟩
        exact (h.memory.received r (hreceived.trans hfailed)).2.2
      moved := moved_of_closed h
      final := final_of_stuck h
      ends := Config.ends_of_weight (Instr.weight c.mem.slots) Mem.load
        (I := fun m => m.slots = c.mem.slots)
        (fun _ _ _ _ _ _ hslots hexec => weight_step hslots hexec) rfl }

/-- One reader registers before the redirect and one after the writer, which is skipped, has
completed. -/
theorem readers_served_two : ∃ c,
    Reach exec (fun _ _ => True)
      (start ⟨[some .exception], by decide⟩ 0 0 [⟨[], by decide⟩, ⟨[none], by decide⟩]) c ∧
    c.mem.failed = true ∧ c.mem.dispatched (.reader 0) = 1 ∧ c.mem.dispatched (.reader 1) = 1 ∧
    Served c := by
  obtain ⟨c, hreach, hc⟩ := Reach.exists_of_run exec
    (start ⟨[some .exception], by decide⟩ 0 0 [⟨[], by decide⟩, ⟨[none], by decide⟩])
    (rounds [(2, 2), (0, 7), (1, 15), (3, 7), (4, 2)])
    (fun c => decide (c.mem.failed = true ∧ c.mem.dispatched (.reader 0) = 1 ∧
      c.mem.dispatched (.reader 1) = 1))
    (by decide)
  obtain ⟨hfailed, hfirst, hsecond⟩ := of_decide_eq_true hc
  exact ⟨c, hreach, hfailed, hfirst, hsecond, readers_served hreach⟩

end Oox.Deferred
