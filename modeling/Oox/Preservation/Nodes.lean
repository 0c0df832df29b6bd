import Oox.Preservation.Stability

/-!
# Nodes after a step

A step leaves every allocated node well formed. Each field of the invariant is checked
against the few instructions that can change it.
-/

set_option autoImplicit false

namespace Oox

open Library

variable {V : Type} [Inhabited V]

namespace Legal

variable {m m' : Mem V} {spurious : Bool} {ins : Instr V} {push : List (Instr V)}
variable {spawned : List (List (Instr V))}

/-! ## What the tokens of the instruction say -/

theorem owed (h : Legal m spurious ins m' push spawned) {k : Token} (hk : 0 < ins.tokens k) :
    0 < -balance m k :=
  hk.trans_le (h.covered k)

/-- The right to run a task is used on a running task. -/
theorem runs (h : Legal m spurious ins m' push spawned) {t : ℕ} (hk : 0 < ins.tokens (.exec t)) :
    t < m.nodes.size ∧ (m.node t).phase = .running ∧ (m.node t).kind = .task := by
  obtain ⟨ht, hphase, -⟩ := owed_exec (h.owed hk)
  exact ⟨ht, hphase, (h.mem.node t ht).task (by simp [hphase])⟩

omit [Inhabited V] in
theorem finish_exec {t : ℕ} {env : List ℕ} {vals : List V} {cells : List StoragePtr} :
    0 < (Instr.finish t env vals cells).tokens (.exec t) := by
  have hvars := varTokens_nonneg env (.exec t)
  simp only [Instr.tokens, running, one_self, arms]
  omega

omit [Inhabited V] in
theorem closeList_exec {t : ℕ} {canThrow : Bool} {terminal : Option ℕ} {count : List ℤ} :
    0 < (Instr.closeList t canThrow terminal count : Instr V).tokens (.exec t) := by
  have hexec : completing t count (.exec t) = 1 := completing_exec
  unfold completing at hexec
  cases terminal <;> simp [Instr.tokens, hexec, one]

omit [Inhabited V] in
theorem outSub_hand {t i refs : ℕ} {count : List ℤ} (hi : i < count.length) :
    0 < (Instr.outSub t i count refs : Instr V).tokens (.hand t i) := by
  simp [Instr.tokens, counters_hand le_rfl hi, one]

omit [Inhabited V] in
theorem storeCountdown_arm {t : ℕ} {canThrow : Bool} {count : List ℤ} :
    0 < (Instr.storeCountdown t canThrow count : Instr V).tokens (.arm t count.length) := by
  have harm : completing t count (.arm t count.length) = 1 := completing_arm le_rfl
  unfold completing at harm
  simp [Instr.tokens, harm]

/-! ## Slots -/

/-- A slot is handed over once, after it was armed. -/
theorem hand_change (h : Legal m spurious ins m' push spawned) {n p : ℕ}
    (hchange : HandChange n p ins) :
    m.Finished n ∧ ((m.node n).out p).armed = true ∧ ((m.node n).out p).handed = false ∧
      ((m.node n).out p).nextWriter ≠ .null := by
  cases ins with
  | outSub t i count refs =>
    obtain ⟨rfl, rfl⟩ := hchange
    obtain ⟨-, -, hfin, hi, -, hset⟩ := h.ok
    obtain ⟨-, -, harmed, hhanded, -⟩ := owed_hand (h.owed (outSub_hand hi))
    exact ⟨hfin, harmed, hhanded, hset⟩
  | _ => exact hchange.elim

/-- `notify_next_writer` is called on a slot that was handed over and counted down to zero. -/
theorem notify_change (h : Legal m spurious ins m' push spawned) {n p : ℕ}
    (hchange : NotifyChange n p ins) :
    ((m.node n).out p).notified = 0 ∧ ((m.node n).out p).countdown = 0 ∧
      ((m.node n).out p).handed = true := by
  have hfire : 0 < -balance m (.fire n p) := by
    cases ins with
    | notifyNextWriter n' p' =>
      obtain ⟨rfl, rfl⟩ := hchange
      exact h.owed (by simp [Instr.tokens])
    | outNotify t i count refs =>
      obtain ⟨rfl, rfl⟩ := hchange
      exact h.owed (by simp [Instr.tokens, counters_eq_zero, one])
    | _ => exact hchange.elim
  obtain ⟨hn, hp, harmed, hzero, hnotified, -⟩ := owed_fire hfire
  refine ⟨hnotified, hzero, ?_⟩
  -- the producer would still hold a unit in reserve
  have hle := back_le hn hp harmed
  have hbal := h.balance_le (.back n p)
  rw [hzero] at hle
  by_contra hhanded
  rw [if_neg hhanded] at hle
  omega

/-- The countdown of a slot that was notified does not change any more. -/
theorem countdown_still (h : Legal m spurious ins m' push spawned) {n p : ℕ} {k : ℤ}
    (harmed : ((m.node n).out p).armed = true) (hhanded : ((m.node n).out p).handed = true)
    (hzero : ((m.node n).out p).countdown = 0)
    (hchange : CountdownChange n p ((m.node n).out p).countdown k ins) : False := by
  cases ins with
  | storeCountdown t canThrow count =>
    obtain ⟨rfl, rfl, -⟩ := hchange
    have hfresh := (owed_arm (h.owed storeCountdown_arm)).2.1
    rw [harmed] at hfresh
    cases hfresh
  | removeBackArc n' p' =>
    obtain ⟨-, -, rfl, hpos⟩ := hchange
    omega
  | outSub t i count refs =>
    obtain ⟨rfl, rfl, -⟩ := hchange
    have hfresh := (h.hand_change ⟨rfl, rfl⟩).2.2.1
    rw [hhanded] at hfresh
    cases hfresh
  | assignIncrement f n' p' a =>
    obtain ⟨-, -, rfl, hpos⟩ := hchange
    omega
  | _ => exact hchange

theorem slot_ok (h : Legal m spurious ins m' push spawned) {n : ℕ} (hn : n < m.nodes.size)
    (p : ℕ) : SlotOk (m'.node n).phase ((m'.node n).out p) := by
  have hok := (h.mem.node n hn).slot p
  have hchange := h.changes.node n hn
  refine ⟨fun hhanded => ?_, fun hnotified => ?_⟩
  · rcases hchange.handed p with heq | hhand
    · rw [heq] at hhanded
      obtain ⟨harmed, hset, hphase⟩ := hok.handed hhanded
      exact ⟨hchange.armed p harmed, h.writer_set hn hset, h.finished hn hphase⟩
    · obtain ⟨hfin, harmed, -, hset⟩ := h.hand_change hhand
      exact ⟨hchange.armed p harmed, h.writer_set hn hset, h.finished hn hfin.phase⟩
  · -- the slot before the step, and how often it was notified
    have hbefore : (m'.node n |>.out p).notified = 1 ∧ ((m.node n).out p).handed = true ∧
        ((m.node n).out p).countdown = 0 ∧ ((m.node n).out p).nextWriter ≠ .null ∧
        ((m.node n).out p).nextWriter ≠ .ready := by
      rcases hchange.notified p with heq | ⟨heq, hnull, hready, hnotify⟩
      · rw [heq] at hnotified
        obtain ⟨hone, hrest⟩ := hok.notified hnotified
        exact ⟨heq.trans hone, hrest⟩
      · obtain ⟨hfirst, hzero, hhanded⟩ := h.notify_change hnotify
        rw [hfirst] at heq
        exact ⟨heq, hhanded, hzero, hnull, hready⟩
    obtain ⟨hone, hhanded, hzero, hnull, hready⟩ := hbefore
    have harmed := (hok.handed hhanded).1
    refine ⟨hone, ?_, ?_, ?_⟩
    · rcases hchange.handed p with heq | hhand
      · rw [heq, hhanded]
      · have hfresh := (h.hand_change hhand).2.2.1
        rw [hhanded] at hfresh
        cases hfresh
    · rcases hchange.countdown p with heq | hcount
      · rw [heq, hzero]
      · exact (h.countdown_still harmed hhanded hzero hcount).elim
    · rcases hchange.nextWriter p with heq | hwriter
      · rw [heq]
        exact ⟨hnull, hready⟩
      · exfalso
        cases ins with
        | setNextWriter n' p' d =>
          obtain ⟨-, -, -, hd | hd⟩ := hwriter
          · exact hnull hd
          · exact hready hd
        | outCas t i count refs => exact hnull hwriter.2.2.1
        | _ => exact hwriter

/-! ## Heads and phases -/

/-- Only a running task whose slots are all armed closes its list. -/
theorem closes (h : Legal m spurious ins m' push spawned) {n : ℕ} {w w' : StartCount}
    {head : Head} (hchange : PhaseChange n w .finished head w' ins) :
    (m.node n).kind = .task ∧ head.isDone = true ∧
      ∀ p < (m.node n).slots, ((m.node n).out p).armed = true := by
  cases ins with
  | closeList t canThrow terminal count =>
    obtain ⟨rfl, -, rfl⟩ := hchange
    refine ⟨(h.runs closeList_exec).2.2, by cases terminal <;> rfl, fun p hp => ?_⟩
    have hlt : p < count.length := by
      rw [h.ok.1]
      exact hp
    have hhand : completing n count (.hand n p) = 1 := completing_hand hlt
    have hpos : 0 < (Instr.closeList n canThrow terminal count : Instr V).tokens (.hand n p) := by
      unfold completing at hhand
      cases terminal <;> simp [Instr.tokens, hhand, one]
    exact (owed_hand (h.owed hpos)).2.2.1
  | addArc n' a site => cases site <;> simp [PhaseChange] at hchange
  | addArcCas n' a seen site => cases site <;> simp [PhaseChange] at hchange
  | _ => simp [PhaseChange] at hchange

/-- How a head changes, by the kind of its node. -/
theorem head_change (h : Legal m spurious ins m' push spawned) {n : ℕ} {head : Head}
    {phase : Phase} (hchange : HeadChange n (m.node n).head head phase ins) :
    (∃ l, head = .list l) ∨
      (m.node n).kind = .task ∧ phase = .finished ∧ head.isDone = true ∧
        (∀ d, head ≠ .redirect d) ∨
      (m.node n).kind = .deferred ∧ ∃ a, head = .redirect a := by
  cases ins with
  | addArcCas n' a seen site => exact .inl ⟨_, hchange.2.2⟩
  | closeList t canThrow terminal count =>
    obtain ⟨rfl, -, rfl, hphase⟩ := hchange
    refine .inr (.inl ⟨(h.runs closeList_exec).2.2, hphase, ?_⟩)
    cases terminal <;> exact ⟨rfl, by simp [Exec.closedHead]⟩
  | redirect n' q t p a =>
    obtain ⟨rfl, hhead⟩ := hchange
    exact .inr (.inr ⟨h.ok.1, a, hhead⟩)
  | _ => exact hchange.elim

/-- The count of a task that offers its forwarding arc stays one. -/
theorem forwarding_count (h : Legal m spurious ins m' push spawned) {n : ℕ}
    (hn : n < m.nodes.size) (hphase : (m'.node n).phase = .forwarding) :
    (m'.node n).startCount.count = 1 := by
  have hchange := h.changes.node n hn
  rcases hchange.phase with heq | hpc
  · rw [heq] at hphase
    have hone := (h.mem.node n hn).forwarding hphase
    rcases hchange.startCount with hw | hcount
    · rw [hw, hone]
    · cases ins with
      | removePrerequisite n' k =>
        obtain ⟨rfl, -⟩ := hcount
        have hpre := h.covered (.pre n)
        have hk : 0 < k := h.ok
        simp only [Instr.tokens, one_self, mul_one] at hpre
        have hle := (owed_pre (n := n) (m := m) (by omega) hpre).2
        rw [hphase] at hle
        simp only [Phase.prerequisites] at hle
        omega
      | markCas n' b word => rw [hcount.2.2, StartCount.mark_count, hone]
      | storeStart t => rw [hcount.2]
      | _ => exact hcount.elim
  · rw [hphase] at hpc
    cases ins with
    | storeStart t => rw [hpc.2.2]
    | addArc n' a site => cases site <;> simp [PhaseChange] at hpc
    | addArcCas n' a seen site => cases site <;> simp [PhaseChange] at hpc
    | _ => simp [PhaseChange] at hpc

/-- Every allocated node stays well formed. -/
theorem node_ok (h : Legal m spurious ins m' push spawned) {n : ℕ} (hn : n < m.nodes.size) :
    NodeOk (m'.node n) := by
  have hok := h.mem.node n hn
  have hsame := h.frozen.node n hn
  have hchange := h.changes.node n hn
  have hunfinished : (m'.node n).phase ≠ .finished → (m.node n).phase ≠ .finished :=
    mt (h.finished hn)
  refine ⟨h.slot_ok hn, ?task, ?opened, ?closed, ?storage, ?deferred, ?noRedirect, ?armed,
    h.forwarding_count hn, ?slots, ?inner, ?returned⟩
  case task =>
    intro hphase
    rw [hsame.kind]
    exact hok.task (hunfinished hphase)
  case opened =>
    intro hphase
    rcases hchange.head with heq | hhead
    · rw [heq]
      exact hok.opened (hunfinished hphase)
    · rcases h.head_change hhead with hlist | ⟨-, hfin, -⟩ | ⟨hkind, -⟩
      · exact hlist
      · exact absurd hfin hphase
      · rw [hok.task (hunfinished hphase)] at hkind
        cases hkind
  case closed =>
    intro hkind hphase
    rw [hsame.kind] at hkind
    rcases hchange.phase with heq | hpc
    · rw [heq] at hphase
      have hdone := hok.closed hkind hphase
      rwa [h.head_same hn fun l hl => by simp [hl, Head.isDone] at hdone]
    · rw [hphase] at hpc
      exact (h.closes hpc).2.1
  case storage =>
    intro hkind
    rw [hsame.kind] at hkind
    have hdone := hok.storage hkind
    rwa [h.head_same hn fun l hl => by simp [hl] at hdone]
  case deferred =>
    intro hkind
    rw [hsame.kind] at hkind
    rcases hchange.head with heq | hhead
    · rw [heq]
      exact hok.deferred hkind
    · rcases h.head_change hhead with ⟨l, hl⟩ | ⟨htask, -⟩ | ⟨-, a, ha⟩
      · rw [hl]
        rfl
      · rw [hkind] at htask
        cases htask
      · rw [ha]
        rfl
  case noRedirect =>
    intro hkind
    rw [hsame.kind] at hkind
    rcases hchange.head with heq | hhead
    · rw [heq]
      exact hok.noRedirect hkind
    · rcases h.head_change hhead with ⟨l, hl⟩ | ⟨-, -, -, hno⟩ | ⟨hdeferred, -⟩
      · simp [hl]
      · exact hno
      · rw [hkind] at hdeferred
        cases hdeferred
  case armed =>
    intro hphase p hp
    rw [hsame.slots] at hp
    apply hchange.armed
    rcases hchange.phase with heq | hpc
    · rw [heq] at hphase
      exact hok.armed hphase p hp
    · rw [hphase] at hpc
      exact (h.closes hpc).2.2 p hp
  case slots =>
    rw [hsame.slots, hsame.kind]
    exact hok.slots
  case inner =>
    intro hset
    rw [hsame.kind]
    rcases hchange.innerSet with heq | hinner
    · rw [heq] at hset
      exact hok.inner hset
    · cases ins with
      | finish t env vals cells =>
        obtain ⟨rfl, -⟩ := hinner
        exact (h.runs finish_exec).2.2
      | destroy n' =>
        rw [hinner.2] at hset
        cases hset
      | _ => exact hinner.elim
  case returned =>
    intro hset
    rw [hsame.resultKind]
    rcases hchange.innerSet with heq | hinner
    · rw [heq] at hset
      exact hok.returned hset
    · cases ins with
      | finish t env vals cells => exact hinner.2.2
      | destroy n' =>
        rw [hinner.2] at hset
        cases hset
      | _ => exact hinner.elim

/-! ## New nodes -/

omit [Inhabited V] in
theorem storage_slot : SlotOk .finished { nextWriter := .ready, armed := true, handed := true } :=
  ⟨fun _ => ⟨rfl, by simp, rfl⟩, fun h => absurd rfl h⟩

theorem storageNode_ok (v : V) : NodeOk (storageNode v) where
  slot _ := storage_slot
  task h := absurd rfl h
  opened h := absurd rfl h
  closed h := by cases h
  storage _ := rfl
  deferred h := by cases h
  noRedirect h := by cases h
  armed _ _ _ := rfl
  forwarding h := by cases h
  slots := ⟨Nat.one_pos, fun _ => rfl⟩
  inner h := by cases h
  returned h := by cases h

theorem deferredNode_ok : NodeOk (deferredNode : Node V) where
  slot _ := storage_slot
  task h := absurd rfl h
  opened h := absurd rfl h
  closed h := by cases h
  storage h := by cases h
  deferred _ := rfl
  noRedirect h := by cases h
  armed _ _ _ := rfl
  forwarding h := by cases h
  slots := ⟨Nat.one_pos, fun _ => rfl⟩
  inner h := by cases h
  returned h := by cases h

theorem taskNode_ok (args : List Arg) (canThrow : Bool) (kind : ResultKind) (code : Body V)
    (inner : ℕ) : NodeOk (taskNode args canThrow kind code inner) where
  slot _ := ⟨fun h => (by cases h), fun h => absurd rfl h⟩
  task _ := rfl
  opened _ := ⟨[], rfl⟩
  closed _ h := by cases h
  storage h := by cases h
  deferred h := by cases h
  noRedirect _ _ h := by cases h
  armed h := by cases h
  forwarding h := by cases h
  slots := ⟨by simp [taskNode, writeNodesCount], fun h => absurd rfl h⟩
  inner _ := rfl
  returned h := by cases h

theorem node_new (h : Legal m spurious ins m' push spawned) {n : ℕ} (hge : m.nodes.size ≤ n)
    (hn : n < m'.nodes.size) : NodeOk (m'.node n) := by
  obtain ⟨-, hbirth⟩ := h.changes.newNode n hge hn
  cases ins with
  | setup f =>
    rw [show m'.node n = _ from hbirth]
    exact storageNode_ok _
  | runOps env ops after =>
    rcases ops with _ | ⟨op, ops⟩
    · exact hbirth.elim
    · cases op with
      | value x canThrow v =>
        rw [show m'.node n = _ from hbirth]
        exact storageNode_ok _
      | deferred x canThrow =>
        rw [show m'.node n = _ from hbirth]
        exact deferredNode_ok
      | run dst args canThrow kind code =>
        rw [show m'.node n = _ from hbirth]
        exact taskNode_ok _ _ _ _ _
      | _ => exact hbirth.elim
  | _ => exact hbirth.elim

/-- A node that is not dead was allocated. -/
theorem node_lt (h : Legal m spurious ins m' push spawned) {n : ℕ}
    (hstatus : (m'.node n).status ≠ .dead) : n < m'.nodes.size := by
  by_contra hge
  apply hge
  apply lt_of_lt_of_le _ h.frozen.nodes_le
  apply h.mem.node_lt
  rcases (h.changes.nodeAt n (.inr (by omega))).status with heq | hchange
  · rwa [heq] at hstatus
  · cases ins with
    | release n' k =>
      obtain ⟨rfl, -⟩ := hchange
      have hlive : (m.node n).status = .live := h.live List.mem_cons_self
      simp [hlive]
    | releaseSub n' k =>
      obtain ⟨rfl, -⟩ := hchange
      have hlive : (m.node n).status = .live := h.live List.mem_cons_self
      simp [hlive]
    | freeNode n' => exact absurd hchange.2 hstatus
    | _ => exact hchange.elim

end Legal

end Oox
