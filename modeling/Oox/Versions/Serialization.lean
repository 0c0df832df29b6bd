import Oox.Versions.Readers

/-!
# Accesses to a storage are serialized

A task that writes to a version in place is the version's next writer from the moment it is set
up, or a step that makes it so is pending and holds one of its prerequisites. So when a task is
dispatched, every version that it writes to has been handed over to it: the version is complete
and its readers have finished. A version that it reads is complete. Along the chain of versions
that were written one over the other this holds of all earlier ones as well. For a var that is not
forwarded the chain goes back to the node that holds the value. The var of a forwarding task
starts a chain of its own: what the body's readers do to the storage of the var that it returned
does not hold off the writers of the forwarding task's var.
-/

set_option autoImplicit false

namespace Oox

open Library

variable {V : Type}

/-! ## Next writers that are pending -/

/-- The instruction makes `t` the next writer of version `(n, p)`, or goes on to do so. -/
def Instr.Installs (n p t : ℕ) : Instr V → Prop
  | .setNextWriter q i d => q = n ∧ i = p ∧ d = .node t
  | .redirect q i d _ _ => q = n ∧ i = p ∧ d = t
  | .moveArcs q i d _ _ => q = n ∧ i = p ∧ d = t
  | _ => False

/-- Task `t` is the next writer of version `(n, p)`, or is about to be. -/
def TakesOver (c : State V) (n p t : ℕ) : Prop :=
  ((c.mem.node n).out p).nextWriter = .node t ∨ ∃ l ∈ c.threads, ∃ ins ∈ l, ins.Installs n p t

/-- A task whose prerequisites were all delivered. -/
def Phase.Dispatched (phase : Phase) : Prop := phase ≠ .setup ∧ phase ≠ .waiting

/-- A pending next writer has a prerequisite that was not delivered. -/
theorem Instr.Installs.holds {ins : Instr V} {n p t : ℕ} (h : ins.Installs n p t) :
    0 < ins.tokens (.pre t) := by
  cases ins with
  | setNextWriter q i d =>
    obtain ⟨-, -, rfl⟩ := h
    simp [Instr.tokens, NextWriter.tokens, one]
  | redirect q i d j a =>
    obtain ⟨-, -, rfl⟩ := h
    simp [Instr.tokens, one]
  | moveArcs q i d j r =>
    obtain ⟨-, -, rfl⟩ := h
    have hlisted := listedTokens_nonneg q r (.pre d)
    have hcap := one_nonneg (.cap q i) (.pre d)
    simp only [Instr.tokens, one_self]
    omega
  | _ => exact h.elim

variable [Inhabited V]

namespace Legal

variable {m m' : Mem V} {spurious : Bool} {ins : Instr V} {push : List (Instr V)}
variable {spawned : List (List (Instr V))} {n p t : ℕ}

/-- A next writer stays. -/
theorem node_stays (h : Legal m spurious ins m' push spawned) (hn : n < m.nodes.size)
    (hnext : ((m.node n).out p).nextWriter = .node t) :
    ((m'.node n).out p).nextWriter = .node t := by
  rcases (h.changes.node n hn).nextWriter p with heq | hchange
  · rw [heq, hnext]
  · cases ins with
    | setNextWriter n' p' d =>
      obtain ⟨-, -, -, hopen⟩ := hchange
      simp [hnext] at hopen
    | outCas t i count refs =>
      obtain ⟨-, -, hopen, -⟩ := hchange
      simp [hnext] at hopen
    | _ => exact hchange.elim

/-- A slot that was notified stays so. -/
theorem notified_stays (h : Legal m spurious ins m' push spawned) (hn : n < m.nodes.size)
    (hnotified : ((m.node n).out p).notified ≠ 0) : ((m'.node n).out p).notified ≠ 0 := by
  rcases (h.changes.node n hn).notified p with heq | ⟨heq, -⟩
  · rwa [heq]
  · omega

/-- A pending next writer is set, or remains pending. -/
theorem installs (h : Legal m spurious ins m' push spawned) (hins : ins.Installs n p t) :
    ((m'.node n).out p).nextWriter = .node t ∨ ∃ x ∈ push, x.Installs n p t := by
  have hstep := h.step
  cases ins with
  | setNextWriter q i d =>
    obtain ⟨rfl, rfl, rfl⟩ := hins
    left
    rw [exec, if_pos h.inLifetime] at hstep
    simp only [Exec.setNextWriter_eq, reduceCtorEq, if_false] at hstep
    split at hstep
    all_goals cases hstep
    all_goals
      unfold Mem.setOut
      rw [Mem.node_setNode_self]
      exact congrArg OutputNode.nextWriter (if_pos rfl)
  | redirect q i d j a =>
    obtain ⟨rfl, rfl, rfl⟩ := hins
    rw [exec, if_pos h.inLifetime] at hstep
    cases hstep
    exact .inr ⟨_, List.mem_cons_self, rfl, rfl, rfl⟩
  | moveArcs q i d j r =>
    obtain ⟨rfl, rfl, rfl⟩ := hins
    rw [exec, if_pos h.inLifetime] at hstep
    cases r with
    | nil =>
      cases hstep
      exact .inr ⟨_, List.mem_cons_self, rfl, rfl, rfl⟩
    | cons b r =>
      cases hstep
      exact .inr ⟨_, List.mem_cons_of_mem _ List.mem_cons_self, rfl, rfl, rfl⟩
  | _ => exact hins.elim

/-- A task is dispatched by the step that removes its last prerequisite. -/
theorem dispatched (h : Legal m spurious ins m' push spawned) (ht : t < m.nodes.size)
    (hd : (m'.node t).phase.Dispatched) :
    (m.node t).phase.Dispatched ∨ (m'.node t).phase = .running ∧ m'.arcs = m.arcs := by
  rcases (h.changes.node t ht).phase with heq | hchange
  · exact .inl (heq ▸ hd)
  · have hrunning : 0 < ins.tokens (.exec t) → (m.node t).phase.Dispatched := by
      intro hpos
      obtain ⟨-, hphase, -⟩ := owed_exec (h.owed hpos)
      rw [hphase]
      exact ⟨nofun, nofun⟩
    have hforward : 0 < ins.tokens (.forward t) → (m.node t).phase.Dispatched := by
      intro hpos
      obtain ⟨-, hphase, -⟩ := owed_forward (h.owed hpos)
      rw [hphase]
      exact ⟨nofun, nofun⟩
    cases ins with
    | addArc n a site =>
      cases site with
      | forward q =>
        obtain ⟨rfl, -⟩ := hchange
        exact .inl (hforward (by simp [Instr.tokens, AddSite.tokens, one, arms]))
      | _ => exact hchange.elim
    | addArcCas n a seen site =>
      cases site with
      | forward q =>
        obtain ⟨rfl, -⟩ := hchange
        exact .inl (hforward (by simp [Instr.tokens, AddSite.tokens, one, arms]))
      | _ => exact hchange.elim
    | closeList q canThrow terminal count =>
      obtain ⟨rfl, -⟩ := hchange
      exact .inl (hrunning closeList_exec)
    | removePrerequisite q k =>
      obtain ⟨-, hphase, -⟩ := hchange
      refine .inr ⟨hphase, ?_⟩
      have hstep := h.step
      rw [exec, if_pos h.inLifetime] at hstep
      simp only [Exec.removePrerequisite_eq] at hstep
      repeat' split at hstep
      all_goals cases hstep
      all_goals rfl
    | storeStart q =>
      obtain ⟨rfl, -⟩ := hchange
      exact .inl (hrunning (by simp [Instr.tokens, running, one, arms]))
    | bind f =>
      obtain ⟨rfl, hphase⟩ := hchange
      exact absurd hphase hd.2
    | _ => exact hchange.elim

end Legal

/-! ## Running tasks -/

namespace Stored

variable {c : State V} {n p t : ℕ} {arg : VarArg}

omit [Inhabited V] in
/-- What a running task writes to was handed over to it. -/
theorem running_writer (h : Stored c) (hbound : Bounded c.mem)
    (hphase : (c.mem.node t).phase = .running) (htakes : TakesOver c n p t) (hn : n < c.mem.nodes.size)
    (hp : p < (c.mem.node n).slots) :
    ((c.mem.node n).out p).nextWriter = .node t ∧ ((c.mem.node n).out p).notified ≠ 0 := by
  have hnone : (c.mem.node t).phase.prerequisites (c.mem.node t).startCount.count = 0 := by
    rw [hphase]
    rfl
  rcases htakes with hnext | ⟨l, hl, ins, hins, hinstalls⟩
  · refine ⟨hnext, fun hzero => ?_⟩
    obtain ⟨-, hpre⟩ := pre_of_slot hn hp hnext hzero (h.balance_le hbound _)
    omega
  · exfalso
    have howed := hinstalls.holds.trans_le (h.covered hbound hl hins _)
    obtain ⟨-, hpre⟩ := owed_pre (m := c.mem) one_pos howed
    omega

omit [Inhabited V] in
/-- What a running task reads is complete. -/
theorem running_reader (h : Stored c) (hbound : Bounded c.mem)
    (hphase : (c.mem.node t).phase = .running) (hargs : ArgStored c.mem t arg)
    (hmode : arg.mode.isWriter = false) :
    ∃ q p, Serves c.mem arg.version q p ∧ q < c.mem.nodes.size ∧
      (c.mem.node q).phase = .finished := by
  obtain ⟨a, ha, q, p, hreads, -, hserves⟩ := hargs.reader hmode
  have hok := h.safe.sound.mem.arc a ha
  have hx := h.store.arc a ha
  refine ⟨q, p, hserves, (hok.reads _ _ _ hreads).2.1, hx.complete _ _ _ hreads ?_⟩
  intro hwaiting
  have halive : (c.mem.arc a).alive = true := by
    by_contra hdead
    have hspent := h.store.deleted a ha (by simpa using hdead)
    rw [hwaiting] at hspent
    cases hspent
  have hflow : (c.mem.arc a).kind = .flowBack := by
    have hallows := hok.kind
    have hplain := hx.reads
    rw [hwaiting] at hallows
    cases hk : (c.mem.arc a).kind <;> simp_all [ArcKind.Allows]
  have hself := hok.flowBack hflow hwaiting
  rw [hreads] at hself
  obtain ⟨hnode, -⟩ := Prod.mk.inj (Option.some.inj hself)
  obtain ⟨-, hpre⟩ := pre_of_waiting ha halive hwaiting (h.balance_le hbound _)
  rw [← hnode, hphase] at hpre
  simp [Phase.prerequisites] at hpre

end Stored

/-! ## Runs -/

/-- Every writer is a next writer or about to be; what a dispatched task writes to was handed
over to it, and what it reads is complete. -/
structure Serial (c : State V) : Prop where
  stored : Stored c
  takes : ∀ t < c.mem.nodes.size, ∀ arg ∈ (c.mem.node t).args, arg.mode.isWriter = true →
    TakesOver c arg.version.1 arg.version.2 t
  writes : ∀ t < c.mem.nodes.size, (c.mem.node t).phase.Dispatched →
    ∀ arg ∈ (c.mem.node t).args, arg.mode.isWriter = true →
      ((c.mem.node arg.version.1).out arg.version.2).nextWriter = .node t ∧
        ((c.mem.node arg.version.1).out arg.version.2).notified ≠ 0
  reads : ∀ t < c.mem.nodes.size, (c.mem.node t).phase.Dispatched →
    ∀ arg ∈ (c.mem.node t).args, arg.mode.isWriter = false →
      ∃ q p, Serves c.mem arg.version q p ∧ q < c.mem.nodes.size ∧
        (c.mem.node q).phase = .finished

namespace Serial

variable {c c' : State V} {e : Turn} {ins : Instr V} {rest push : List (Instr V)}
variable {spawned : List (List (Instr V))} {n p t : ℕ}

/-- A next writer stays, or remains pending. -/
theorem takes_stays (htakes : TakesOver c n p t) (hn : n < c.mem.nodes.size)
    (hlegal : Legal c.mem e.choice ins c'.mem push spawned)
    (htop : c.threads[e.thread]? = some (ins :: rest))
    (hthreads : c'.threads = c.threads.set e.thread (push ++ rest) ++ spawned) :
    TakesOver c' n p t := by
  rcases htakes with hnext | ⟨l, hl, x, hx, hinstalls⟩
  · exact .inl (hlegal.node_stays hn hnext)
  · rcases Config.stays htop hthreads hl hx with rfl | ⟨l', hl', hx'⟩
    · rcases hlegal.installs hinstalls with hset | ⟨y, hy, hpending⟩
      · exact .inl hset
      · exact .inr ⟨_, Config.pushed htop hthreads, y, List.mem_append_left _ hy, hpending⟩
    · exact .inr ⟨l', hl', x, hx', hinstalls⟩

/-- A writer that is registered is pending. -/
theorem takes_recorded {f : Frame V} {arg : VarArg}
    (hlegal : Legal c.mem e.choice (.setup f) c'.mem push spawned)
    (htop : c.threads[e.thread]? = some (.setup f :: rest))
    (hthreads : c'.threads = c.threads.set e.thread (push ++ rest) ++ spawned)
    (hargs : (c'.mem.node f.task).args = (c.mem.node f.task).args ++ [arg])
    (hmode : arg.mode.isWriter = true) : TakesOver c' arg.version.1 arg.version.2 f.task := by
  obtain ⟨hsetup, -⟩ := hlegal.setup_step
  have hpushed := Config.pushed htop hthreads
  have ht := (hlegal.sets_up (f := f) (c := f.count) fun _ => le_rfl).1
  right
  generalize c'.mem = m' at hsetup hargs
  cases hsetup with
  | done _ => simp at hargs
  | plain _ => simp at hargs
  | fresh _ _ _ _ =>
    have hsame : ((c.mem.newNode (storageNode default)).node f.task).args =
        (c.mem.node f.task).args := by
      rw [Mem.node_newNode, if_neg (by omega)]
    rw [Mem.node_setVar, hsame] at hargs
    simp at hargs
  | @read x v q mode l _ _ _ hreads _ =>
    have hsame := congrArg Node.args (Mem.node_record_self c.mem f.task (argOf (c.mem.var v) q mode))
    obtain rfl : argOf (c.mem.var v) q mode = arg := by
      simpa using hsame.symm.trans hargs
    have hread : (argOf (c.mem.var v) q mode).mode.isWriter = false := hreads
    rw [hread] at hmode
    cases hmode
  | @write x v q mode l _ _ _ _ _ _ _ _ =>
    have hsame := congrArg Node.args (Mem.node_record_self c.mem f.task (argOf (c.mem.var v) q mode))
    obtain rfl : argOf (c.mem.var v) q mode = arg := by
      simpa using hsame.symm.trans hargs
    exact ⟨_, hpushed, _, List.mem_cons_self, rfl, rfl, rfl⟩
  | @redirect x v q mode l _ _ _ _ _ _ _ _ =>
    have hsame := congrArg Node.args (Mem.node_record_self c.mem f.task (argOf (c.mem.var v) q mode))
    obtain rfl : argOf (c.mem.var v) q mode = arg := by
      simpa using hsame.symm.trans hargs
    exact ⟨_, hpushed, _, List.mem_cons_self, rfl, rfl, rfl⟩

/-- Every writer remains registered, and a new one is pending. -/
theorem takes_step (h : Serial c) (hlegal : Legal c.mem e.choice ins c'.mem push spawned)
    (htop : c.threads[e.thread]? = some (ins :: rest))
    (hthreads : c'.threads = c.threads.set e.thread (push ++ rest) ++ spawned)
    (ht : t < c'.mem.nodes.size) {arg : VarArg} (harg : arg ∈ (c'.mem.node t).args)
    (hmode : arg.mode.isWriter = true) : TakesOver c' arg.version.1 arg.version.2 t := by
  by_cases hold : t < c.mem.nodes.size
  · have hkept : arg ∈ (c.mem.node t).args → TakesOver c' arg.version.1 arg.version.2 t := fun hmem =>
      takes_stays (h.takes t hold arg hmem hmode)
        (h.stored.store.arg t hold arg hmem).version.lt hlegal htop hthreads
    by_cases hsetup : ∃ f, ins = .setup f
    · obtain ⟨f, rfl⟩ := hsetup
      rcases hlegal.setup_records with hsame | ⟨hother, arg', hrecorded⟩
      · exact hkept (hsame t hold ▸ harg)
      · by_cases htask : t = f.task
        · subst htask
          have hargs := hrecorded.args
          rw [hargs, List.mem_append, List.mem_singleton] at harg
          rcases harg with hmem | rfl
          · exact hkept hmem
          · exact takes_recorded hlegal htop hthreads hargs hmode
        · exact hkept (hother t hold htask ▸ harg)
    · exact hkept (hlegal.args_same (fun f hf => hsetup ⟨f, hf⟩) hold ▸ harg)
  · rw [hlegal.args_new (by omega) ht] at harg
    cases harg

theorem step (h : Serial c) (he : Admitted c e) (hstep : c.step exec e = some c') :
    Serial c' := by
  obtain ⟨ins, rest, push, spawned, htop, hexec, hthreads⟩ := Config.step_cases hstep
  have hstored := h.stored.step he hstep
  have hlegal := h.stored.safe.sound.legal he htop hexec
  have htakes : ∀ t < c'.mem.nodes.size, ∀ arg ∈ (c'.mem.node t).args, arg.mode.isWriter = true →
      TakesOver c' arg.version.1 arg.version.2 t := fun t ht arg harg hmode =>
    h.takes_step hlegal htop hthreads ht harg hmode
  -- a task that is dispatched by this step runs
  have hcases : ∀ t < c'.mem.nodes.size, (c'.mem.node t).phase.Dispatched →
      (c'.mem.node t).args = [] ∨
      (t < c.mem.nodes.size ∧ (c.mem.node t).phase.Dispatched ∧
        (c'.mem.node t).args = (c.mem.node t).args) ∨
      (c'.mem.node t).phase = .running ∧ Bounded c'.mem := by
    intro t ht hd
    by_cases hold : t < c.mem.nodes.size
    · rcases hlegal.dispatched hold hd with hbefore | ⟨hphase, harcs⟩
      · exact .inr (.inl ⟨hold, hbefore, hlegal.args_fixed hold hbefore.1⟩)
      · refine .inr (.inr ⟨hphase, fun q p => ?_⟩)
        have hbound := he.bounded q p
        unfold readers at hbound ⊢
        rwa [harcs]
    · exact .inl (hlegal.args_new (by omega) ht)
  refine ⟨hstored, htakes, fun t ht hd arg harg hmode => ?_, fun t ht hd arg harg hmode => ?_⟩
  · rcases hcases t ht hd with hnone | ⟨hold, hbefore, hsame⟩ | ⟨hphase, hbound⟩
    · rw [hnone] at harg
      cases harg
    · rw [hsame] at harg
      have hn := (h.stored.store.arg t hold arg harg).version.lt
      obtain ⟨hnext, hnotified⟩ := h.writes t hold hbefore arg harg hmode
      exact ⟨hlegal.node_stays hn hnext, hlegal.notified_stays hn hnotified⟩
    · have hargs := hstored.store.arg t ht arg harg
      exact hstored.running_writer hbound hphase (htakes t ht arg harg hmode) hargs.version.lt
        hargs.slot
  · rcases hcases t ht hd with hnone | ⟨hold, hbefore, hsame⟩ | ⟨hphase, hbound⟩
    · rw [hnone] at harg
      cases harg
    · rw [hsame] at harg
      obtain ⟨q, p, hserves, hq, hphase⟩ := h.reads t hold hbefore arg harg hmode
      exact ⟨q, p, hserves.stable hlegal.frozen, hq.trans_le hlegal.frozen.nodes_le,
        hlegal.finished hq hphase⟩
    · exact hstored.running_reader hbound hphase (hstored.store.arg t ht arg harg) hmode

theorem start (locals : ℕ) (ops : List (Op V)) : Serial (initial locals ops) where
  stored := .start locals ops
  takes t ht := by simp [initial, Mem.initial, Heap.empty] at ht
  writes t ht := by simp [initial, Mem.initial, Heap.empty] at ht
  reads t ht := by simp [initial, Mem.initial, Heap.empty] at ht

/-- Accesses are serialized in every configuration that admitted steps reach. -/
theorem of_reach {locals : ℕ} {ops : List (Op V)}
    (h : Reach exec Admitted (initial locals ops) c) : Serial c :=
  h.invariant (start locals ops) fun _ _ _ hserial he hstep => hserial.step he hstep

end Serial

/-! ## What is over when a task is dispatched -/

/-- Task `r` reads version `v`: an argument named it, or named the deferred version that `v` was
made of and was moved to it. -/
def Reads (m : Mem V) (r : ℕ) (v : ℕ × ℕ) : Prop :=
  ∃ arg ∈ (m.node r).args, arg.mode.isWriter = false ∧ (arg.version = v ∨
    ∃ a < m.arcs.size, (m.arc a).reads = some (r, v) ∧ Over m arg.version v)

/-- The node that makes version `v` is complete, and so is every task that reads it. Nobody reads
a deferred version. -/
structure PassedOn (m : Mem V) (v : ℕ × ℕ) : Prop where
  complete : (m.node v.1).phase = .finished
  readers : (m.node v.1).kind ≠ .deferred → ∀ r < m.nodes.size, Reads m r v →
    (m.node r).phase = .finished

/-- Every version that `w` was made of, by writing one over the other, was passed on. Versions
that a body made of a var before it returned it are not among them. -/
def Settled (m : Mem V) (w : ℕ × ℕ) : Prop := ∀ v, Relation.TransGen (Over m) v w → PassedOn m v

namespace Serial

variable {c : State V} {t : ℕ} {v w : ℕ × ℕ}

omit [Inhabited V] in
/-- The version that a dispatched task writes to was passed on. -/
theorem passedOn (h : Serial c) (hbound : Bounded c.mem) (hw : w.1 < c.mem.nodes.size)
    (hd : (c.mem.node w.1).phase.Dispatched) (hover : Over c.mem v w) : PassedOn c.mem v := by
  obtain ⟨i, arg, -, harg, rfl⟩ := hover
  obtain ⟨hmem, hmode⟩ := List.mem_filter.mp (List.mem_of_getElem? harg)
  obtain ⟨hnext, hnotified⟩ := h.writes w.1 hw hd arg hmem hmode
  have hn := (h.stored.store.arg w.1 hw arg hmem).version.lt
  refine ⟨h.stored.safe.sound.mem.finished_of_notified hn hnotified, fun hkind r hr hreads => ?_⟩
  -- the arc of the reader stands for this version
  have harc : ∃ a < c.mem.arcs.size, (c.mem.arc a).reads = some (r, arg.version) := by
    obtain ⟨arg', hmem', hmode', hsame | ⟨a, ha, harc, -⟩⟩ := hreads
    · obtain ⟨a, ha, q, p, harc, -, hserves⟩ := (h.stored.store.arg r hr arg' hmem').reader hmode'
      rcases hserves with hself | ⟨hdeferred, -⟩
      · exact ⟨a, ha, by rw [harc, ← hself, hsame]⟩
      · rw [hsame] at hdeferred
        exact absurd hdeferred hkind
    · exact ⟨a, ha, harc⟩
  obtain ⟨a, ha, harc⟩ := harc
  rcases h.stored.readers_finished hbound ha harc hkind hnotified with hfinished | hnone
  · exact hfinished
  · rw [hnext] at hnone
    cases hnone

omit [Inhabited V] in
theorem over_lt (h : Serial c) (hw : w.1 < c.mem.nodes.size) (hover : Over c.mem v w) :
    v.1 < c.mem.nodes.size := by
  obtain ⟨i, arg, -, harg, rfl⟩ := hover
  exact (h.stored.store.arg w.1 hw arg (List.mem_of_mem_filter (List.mem_of_getElem? harg))).version.lt

omit [Inhabited V] in
/-- All earlier versions of what a dispatched task makes were passed on. -/
theorem settled (h : Serial c) (hbound : Bounded c.mem) (hw : w.1 < c.mem.nodes.size)
    (hd : (c.mem.node w.1).phase.Dispatched) : Settled c.mem w := by
  intro v hv
  suffices hboth : v.1 < c.mem.nodes.size ∧ PassedOn c.mem v from hboth.2
  induction hv using Relation.TransGen.head_induction_on with
  | single hover => exact ⟨h.over_lt hw hover, h.passedOn hbound hw hd hover⟩
  | head hover _ ih =>
    obtain ⟨hlt, hpassed⟩ := ih
    refine ⟨h.over_lt hlt hover, h.passedOn hbound hlt ?_ hover⟩
    rw [hpassed.complete]
    exact ⟨nofun, nofun⟩

omit [Inhabited V] in
/-- The result of a node is its first version. -/
theorem eq_of_result {m : Mem V} {q n : ℕ} (h : m.Version q 0 (.result n)) : n = q := by
  have hstorage : (m.node q).resultStorage q = .result n := Option.some.inj h.storage
  unfold Node.resultStorage at hstorage
  split at hstorage
  · split at hstorage <;> cases hstorage
    rfl
  · cases hstorage
    rfl

omit [Inhabited V] in
/-- The versions of the value in a node go back to its first one. -/
theorem from_first (h : Serial c) {n q p : ℕ} (hversion : c.mem.Version q p (.result n)) :
    Relation.ReflTransGen (Over c.mem) (n, 0) (q, p) := by
  induction q using Nat.strong_induction_on generalizing p with
  | h q ihq =>
    induction p using Nat.strong_induction_on with
    | h p ihp =>
      cases p with
      | zero =>
        rw [eq_of_result hversion]
      | succ i =>
        obtain ⟨arg, harg, hptr⟩ := Option.map_eq_some_iff.mp hversion.storage
        obtain ⟨-, hprecedes⟩ := h.stored.store.written q hversion.lt i arg harg
        have hmem : arg ∈ (c.mem.node q).args := List.mem_of_mem_filter (List.mem_of_getElem? harg)
        have hargs := h.stored.store.arg q hversion.lt arg hmem
        have hbefore : c.mem.Version arg.version.1 arg.version.2 (.result n) := hptr ▸ hargs.version
        have hover : Over c.mem arg.version (q, i + 1) := ⟨i, arg, rfl, harg, rfl⟩
        refine .tail ?_ hover
        by_cases hkind : (c.mem.node arg.version.1).kind = .task
        · rcases hprecedes hkind with hlt | ⟨heq, hlt⟩
          · exact ihq _ hlt hbefore
          · rw [heq] at hbefore
            have hfirst := ihp _ hlt hbefore
            rwa [← heq] at hfirst
        · -- a storage node has one version
          have hslots := (h.stored.safe.sound.mem.node _ hbefore.lt).slots.2 hkind
          have hzero : arg.version.2 = 0 := by
            have hslot := hargs.slot
            omega
          rw [hzero] at hbefore
          rw [← Prod.mk.eta (p := arg.version), hzero, eq_of_result hbefore]

end Serial

/-- Accesses are serialized: when the last prerequisite of a task was removed, every version
that it writes to is complete, was read by all its readers, and so were all versions it was made
of; every version that it reads is complete, and those it was made of were passed on. If the var
was not forwarded, these go back to the first version of its storage. -/
theorem serialized {c : State V} {locals : ℕ} {ops : List (Op V)}
    (h : Reach exec Admitted (initial locals ops) c) (hbound : Bounded c.mem) {t : ℕ}
    (ht : t < c.mem.nodes.size) (hd : (c.mem.node t).phase.Dispatched) {arg : VarArg}
    (harg : arg ∈ (c.mem.node t).args) :
    (arg.mode.isWriter = true → PassedOn c.mem arg.version ∧ Settled c.mem arg.version) ∧
    (arg.mode.isWriter = false → ∃ w : ℕ × ℕ, Serves c.mem arg.version w.1 w.2 ∧
      (c.mem.node w.1).phase = .finished ∧ Settled c.mem w) ∧
    ∀ n, arg.ptr = .plain (.result n) → Relation.ReflTransGen (Over c.mem) (n, 0) arg.version := by
  have hserial := Serial.of_reach h
  have hfinished : ∀ {n : ℕ}, (c.mem.node n).phase = .finished →
      (c.mem.node n).phase.Dispatched := by
    intro n hn
    rw [hn]
    exact ⟨nofun, nofun⟩
  refine ⟨fun hmode => ?_, fun hmode => ?_, fun n hptr => ?_⟩
  · have hwritten : arg ∈ (c.mem.node t).written := List.mem_filter.mpr ⟨harg, hmode⟩
    obtain ⟨i, hi⟩ := List.mem_iff_getElem?.mp hwritten
    have hover : Over c.mem arg.version (t, i + 1) := ⟨i, arg, rfl, hi, rfl⟩
    have hpassed := hserial.passedOn hbound ht hd hover
    exact ⟨hpassed, hserial.settled hbound (hserial.over_lt ht hover) (hfinished hpassed.complete)⟩
  · obtain ⟨q, p, hserves, hq, hphase⟩ := hserial.reads t ht hd arg harg hmode
    exact ⟨(q, p), hserves, hphase, hserial.settled hbound hq (hfinished hphase)⟩
  · have hversion := (hserial.stored.store.arg t ht arg harg).version
    rw [hptr] at hversion
    exact hserial.from_first hversion

/-! ### A deferred var with a reader and two writers -/

section Example

def deferredChain : List (Op ℕ) :=
  let body : Body ℕ := { result := fun vals => vals.sum, writes := fun vals => vals.map (· + 1) }
  [.deferred 0 true, .run none [.var 0 .copyOnly] true .void body,
    .run none [.var 0 .readWrite] true .void body, .run none [.var 0 .readWrite] true .void body,
    .destroy 0]

/-- When the second writer is called, the version of the first writer was passed on. -/
theorem serialized_deferredChain : ∃ c, Reach exec Admitted (initial 1 deferredChain) c ∧
    (c.mem.node 3).phase = .running ∧ (c.mem.node 3).args.map VarArg.version = [(2, 1)] ∧
    PassedOn c.mem (2, 1) ∧ Settled c.mem (2, 1) ∧
    Relation.ReflTransGen (Over c.mem) (0, 0) (2, 1) := by
  obtain ⟨c, hreach, hc⟩ := Reach.exists_of_runIf exec admits (initial 1 deferredChain)
    (rounds [(0, 40), (1, 25), (2, 27), (3, 1)])
    (fun c => decide (3 < c.mem.nodes.size ∧ (c.mem.node 3).phase = .running ∧
      (c.mem.node 3).args = [⟨.readWrite, .plain (.result 0), (2, 1)⟩] ∧ c.mem.arcs.size = 2))
    (by decide)
  obtain ⟨ht, hphase, hargs, harcs⟩ := of_decide_eq_true hc
  have hadmitted := hreach.mono fun _ _ => admitted_of_check
  have hbound : Bounded c.mem := bounded_of_arcs (by rw [harcs]; decide)
  obtain ⟨hwrites, -, hfirst⟩ := serialized hadmitted hbound ht (by rw [hphase]; exact ⟨nofun, nofun⟩)
    (by rw [hargs]; exact List.mem_singleton.mpr rfl)
  obtain ⟨hpassed, hsettled⟩ := hwrites rfl
  exact ⟨c, hadmitted, hphase, by rw [hargs]; rfl, hpassed, hsettled, hfirst 0 rfl⟩

end Example

end Oox
