import Oox.Ports.Bounds

/-!
# Steps keep ports in bounds

Every step leaves a placed memory: an arc keeps fitting its list because nobody but its holder
writes to it, and a var gets a port from the call of `run` that counts them.
-/

set_option autoImplicit false

namespace Oox

open Library

variable {V : Type} [Inhabited V]

namespace PortStep

variable {m m' : Mem V} {spurious : Bool} {ins : Instr V} {push : List (Instr V)}
variable {spawned : List (List (Instr V))}

/-! ## Nodes -/

theorem live_kept (h : PortStep m spurious ins m' push spawned) (n : ℕ)
    (hlive : (m'.node n).status = .live) : n < m'.nodes.size := by
  by_contra hge
  rcases (h.changes.nodeAt n (.inr (by omega))).status with hsame | hchange
  · have hlt := h.mem.live n (hsame.symm.trans hlive)
    have hle := h.frozen.nodes_le
    omega
  · rw [hlive] at hchange
    cases ins with
    | release n' k => cases hchange.2
    | releaseSub n' k => cases hchange.2
    | freeNode n' => cases hchange.2
    | _ => exact hchange

/-- What a new node is: a storage node, or the task of a call of `run`. -/
theorem birth_cases (h : PortStep m spurious ins m' push spawned) {n : ℕ} (hn : m.nodes.size ≤ n)
    (hlt : n < m'.nodes.size) :
    ((m'.node n).kind ≠ .task ∧ (m'.node n).slots = 1 ∨
      (m'.node n).inner < m'.vars.size ∧ 0 < (m'.node n).slots ∧ (m'.node n).slots ≤ 1024) ∧
    ((m'.node n).head = .done ∨ (m'.node n).head = .list []) := by
  obtain ⟨rfl, hbirth⟩ := h.changes.newNode n hn hlt
  cases ins with
  | setup f =>
    have heq : m'.node m.nodes.size = storageNode default := hbirth
    rw [heq]
    exact ⟨.inl ⟨by simp [storageNode], rfl⟩, .inl rfl⟩
  | runOps env ops after =>
    have hstep := h.step
    rw [exec, if_pos h.inLifetime] at hstep
    cases ops with
    | nil => exact hbirth.elim
    | cons op ops =>
      cases op with
      | value x canThrow v =>
        have heq : m'.node m.nodes.size = storageNode v := hbirth
        rw [heq]
        exact ⟨.inl ⟨by simp [storageNode], rfl⟩, .inl rfl⟩
      | deferred x canThrow =>
        have heq : m'.node m.nodes.size = deferredNode := hbirth
        rw [heq]
        exact ⟨.inl ⟨by simp [deferredNode], rfl⟩, .inr rfl⟩
      | run dst args canThrow kind code =>
        have hregular : (args.filter Arg.isWriter).length < 1024 := h.regular
        have heq : m'.node m.nodes.size = taskNode args canThrow kind code m.vars.size := hbirth
        have hvars : m.vars.size < m'.vars.size := by
          cases hstep
          exact Nat.lt_succ_self _
        rw [heq]
        refine ⟨.inr ⟨hvars, ?_, ?_⟩, .inr rfl⟩
        · simp only [taskNode, writeNodesCount]
          omega
        · simp only [taskNode, writeNodesCount]
          omega
      | _ => exact hbirth.elim
  | _ => exact hbirth.elim

theorem slots_kept (h : PortStep m spurious ins m' push spawned) (n : ℕ)
    (hn : n < m'.nodes.size) : 0 < (m'.node n).slots ∧ (m'.node n).slots ≤ 1024 := by
  by_cases hold : n < m.nodes.size
  · rw [(h.frozen.node n hold).slots]
    exact h.mem.slots n hold
  · rcases (h.birth_cases (by omega) hn).1 with ⟨-, hone⟩ | ⟨-, hslots⟩
    · omega
    · exact hslots

theorem inner_kept (h : PortStep m spurious ins m' push spawned) (n : ℕ)
    (hn : n < m'.nodes.size) (hkind : (m'.node n).kind = .task) :
    (m'.node n).inner < m'.vars.size := by
  by_cases hold : n < m.nodes.size
  · have hsame := h.frozen.node n hold
    rw [hsame.inner]
    rw [hsame.kind] at hkind
    exact (h.mem.inner n hold hkind).trans_le h.frozen.vars_le
  · rcases (h.birth_cases (by omega) hn).1 with ⟨hnot, -⟩ | ⟨hinner, -⟩
    · exact absurd hkind hnot
    · exact hinner

/-! ## Lists -/

/-- The arcs of an old list fit it after the step. -/
theorem old_list (h : PortStep m spurious ins m' push spawned) {n : ℕ} (hn : n < m.nodes.size)
    {l : List ℕ} (hhead : (m.node n).head = .list l) {a : ℕ} (ha : a ∈ l) : m'.Fits n a := by
  have hfits := h.mem.list n hn l hhead a ha
  refine hfits.mono h.frozen (h.same_of_head hn hfits.arc ?_)
  rw [hhead]
  exact one_le_listClaims ha

theorem list_kept (h : PortStep m spurious ins m' push spawned) (n : ℕ) (hn : n < m'.nodes.size)
    (l : List ℕ) (hhead : (m'.node n).head = .list l) (a : ℕ) (ha : a ∈ l) : m'.Fits n a := by
  by_cases hold : n < m.nodes.size
  · rcases (h.changes.node n hold).head with hsame | hchange
    · exact h.old_list hold (hsame.symm.trans hhead) ha
    · rw [hhead] at hchange
      cases ins with
      | addArcCas n' b seen site =>
        obtain ⟨rfl, hseen, hnew⟩ := hchange
        cases hnew
        rcases List.mem_cons.mp ha with rfl | hmem
        · have hfits : m.Fits n a := h.ok.1
          rcases h.arc_cases hfits.arc with hsame | hrewrites
          · exact hfits.mono h.frozen hsame
          · exact hrewrites.elim
        · exact h.old_list hold hseen hmem
      | closeList t canThrow terminal count =>
        obtain ⟨-, -, hclosed, -⟩ := hchange
        cases terminal <;> cases hclosed
      | redirect n' q t p b => cases hchange.2
      | _ => exact hchange.elim
  · rcases (h.birth_cases (by omega) hn).2 with hdone | hempty
    · rw [hdone] at hhead
      cases hhead
    · rw [hempty] at hhead
      cases hhead
      cases ha

theorem redirect_kept (h : PortStep m spurious ins m' push spawned) (n : ℕ)
    (hn : n < m'.nodes.size) (d : ℕ) (hhead : (m'.node n).head = .redirect d) :
    d < m'.arcs.size ∧ m'.HasSlot (m'.arc d).node (m'.arc d).port := by
  by_cases hold : n < m.nodes.size
  · rcases (h.changes.node n hold).head with hsame | hchange
    · have hhead' : (m.node n).head = .redirect d := hsame.symm.trans hhead
      obtain ⟨hd, hslot⟩ := h.mem.redirect n hold d hhead'
      have harc := h.same_of_head hold hd (by
        rw [hhead']
        exact one_le_listClaims (List.mem_singleton_self d))
      refine ⟨hd.trans_le h.frozen.arcs_le, ?_⟩
      rw [harc.node, harc.port]
      exact hslot.mono h.frozen
    · rw [hhead] at hchange
      cases ins with
      | addArcCas n' b seen site => cases hchange.2.2
      | closeList t canThrow terminal count =>
        obtain ⟨-, -, hclosed, -⟩ := hchange
        cases terminal <;> cases hclosed
      | redirect n' q t p b =>
        obtain ⟨-, hwriter, -, hb, hnode, hport⟩ := h.ok
        cases hchange.2
        rcases h.arc_cases hb with hsame | hrewrites
        · refine ⟨hb.trans_le h.frozen.arcs_le, ?_⟩
          rw [hsame.node, hsame.port, hnode, hport]
          exact hwriter.mono h.frozen
        · exact hrewrites.elim
      | _ => exact hchange.elim
  · rcases (h.birth_cases (by omega) hn).2 with hdone | hempty
    · rw [hdone] at hhead
      cases hhead
    · rw [hempty] at hhead
      cases hhead

/-! ## Arcs -/

/-- A new arc is no back arc, and it waits for a task if it is one of `run`. -/
theorem arc_birth (h : PortStep m spurious ins m' push spawned) {a : ℕ} (ha : m.arcs.size ≤ a)
    (hlt : a < m'.arcs.size) : (m'.arc a).kind ≠ .backOnly ∧
      ((m'.arc a).kind = .flowBack →
        (m'.arc a).node < m.nodes.size ∧ (m.node (m'.arc a).node).kind = .task) := by
  obtain ⟨-, hbirth⟩ := h.changes.newArc a ha hlt
  cases ins with
  | retainTerminal t c count =>
    rw [hbirth.2]
    simp [Exec.payloadArc]
  | retainSignal n c =>
    rw [hbirth.2]
    simp [Exec.payloadArc]
  | finish t env vals cells =>
    have heq : m'.arc a = Exec.payloadArc t m.controls.size := hbirth
    rw [heq]
    simp [Exec.payloadArc]
  | addLife t =>
    obtain ⟨n, -, heq⟩ := hbirth
    rw [heq]
    simp
  | setup f =>
    have hframe : f.Placed m := h.ok
    obtain ⟨v, n, -, -, ⟨-, heq⟩ | heq⟩ := hbirth
    · rw [heq]
      simp
    · rw [heq]
      exact ⟨by simp, fun _ => ⟨hframe.task, hframe.kind⟩⟩
  | _ => exact hbirth.elim

theorem reader_kept (h : PortStep m spurious ins m' push spawned) (a : ℕ)
    (ha : a < m'.arcs.size) (hkind : (m'.arc a).kind = .flowBack) :
    (m'.arc a).node < m'.nodes.size ∧ (m'.node (m'.arc a).node).kind = .task := by
  have hold : (m'.arc a).node < m.nodes.size ∧ (m.node (m'.arc a).node).kind = .task := by
    by_cases hlt : a < m.arcs.size
    · rcases h.changes.arc a hlt with heq | hchange
      · rw [heq] at hkind ⊢
        exact h.mem.reader a hlt hkind
      · rcases h.arc_cases hlt with hsame | hrewrites
        · rw [hsame.kind] at hkind
          rw [hsame.node]
          exact h.mem.reader a hlt hkind
        · cases ins with
          | notifyArcs t canThrow failed r count =>
            obtain ⟨-, ⟨heq, -⟩ | ⟨-, heq⟩⟩ := hchange
            · rw [heq] at hkind ⊢
              exact h.mem.reader a hlt hkind
            · rw [heq] at hkind
              cases hkind
          | moveArcs n q t p r =>
            rw [hchange.2] at hkind ⊢
            exact h.mem.reader a hlt hkind
          | assignHead f n p b =>
            obtain ⟨-, d, -, heq⟩ := hchange
            rw [heq] at hkind ⊢
            exact h.mem.reader a hlt hkind
          | assignIncrement f n p b =>
            rw [hchange.2] at hkind
            cases hkind
          | _ => exact hrewrites.elim
    · exact (h.arc_birth (by omega) ha).2 hkind
  refine ⟨hold.1.trans_le h.frozen.nodes_le, ?_⟩
  rw [(h.frozen.node _ hold.1).kind]
  exact hold.2

/-- A back arc is made for a slot of its node, and only other arcs are moved. -/
theorem back_kept (h : PortStep m spurious ins m' push spawned) (a : ℕ)
    (ha : a < m'.arcs.size) (hkind : (m'.arc a).kind = .backOnly) :
    m'.HasSlot (m'.arc a).node (m'.arc a).port := by
  by_cases hlt : a < m.arcs.size
  · rcases h.arc_cases hlt with hsame | hrewrites
    · rw [hsame.kind] at hkind
      rw [hsame.node, hsame.port]
      exact (h.mem.back a hlt hkind).mono h.frozen
    · rcases h.changes.arc a hlt with heq | hchange
      · rw [heq] at hkind ⊢
        exact (h.mem.back a hlt hkind).mono h.frozen
      · cases ins with
        | notifyArcs t canThrow failed r count =>
          obtain ⟨hhead, ⟨heq, -⟩ | ⟨hflow, heq⟩⟩ := hchange
          · rw [heq] at hkind ⊢
            exact (h.mem.back a hlt hkind).mono h.frozen
          · have hfits : m.Fits t a := h.ok.2 a (List.mem_of_mem_head? hhead)
            have hslot : m.HasSlot t (m.arc a).port :=
              ⟨hfits.node, hfits.forward (by rw [hflow]; simp)⟩
            rw [heq]
            exact hslot.mono h.frozen
        | moveArcs n q t p r =>
          have hnot := (h.ok.2.2 a (List.mem_of_mem_head? hchange.1)).2
          rw [hchange.2] at hkind
          exact absurd hkind hnot
        | assignHead f n p b =>
          obtain ⟨rfl, d, -, heq⟩ := hchange
          have hflow : (m.arc a).kind = .flowBack := h.ok.kind
          rw [heq] at hkind
          exact absurd (hflow.symm.trans hkind) (by simp)
        | assignIncrement f n p b =>
          obtain ⟨rfl, heq⟩ := hchange
          have hreads : m.Reads f n p a := h.ok
          have hslot : m.HasSlot n (m.arc a).port :=
            ⟨hreads.fits.node, hreads.fits.forward (by rw [hreads.kind]; simp)⟩
          rw [heq]
          exact hslot.mono h.frozen
        | _ => exact hrewrites.elim
  · exact absurd hkind (h.arc_birth (by omega) ha).1

end PortStep

/-! ## Vars -/

/-- All vars of one memory name slots of another. -/
def Mem.VarsIn (m₀ m : Mem V) : Prop := ∀ v, (m.var v).Placed m₀

namespace Mem.VarsIn

variable {m₀ m : Mem V}

omit [Inhabited V]

theorem setVar (h : m₀.VarsIn m) {v : ℕ} {u : Var} (hu : u.Placed m₀) :
    m₀.VarsIn (m.setVar v u) := by
  intro w
  rw [Mem.var_setVar]
  split
  · exact hu
  · exact h w

theorem clobber (h : m₀.VarsIn m) (v : ℕ) : m₀.VarsIn (m.clobber v) :=
  h.setVar ⟨(h v).slot, (h v).deferred⟩

theorem newVar (h : m₀.VarsIn m) {u : Var} (hu : u.Placed m₀) : m₀.VarsIn (m.newVar u) := by
  intro w
  rw [Mem.var_newVar]
  split
  · exact hu
  · exact h w

theorem newVars (h : m₀.VarsIn m) (k : ℕ) : m₀.VarsIn (m.newVars k) := by
  induction k generalizing m with
  | zero => exact h
  | succ k ih => exact ih (h.newVar (.empty rfl))

theorem borrowVars (h : m₀.VarsIn m) (vs : List ℕ) : m₀.VarsIn (Exec.borrowVars m vs) := by
  induction vs generalizing m with
  | nil => exact h
  | cons v vs ih =>
    have hv := h v
    refine ih (newVar (h.setVar ?_) ?_)
    · exact ⟨hv.slot, hv.deferred⟩
    · exact ⟨hv.slot, hv.deferred⟩

theorem writeCells (h : m₀.VarsIn m) (cells : List (StoragePtr × V)) :
    m₀.VarsIn (Exec.writeCells m cells) := by
  induction cells generalizing m with
  | nil => exact h
  | cons cell rest ih =>
    obtain ⟨p, v⟩ := cell
    cases p with
    | varObject u => exact ih (h.clobber u)
    | null => exact ih h
    | task n => exact ih h
    | result n => exact ih (m := m.setNode n { m.node n with result := some v }) h

end Mem.VarsIn

theorem Consumed.varsIn {m₀ m m₁ : Mem V} (hc : Consumed m m₁) (h : m₀.VarsIn m) :
    m₀.VarsIn m₁ := by
  intro v
  rcases hc.var v with hsame | hwild
  · rw [hsame]
    exact h v
  · rw [hwild]
    exact ⟨(h v).slot, (h v).deferred⟩

omit [Inhabited V] in
theorem assignVar_varsIn {m₀ m m' : Mem V} {v : ℕ} {r : Var} {next push : List (Instr V)}
    {spawned : List (List (Instr V))} (h : m₀.VarsIn m) (hr : r.Placed m₀)
    (hstep : Exec.assignVar m v r next = .next m' push spawned) : m₀.VarsIn m' := by
  simp only [Exec.assignVar] at hstep
  split at hstep <;> cases hstep
  exact h.setVar hr

omit [Inhabited V] in
/-- The var of a new storage node names its only slot. -/
theorem storageVar_placed {m : Mem V} {n : ℕ} {isDeferred canThrow : Bool} (hn : n < m.nodes.size)
    (hslots : 0 < (m.node n).slots)
    (hkind : isDeferred = true → (m.node n).kind = .deferred) :
    (storageVar n isDeferred canThrow).Placed m where
  slot n' hn' := by
    cases hn'
    exact ⟨hn, hslots⟩
  deferred n' hn' hdef := by
    cases hn'
    exact hkind hdef

namespace PortStep

variable {m m' : Mem V} {spurious : Bool} {push : List (Instr V)}
variable {spawned : List (List (Instr V))}

/-- The vars before the step, seen from the memory after it. -/
theorem varsIn {ins : Instr V} (h : PortStep m spurious ins m' push spawned) : m'.VarsIn m :=
  fun v => (h.mem.var v).mono h.frozen

/-- The next port of a call is a slot of its task. -/
theorem next_slot {f : Frame V} (h : PortStep m spurious (.setup f) m' push spawned) {x : ℕ}
    {mode : AccessMode} {rest : List Arg} (hargs : f.args = .var x mode :: rest)
    (hwriter : mode.isWriter = true) : m.HasSlot f.task f.port where
  node := h.ok.task
  port := by
    have hslots := h.ok.slots
    have hfirst : Arg.isWriter (.var x mode) = true := hwriter
    rw [hargs, List.filter_cons_of_pos hfirst, List.length_cons] at hslots
    omega

theorem setup_varsIn {f : Frame V} (h : PortStep m spurious (.setup f) m' push spawned) :
    m'.VarsIn m' := by
  have hvars := h.varsIn
  have hslots := h.slots_kept
  have hfrozen := h.frozen
  have hnext := @next_slot V _ m m' spurious push spawned f h
  have hstep := h.step
  rw [exec, if_pos h.inLifetime] at hstep
  simp only [Exec.setup] at hstep
  split at hstep
  · cases hstep
    exact hvars
  · cases hstep
    exact hvars
  · rename_i x mode rest hargs
    split at hstep
    · cases hstep
    · rename_i v henv
      split at hstep
      · split at hstep <;> cases hstep
        refine hvars.setVar (m := m.newNode (storageNode default)) (storageVar_placed ?_ ?_ ?_)
        · exact Nat.lt_succ_self _
        · exact (hslots _ (Nat.lt_succ_self _)).1
        · exact fun hdef => absurd hdef (by simp)
      · rename_i n htask
        split at hstep
        · rename_i hwriter
          have hslot := (hnext hargs hwriter).mono hfrozen
          have hgiven : ∀ u : Var, u.currentTask = some f.task → u.currentPort = f.port →
              u.isDeferred = false → u.Placed m' := by
            intro u hnode hport hdef
            refine ⟨fun n hn => ?_, fun n _ htrue => absurd (hdef.symm.trans htrue) (by simp)⟩
            cases hnode.symm.trans hn
            rw [hport]
            exact hslot
          split at hstep
          · cases hstep
          · split at hstep
            · cases hstep
            · split at hstep
              · cases hstep
              · split at hstep <;> cases hstep
                · exact hvars.setVar (hgiven _ rfl rfl rfl)
                · exact hvars.setVar (hgiven _ rfl rfl rfl)
        · split at hstep <;> cases hstep
          exact hvars

theorem finish_varsIn {t : ℕ} {env : List ℕ} {vals : List V} {cells : List StoragePtr}
    (h : PortStep m spurious (.finish t env vals cells) m' push spawned) : m'.VarsIn m' := by
  have hvars := h.varsIn.writeCells (cells.zip ((m.node t).body.writes vals))
  have hstep := h.step
  rw [exec, if_pos h.inLifetime] at hstep
  simp only [Exec.finish] at hstep
  generalize Exec.writeCells m (cells.zip ((m.node t).body.writes vals)) = m₁ at hstep hvars
  split at hstep
  · split at hstep <;> cases hstep
    exact hvars
  · split at hstep
    · split at hstep <;> cases hstep
      exact hvars
    · cases hstep
      exact hvars
    · split at hstep
      · cases hstep
      · rename_i w hw
        split at hstep
        · cases hstep
        · split at hstep <;> cases hstep
          have hempty := hvars.setVar (v := w) (u := { m₁.var w with currentTask := none })
            (.empty rfl)
          exact hempty.setVar (hvars w)

theorem runOps_varsIn {env : List ℕ} {ops : List (Op V)} {after : After V}
    (h : PortStep m spurious (.runOps env ops after) m' push spawned) : m'.VarsIn m' := by
  have hvars := h.varsIn
  have hslots := h.slots_kept
  have hstep := h.step
  have hregular := h.regular
  rw [exec, if_pos h.inLifetime] at hstep
  simp only [Exec.runOps] at hstep
  split at hstep
  · split at hstep <;> cases hstep
    · exact hvars
    · exact hvars
  · split at hstep
    · split at hstep
      · cases hstep
      · exact assignVar_varsIn hvars (.empty rfl) hstep
    · rename_i v
      split at hstep
      · cases hstep
      · refine assignVar_varsIn (m := m.newNode (storageNode v)) hvars ?_ hstep
        simp only [Exec.assignVar] at hstep
        split at hstep <;> cases hstep
        exact storageVar_placed (Nat.lt_succ_self _) (hslots _ (Nat.lt_succ_self _)).1
          fun hdef => absurd hdef (by simp)
    · split at hstep
      · cases hstep
      · refine assignVar_varsIn (m := m.newNode deferredNode) hvars ?_ hstep
        simp only [Exec.assignVar] at hstep
        split at hstep <;> cases hstep
        refine storageVar_placed (Nat.lt_succ_self _) (hslots _ (Nat.lt_succ_self _)).1 fun _ => ?_
        rw [Mem.node_setVar, Mem.node_newNode, if_pos rfl]
        rfl
    · cases hstep
      exact hvars.newVar (.empty rfl)
    · split at hstep
      · rename_i dst src _ _ d s hd hs
        split at hstep
        · cases hstep
        · split at hstep
          · cases hstep
          · exact assignVar_varsIn (hvars.setVar (.empty rfl)) (hvars s) hstep
      · cases hstep
    · split at hstep
      · cases hstep
      · exact assignVar_varsIn hvars (.empty rfl) hstep
    · split at hstep
      · cases hstep
      · split at hstep
        · cases hstep
          exact hvars
        · split at hstep <;> cases hstep
          · exact hvars
          · exact hvars
    · split at hstep
      · cases hstep
      · split at hstep <;> cases hstep
        exact hvars
    · split at hstep
      · cases hstep
      · split at hstep <;> cases hstep
        exact hvars
    · split at hstep
      · rename_i dst src _ _ d s hd hs
        split at hstep
        · cases hstep
        · split at hstep
          · cases hstep
          · exact assignVar_varsIn (hvars.setVar (.empty rfl)) (hvars s) hstep
      · cases hstep
    · exact hregular.elim
    · cases hstep
      exact (hvars.borrowVars _).newVars _

theorem var_kept {ins : Instr V} (h : PortStep m spurious ins m' push spawned) : m'.VarsIn m' := by
  have hvars := h.varsIn
  by_cases hquiet : ins.quiet = true
  · have hq := (exec_quiet (m := m) spurious hquiet).of_next h.step
    intro v
    rw [hq.var v]
    exact hvars v
  · have hstep := h.step
    unfold exec at hstep
    rw [if_pos h.inLifetime] at hstep
    cases ins with
    | destroy n =>
      simp only [Exec.destroy] at hstep
      split at hstep <;> cases hstep
      · exact hvars.setVar (.empty rfl)
      · exact hvars
    | invoke t =>
      simp only [Exec.invoke] at hstep
      split at hstep
      · cases hstep
      · rename_i m₁ vals hconsume
        cases hstep
        apply Mem.VarsIn.newVars
        exact (consumeAll_consumed hconsume).varsIn hvars
    | finish t env vals cells => exact h.finish_varsIn
    | setup f => exact h.setup_varsIn
    | moveResult f r =>
      have hr : r.Placed m' := h.ok.1.mono h.frozen
      simp only [Exec.moveResult] at hstep
      split at hstep
      · cases hstep
        exact hvars
      · split at hstep <;> cases hstep
        exact hvars.setVar hr
    | runOps env ops after => exact h.runOps_varsIn
    | _ => exact absurd rfl hquiet

/-- Every step leaves a placed memory. -/
theorem mem_placed {ins : Instr V} (h : PortStep m spurious ins m' push spawned) : m'.Placed where
  live := h.live_kept
  slots := h.slots_kept
  inner := h.inner_kept
  list := h.list_kept
  redirect := h.redirect_kept
  reader := h.reader_kept
  back := h.back_kept
  var := h.var_kept

end PortStep

end Oox
