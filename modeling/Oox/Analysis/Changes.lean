import Oox.Conservation.Issue

/-!
# What a step can change

For every field of a node, of an arc and of a var: which instructions change it, and how.
Nothing is assumed of the memory, so that every invariant can be checked against the few
instructions that concern it.
-/

set_option autoImplicit false

namespace Oox

open Library

variable {V : Type}

/-! ## Nodes -/

def HeadChange (n : ℕ) (h h' : Head) (phase' : Phase) : Instr V → Prop
  | .addArcCas n' a seen _ => n = n' ∧ h = .list seen ∧ h' = .list (a :: seen)
  | .closeList t _ terminal _ => n = t ∧ (∃ l, h = .list l) ∧ h' = Exec.closedHead terminal ∧
      phase' = .finished
  | .redirect n' _ _ _ a => n = n' ∧ h' = .redirect a
  | _ => False

def PhaseChange (n : ℕ) (w : StartCount) (phase' : Phase) (h' : Head) (w' : StartCount) :
    Instr V → Prop
  | .addArc _ _ (.forward t) => n = t ∧ phase' = .running
  | .addArcCas _ _ _ (.forward t) => n = t ∧ phase' = .suspended
  | .closeList t _ terminal _ => n = t ∧ phase' = .finished ∧ h' = Exec.closedHead terminal
  | .removePrerequisite n' k => n = n' ∧ phase' = .running ∧ w.count = k
  | .storeStart t => n = t ∧ phase' = .forwarding ∧ w' = { count := 1 }
  | .bind f => n = f.task ∧ phase' = .waiting
  | _ => False

def CountChange (n : ℕ) (w w' : StartCount) : Instr V → Prop
  | .removePrerequisite n' k => n = n' ∧ k ≤ w.count ∧ w' = { w with count := w.count - k }
  | .markCas n' b word => n = n' ∧ w = word ∧ w' = w.mark b
  | .storeStart t => n = t ∧ w' = { count := 1 }
  | _ => False

def WriterChange (n p : ℕ) (d d' : NextWriter) : Instr V → Prop
  | .setNextWriter n' p' d'' => n = n' ∧ p = p' ∧ d' = d'' ∧ (d = .null ∨ d = .ready)
  | .outCas t i _ _ => n = t ∧ p = i ∧ d = .null ∧ d' = .ready
  | _ => False

def CountdownChange (n p : ℕ) (k k' : ℤ) : Instr V → Prop
  | .storeCountdown t _ count => n = t ∧ p = count.length ∧ k' = countdownBias
  | .removeBackArc n' p' => n = n' ∧ p = p' ∧ k' = k - 1 ∧ 0 ≤ k'
  | .outSub t i count _ => n = t ∧ p = i ∧ k' = k - count.getD i 0 ∧ 0 ≤ k'
  | .assignIncrement _ n' p' _ => n = n' ∧ p = p' ∧ k' = k + 1 ∧ 1 < k'
  | _ => False

def HandChange (n p : ℕ) : Instr V → Prop
  | .outSub t i _ _ => n = t ∧ p = i
  | _ => False

def NotifyChange (n p : ℕ) : Instr V → Prop
  | .notifyNextWriter n' p' => n = n' ∧ p = p'
  | .outNotify t i _ _ => n = t ∧ p = i
  | _ => False

def StatusChange (n : ℕ) (status : Status) : Instr V → Prop
  | .release n' _ => n = n' ∧ status = .destroying
  | .releaseSub n' _ => n = n' ∧ status = .destroying
  | .freeNode n' => n = n' ∧ status = .dead
  | _ => False

def InnerChange (n : ℕ) (kind : ResultKind) (set : Bool) : Instr V → Prop
  | .finish t _ _ _ => n = t ∧ set = true ∧ kind = .var
  | .destroy n' => n = n' ∧ set = false
  | _ => False

def ResultChange [Inhabited V] (n : ℕ) (result result' : Option V) : Instr V → Prop
  | .invoke _ => result = none ∧ result' = some default
  | .finish _ _ _ _ => result'.isSome = true
  | .destroy n' => n = n' ∧ result' = none
  | _ => False

/-- The part of a task that only its runner changes. -/
def SameRun (x x' : Node V) : Prop :=
  x'.runs = x.runs ∧ x'.given = x.given ∧ x'.started = x.started ∧ x'.closes = x.closes ∧
    x'.locals = x.locals

def RunChange (n : ℕ) (x x' : Node V) : Instr V → Prop
  | .execute t => n = t ∧ x'.started = true ∧ x'.runs = x.runs ∧ x'.given = x.given ∧
      x'.closes = x.closes
  | .invoke t => n = t ∧ x'.runs = x.runs + 1 ∧ x'.started = x.started ∧ x'.closes = x.closes
  | .finish t _ _ _ => n = t ∧ x'.runs = x.runs ∧ x'.given = x.given ∧ x'.started = x.started ∧
      x'.closes = x.closes
  | .closeList t _ _ _ => n = t ∧ x'.closes = x.closes + 1 ∧ x'.runs = x.runs ∧
      x'.given = x.given ∧ x'.started = x.started
  | _ => False

/-- The argument that `setup` recorded. -/
def ArgChange (m : Mem V) (n : ℕ) (args args' : List VarArg) : Instr V → Prop
  | .setup f => n = f.task ∧ ∃ x mode rest v t, f.args = .var x mode :: rest ∧
      f.env[x]? = some v ∧ (m.var v).currentTask = some t ∧
      args' = args ++ [⟨mode, Exec.argPtr (m.var v), (t, (m.var v).currentPort)⟩]
  | _ => False

/-- What `ins` can do to node `n`. -/
structure NodeChange [Inhabited V] (ins : Instr V) (m : Mem V) (n : ℕ) (x x' : Node V) :
    Prop where
  head : x'.head = x.head ∨ HeadChange n x.head x'.head x'.phase ins
  phase : x'.phase = x.phase ∨ PhaseChange n x.startCount x'.phase x'.head x'.startCount ins
  startCount : x'.startCount = x.startCount ∨ CountChange n x.startCount x'.startCount ins
  nextWriter : ∀ p, (x'.out p).nextWriter = (x.out p).nextWriter ∨
    WriterChange n p (x.out p).nextWriter (x'.out p).nextWriter ins
  countdown : ∀ p, (x'.out p).countdown = (x.out p).countdown ∨
    CountdownChange n p (x.out p).countdown (x'.out p).countdown ins
  armed : ∀ p, (x.out p).armed = true → (x'.out p).armed = true
  handed : ∀ p, (x'.out p).handed = (x.out p).handed ∨ HandChange n p ins
  notified : ∀ p, (x'.out p).notified = (x.out p).notified ∨
    (x'.out p).notified = (x.out p).notified + 1 ∧ (x.out p).nextWriter ≠ .null ∧
      (x.out p).nextWriter ≠ .ready ∧ NotifyChange n p ins
  status : x'.status = x.status ∨ StatusChange n x'.status ins
  innerSet : x'.innerSet = x.innerSet ∨ InnerChange n x.resultKind x'.innerSet ins
  result : x'.result = x.result ∨ ResultChange n x.result x'.result ins
  run : SameRun x x' ∨ RunChange n x x' ins
  args : x'.args = x.args ∨ ArgChange m n x.args x'.args ins
  woken : x.woken = true → x'.woken = true

theorem NodeChange.refl [Inhabited V] (ins : Instr V) (m : Mem V) (n : ℕ) (x : Node V) :
    NodeChange ins m n x x where
  head := .inl rfl
  phase := .inl rfl
  startCount := .inl rfl
  nextWriter _ := .inl rfl
  countdown _ := .inl rfl
  armed _ := id
  handed _ := .inl rfl
  notified _ := .inl rfl
  status := .inl rfl
  innerSet := .inl rfl
  result := .inl rfl
  run := .inl ⟨rfl, rfl, rfl, rfl, rfl⟩
  args := .inl rfl
  woken := id

/-! ## Arcs and vars -/

/-- What `ins` can do to arc `a`. -/
def ArcChange (m : Mem V) (a : ℕ) (x x' : Arc) : Instr V → Prop
  | .addArc _ a' _ => a = a' ∧ x' = { x with role := .spent }
  | .addArcCas _ a' _ site => a = a' ∧ x' = { x with
      accepted := x.accepted + 1
      role := match site with
        | .forward _ => .waiting
        | _ => x.role }
  | .freeNode n => ((m.node n).head = .terminal a ∨ (m.node n).head = .redirect a) ∧
      x' = { x with role := .spent }
  | .deleteArc a' => a = a' ∧ x' = { x with alive := false, role := .spent }
  | .notifyArcs t _ _ r _ => r.head? = some a ∧
      (x' = { x with role := .spent, handled := x.handled + 1 } ∧
          (x.kind = .flowBack → ((m.node t).out x.port).nextWriter = .noOwner) ∨
        x.kind = .flowBack ∧ x' = { x with
          node := t, kind := .backOnly, role := .charged, site := x.node,
          handled := x.handled + 1 })
  | .assignHead f n _ a' => a = a' ∧ ∃ d, (m.node n).head = .redirect d ∧ x' = { x with
      port := (m.arc d).port, site := (m.arc d).node,
      reads := some (f.task, ((m.arc d).node, (m.arc d).port)) }
  | .assignIncrement f n _ a' => a = a' ∧ x' = { x with
      node := n, kind := .backOnly, role := .charged, site := f.task }
  | .moveArcs _ _ t p r => r.head? = some a ∧ x' = { x with
      port := p, site := t, reads := x.reads.map fun u => (u.1, (t, p)),
      handled := x.handled + 1 }
  | _ => False

/-- A var that only its thread uses. -/
structure Var.Own (u : Var) : Prop where
  borrowed : u.borrowed = false
  shared : u.shared = false

theorem Var.own_of_not {u : Var} (h : ¬(u.borrowed = true ∨ u.shared = true)) : u.Own := by
  obtain ⟨hborrowed, hshared⟩ := not_or.mp h
  exact ⟨by simpa using hborrowed, by simpa using hshared⟩

/-- What an operation of a thread writes to a var of the thread. -/
def VarWrite (m : Mem V) (env : List ℕ) (u u' : Var) : List (Op V) → Prop
  | .empty _ canThrow :: _ => u.Own ∧ u' = { canThrow := canThrow }
  | .value _ canThrow _ :: _ => u.Own ∧ u' = storageVar m.nodes.size false canThrow
  | .deferred _ canThrow :: _ => u.Own ∧ u' = storageVar m.nodes.size true canThrow
  | .move _ src :: _ => u.Own ∧ (u' = { u with currentTask := none } ∨
      ∃ s, env[src]? = some s ∧ (m.var s).Own ∧ u' = m.var s)
  | .toNode _ src :: _ => u.Own ∧ (u' = { u with currentTask := none } ∨
      ∃ s, env[src]? = some s ∧ (m.var s).Own ∧ u' = m.var s)
  | .moveNode _ src :: _ => u.Own ∧ ∃ s, env[src]? = some s ∧ u' = m.var s
  | .destroy _ :: _ => u.Own ∧ u' = { u with currentTask := none }
  | .fork _ _ _ :: _ => u' = { u with shared := !u.borrowed }
  | _ => False

/-- The next argument of a call of `run` is a writer. -/
def Frame.Writes (f : Frame V) : Prop :=
  ∃ x mode rest, f.args = .var x mode :: rest ∧ mode.isWriter = true

/-- What `ins` can do to var object `v`. -/
def VarChange (m : Mem V) (v : ℕ) (u u' : Var) : Instr V → Prop
  | .destroy n => v = (m.node n).inner ∧ (m.node n).innerSet = true ∧
      u' = { u with currentTask := none }
  | .invoke _ => u' = { u with wild := true }
  | .finish t env _ cells => (∃ w, .varObject w ∈ cells) ∨
      v = (m.node t).inner ∧ (∃ w ∈ env, (m.var w).Own ∧ u' = m.var w) ∨
      v ∈ env ∧ u.Own ∧ u' = { u with currentTask := none }
  | .setup f => v ∈ f.env ∧ u.Own ∧
      (u.currentTask = none ∧ u' = storageVar m.nodes.size false u.canThrow ∨
        f.Writes ∧
          u' = { u with currentTask := some f.task, currentPort := f.port, isDeferred := false })
  | .moveResult f r => f.dst = some v ∧ u.Own ∧ u' = r
  | .runOps env ops _ => v ∈ env ∧ VarWrite m env u u' ops
  | _ => False

/-! ## New objects -/

def NodeBirth [Inhabited V] (m : Mem V) (x : Node V) : Instr V → Prop
  | .setup _ => x = storageNode default
  | .runOps _ (.value _ _ v :: _) _ => x = storageNode v
  | .runOps _ (.deferred _ _ :: _) _ => x = deferredNode
  | .runOps _ (.run _ args canThrow kind code :: _) _ =>
    x = taskNode args canThrow kind code m.vars.size
  | _ => False

def ArcBirth (m : Mem V) (x : Arc) : Instr V → Prop
  | .retainTerminal t c _ => (m.control c).alive = true ∧ x = Exec.payloadArc t c
  | .retainSignal n c => (m.control c).alive = true ∧ x = Exec.payloadArc n c
  | .finish t _ _ _ => x = Exec.payloadArc t m.controls.size
  | .addLife t => ∃ n, (m.var (m.node t).inner).currentTask = some n ∧
      x = { kind := .flowOnly, node := t, alive := true, role := .offered, site := n }
  | .setup f => ∃ v n, v ∈ f.env ∧ (m.var v).currentTask = some n ∧
      (f.Writes ∧ x = { kind := .flowOnly, node := f.task, port := f.port, alive := true,
                        role := .descriptor, site := n } ∨
        x = { kind := .flowBack, node := f.task, port := (m.var v).currentPort, alive := true,
              role := .waiting, site := n, reads := some (f.task, (n, (m.var v).currentPort)) })
  | _ => False

def ControlBirth (x : Control) : Instr V → Prop
  | .finish t _ _ _ => x = ⟨1, t, true⟩
  | _ => False

/-- What `ins` can do to the memory; the cells past the end of a heap count as old ones. -/
structure Changes [Inhabited V] (ins : Instr V) (m m' : Mem V) : Prop where
  nodeAt : ∀ n, n < m.nodes.size ∨ m'.nodes.size ≤ n → NodeChange ins m n (m.node n) (m'.node n)
  arcAt : ∀ a, a < m.arcs.size ∨ m'.arcs.size ≤ a →
    m'.arc a = m.arc a ∨ ArcChange m a (m.arc a) (m'.arc a) ins
  var : ∀ v < m.vars.size, m'.var v = m.var v ∨ VarChange m v (m.var v) (m'.var v) ins
  controlAt : ∀ c, c < m.controls.size ∨ m'.controls.size ≤ c →
    (m'.control c).thrower = (m.control c).thrower ∧
      ((m'.control c).alive = true → (m.control c).alive = true)
  controls_le : m.controls.size ≤ m'.controls.size
  newNode : ∀ n, m.nodes.size ≤ n → n < m'.nodes.size →
    n = m.nodes.size ∧ NodeBirth m (m'.node n) ins
  newArc : ∀ a, m.arcs.size ≤ a → a < m'.arcs.size → a = m.arcs.size ∧ ArcBirth m (m'.arc a) ins
  newControl : ∀ c, m.controls.size ≤ c → c < m'.controls.size →
    c = m.controls.size ∧ ControlBirth (m'.control c) ins

namespace Changes

variable [Inhabited V] {ins : Instr V} {m m₁ : Mem V}

theorem node (h : Changes ins m m₁) (n : ℕ) (hn : n < m.nodes.size) :
    NodeChange ins m n (m.node n) (m₁.node n) :=
  h.nodeAt n (.inl hn)

theorem arc (h : Changes ins m m₁) (a : ℕ) (ha : a < m.arcs.size) :
    m₁.arc a = m.arc a ∨ ArcChange m a (m.arc a) (m₁.arc a) ins :=
  h.arcAt a (.inl ha)

theorem refl (ins : Instr V) (m : Mem V) : Changes ins m m where
  nodeAt _ _ := .refl _ _ _ _
  arcAt _ _ := .inl rfl
  var _ _ := .inl rfl
  controlAt _ _ := ⟨rfl, id⟩
  controls_le := le_rfl
  newNode _ hge hlt := absurd hlt (by omega)
  newArc _ hge hlt := absurd hlt (by omega)
  newControl _ hge hlt := absurd hlt (by omega)

theorem setNode (h : Changes ins m m₁) (hsize : m₁.nodes.size = m.nodes.size) {n : ℕ}
    {x : Node V} (hx : NodeChange ins m n (m.node n) x) : Changes ins m (m₁.setNode n x) :=
  { h with
    nodeAt := fun j hj => by
      rw [Mem.node_setNode]
      split
      · rename_i heq
        subst heq
        exact hx
      · exact h.nodeAt j hj
    newNode := fun j hge hlt => absurd hlt (by rw [Mem.nodes_setNode_size]; omega) }

theorem addNode (h : Changes ins m m₁) (hsize : m₁.nodes.size = m.nodes.size) {x : Node V}
    (hx : NodeBirth m x ins) : Changes ins m (m₁.newNode x) :=
  { h with
    nodeAt := fun j hj => by
      rw [Mem.nodes_newNode_size] at hj
      rw [Mem.node_newNode, if_neg (by omega)]
      exact h.nodeAt j (by omega)
    newNode := fun j hge hlt => by
      rw [Mem.nodes_newNode_size] at hlt
      obtain rfl : j = m.nodes.size := by omega
      rw [Mem.node_newNode, if_pos hsize.symm]
      exact ⟨rfl, hx⟩ }

theorem setArc (h : Changes ins m m₁) (hsize : m₁.arcs.size = m.arcs.size) {a : ℕ} {x : Arc}
    (hx : ArcChange m a (m.arc a) x ins) : Changes ins m (m₁.setArc a x) :=
  { h with
    arcAt := fun b hb => by
      rw [Mem.arc_setArc]
      split
      · rename_i heq
        subst heq
        exact .inr hx
      · exact h.arcAt b hb
    newArc := fun b hge hlt => absurd hlt (by rw [Mem.arcs_setArc_size]; omega) }

theorem addArc (h : Changes ins m m₁) (hsize : m₁.arcs.size = m.arcs.size) {x : Arc}
    (hx : ArcBirth m x ins) : Changes ins m (m₁.newArc x) :=
  { h with
    arcAt := fun b hb => by
      rw [Mem.arcs_newArc_size] at hb
      rw [Mem.arc_newArc, if_neg (by omega)]
      exact h.arcAt b (by omega)
    newArc := fun b hge hlt => by
      rw [Mem.arcs_newArc_size] at hlt
      obtain rfl : b = m.arcs.size := by omega
      rw [Mem.arc_newArc, if_pos hsize.symm]
      exact ⟨rfl, hx⟩ }

theorem setVar (h : Changes ins m m₁) {v : ℕ} {u : Var} (hu : VarChange m v (m.var v) u ins) :
    Changes ins m (m₁.setVar v u) :=
  { h with
    var := fun w hw => by
      rw [Mem.var_setVar]
      split
      · rename_i heq
        subst heq
        exact .inr hu
      · exact h.var w hw }

theorem newVar (h : Changes ins m m₁) (hsize : m.vars.size ≤ m₁.vars.size) (u : Var) :
    Changes ins m (m₁.newVar u) :=
  { h with
    var := fun w hw => by
      rw [Mem.var_newVar, if_neg (by omega)]
      exact h.var w hw }

theorem newVars (h : Changes ins m m₁) (hsize : m.vars.size ≤ m₁.vars.size) (k : ℕ) :
    Changes ins m (m₁.newVars k) := by
  induction k generalizing m₁ with
  | zero => exact h
  | succ k ih =>
    refine ih (h.newVar hsize _) ?_
    rw [Mem.vars_newVar_size]
    omega

theorem setControl (h : Changes ins m m₁) (hsize : m₁.controls.size = m.controls.size) {c : ℕ}
    {x : Control}
    (hx : x.thrower = (m.control c).thrower ∧ (x.alive = true → (m.control c).alive = true)) :
    Changes ins m (m₁.setControl c x) :=
  { h with
    controlAt := fun d hd => by
      rw [Mem.control_setControl]
      split
      · rename_i heq
        subst heq
        exact hx
      · exact h.controlAt d hd
    newControl := fun d hge hlt => absurd hlt (by rw [Mem.controls_setControl_size]; omega) }

theorem addControl (h : Changes ins m m₁) (hsize : m₁.controls.size = m.controls.size)
    {x : Control} (hx : ControlBirth x ins) : Changes ins m (m₁.newControl x) :=
  { h with
    controlAt := fun d hd => by
      rw [Mem.controls_newControl_size] at hd
      rw [Mem.control_newControl, if_neg (by omega)]
      exact h.controlAt d (by omega)
    controls_le := h.controls_le.trans (Nat.le_succ _)
    newControl := fun d hge hlt => by
      rw [Mem.controls_newControl_size] at hlt
      obtain rfl : d = m.controls.size := by omega
      rw [Mem.control_newControl, if_pos hsize.symm]
      exact ⟨rfl, hx⟩ }

/-- The change of one slot. -/
theorem setOut (h : Changes ins m m₁) {n p : ℕ} {o : OutputNode}
    (hsize : m₁.nodes.size = m.nodes.size) (hnode : m₁.node n = m.node n)
    (hwriter : o.nextWriter = ((m.node n).out p).nextWriter ∨
      WriterChange n p ((m.node n).out p).nextWriter o.nextWriter ins)
    (hcount : o.countdown = ((m.node n).out p).countdown ∨
      CountdownChange n p ((m.node n).out p).countdown o.countdown ins)
    (harmed : ((m.node n).out p).armed = true → o.armed = true)
    (hhanded : o.handed = ((m.node n).out p).handed ∨ HandChange n p ins)
    (hnotified : o.notified = ((m.node n).out p).notified ∨
      o.notified = ((m.node n).out p).notified + 1 ∧ ((m.node n).out p).nextWriter ≠ .null ∧
        ((m.node n).out p).nextWriter ≠ .ready ∧ NotifyChange n p ins) :
    Changes ins m (m₁.setOut n p o) := by
  refine h.setNode hsize ?_
  rw [hnode]
  refine { NodeChange.refl ins m n (m.node n) with
    nextWriter := fun q => ?_, countdown := fun q => ?_, armed := fun q => ?_
    handed := fun q => ?_, notified := fun q => ?_ }
  all_goals
    by_cases hq : q = p
    · subst hq
      simpa using ‹_›
    · simp [hq]

end Changes

/-! ## Releasing nodes and arcs -/

section Steps

variable [Inhabited V] {m : Mem V}

theorem release_changes (n k : ℕ) :
    (Exec.release m n k).Leaves (Changes (.release n k) m) := by
  unfold Exec.release
  split
  · exact (Changes.refl _ m).setNode rfl { NodeChange.refl _ m n (m.node n) with
      status := .inr ⟨rfl, rfl⟩ }
  · exact .refl _ m

theorem releaseSub_changes (n k : ℕ) :
    (Exec.releaseSub m n k).Leaves (Changes (.releaseSub n k) m) := by
  unfold Exec.releaseSub
  dsimp only
  split
  · trivial
  · split
    · exact (Changes.refl _ m).setNode rfl { NodeChange.refl _ m n (m.node n) with
        status := .inr ⟨rfl, rfl⟩ }
    · exact (Changes.refl _ m).setNode rfl { NodeChange.refl _ m n (m.node n) with }

theorem destroy_changes (n : ℕ) : (Exec.destroy m n).Leaves (Changes (.destroy n) m) := by
  unfold Exec.destroy
  dsimp only
  split
  · rename_i hset
    refine Changes.setVar (Changes.setNode (.refl _ m) rfl ?_) ⟨rfl, hset, rfl⟩
    exact { NodeChange.refl _ m n (m.node n) with
      result := .inr ⟨rfl, rfl⟩, innerSet := .inr ⟨rfl, rfl⟩ }
  · exact (Changes.refl _ m).setNode rfl { NodeChange.refl _ m n (m.node n) with
      result := .inr ⟨rfl, rfl⟩ }

theorem freeNode_changes (n : ℕ) : (Exec.freeNode m n).Leaves (Changes (.freeNode n) m) := by
  have hdead : Changes (.freeNode n) m (m.setNode n { m.node n with status := .dead }) :=
    (Changes.refl _ m).setNode rfl { NodeChange.refl _ m n (m.node n) with status := .inr ⟨rfl, rfl⟩ }
  unfold Exec.freeNode
  dsimp only
  split
  · exact hdead
  · trivial
  · exact hdead
  · rename_i a hhead
    exact hdead.setArc rfl ⟨.inl hhead, rfl⟩
  · rename_i a hhead
    exact hdead.setArc rfl ⟨.inr hhead, rfl⟩

theorem deleteArc_changes (a : ℕ) : (Exec.deleteArc m a).Leaves (Changes (.deleteArc a) m) :=
  (Changes.refl _ m).setArc rfl ⟨rfl, rfl⟩

theorem releaseControl_changes (c : ℕ) :
    (Exec.releaseControl m c).Leaves (Changes (.releaseControl c) m) := by
  unfold Exec.releaseControl
  dsimp only
  split
  · exact (Changes.refl _ m).setControl rfl ⟨rfl, fun _ => ‹_›⟩
  · trivial

/-! ## Arcs and slots -/

theorem rejected_changes (n a : ℕ) (site : AddSite V) :
    (Exec.rejected m n a site).Leaves (Changes (.addArc n a site) m) := by
  have hspend : Changes (.addArc n a site) m (m.spend a) :=
    (Changes.refl _ m).setArc rfl ⟨rfl, rfl⟩
  cases site with
  | assign f p => exact .refl _ m
  | assignTo f p => exact .refl _ m
  | ownBack f => trivial
  | back => trivial
  | moved => trivial
  | thrown => exact hspend
  | signal => exact hspend
  | forward t =>
    have hback : Changes (.addArc n a (.forward t)) m
        (m.setNode t { m.node t with phase := .running }) :=
      (Changes.refl _ m).setNode rfl { NodeChange.refl _ m t (m.node t) with
        head := .inl rfl, phase := .inr ⟨rfl, rfl⟩ }
    exact hback.setArc rfl ⟨rfl, rfl⟩

theorem addArc_changes (n a : ℕ) (site : AddSite V) :
    (Exec.addArc m n a site).Leaves (Changes (.addArc n a site) m) := by
  unfold Exec.addArc
  split
  · exact .refl _ m
  · exact rejected_changes n a site

theorem addArcCas_changes (spurious : Bool) (n a : ℕ) (seen : List ℕ) (site : AddSite V) :
    (Exec.addArcCas m spurious n a seen site).Leaves (Changes (.addArcCas n a seen site) m) := by
  unfold Exec.addArcCas
  split
  · rename_i hcas
    have hpush : Changes (.addArcCas n a seen site) m
        (m.setNode n { m.node n with head := .list (a :: seen) }) :=
      (Changes.refl _ m).setNode rfl { NodeChange.refl _ m n (m.node n) with
        head := .inr ⟨rfl, hcas.1, rfl⟩, phase := .inl rfl }
    cases site with
    | forward t =>
      refine (hpush.setArc rfl ⟨rfl, rfl⟩).setNode rfl ?_
      rw [Mem.node_setArc, Mem.node_setNode]
      split
      · rename_i heq
        subst heq
        exact { NodeChange.refl _ m t (m.node t) with
          head := .inr ⟨rfl, hcas.1, rfl⟩, phase := .inr ⟨rfl, rfl⟩ }
      · exact { NodeChange.refl _ m t (m.node t) with
          head := .inl rfl, phase := .inr ⟨rfl, rfl⟩ }
    | _ => exact hpush.setArc rfl ⟨rfl, rfl⟩
  · exact .refl _ m

theorem removeBackArc_changes (n p : ℕ) :
    (Exec.removeBackArc m n p).Leaves (Changes (.removeBackArc n p) m) := by
  rw [Exec.removeBackArc_eq]
  dsimp only
  split
  · trivial
  · rename_i hk
    exact (Changes.refl _ m).setOut rfl rfl (.inl rfl) (.inr ⟨rfl, rfl, rfl, Int.not_lt.mp hk⟩) id (.inl rfl)
      (.inl rfl)

theorem notifyNextWriter_changes (n p : ℕ) :
    (Exec.notifyNextWriter m n p).Leaves (Changes (.notifyNextWriter n p) m) := by
  unfold Exec.notifyNextWriter
  dsimp only
  split
  · trivial
  · rename_i hcalls
    obtain ⟨hnull, hready⟩ := set_of_notifyCalls hcalls
    exact (Changes.refl _ m).setOut rfl rfl (.inl rfl) (.inl rfl) id (.inl rfl)
      (.inr ⟨rfl, hnull, hready, rfl, rfl⟩)

theorem setNextWriter_changes (n p : ℕ) (d : NextWriter) :
    (Exec.setNextWriter m n p d).Leaves (Changes (.setNextWriter n p d) m) := by
  rw [Exec.setNextWriter_eq]
  dsimp only
  split
  · trivial
  · split
    · rename_i hnull
      exact (Changes.refl _ m).setOut rfl rfl (.inr ⟨rfl, rfl, rfl, .inl hnull⟩) (.inl rfl) id (.inl rfl) (.inl rfl)
    · rename_i hready
      exact (Changes.refl _ m).setOut rfl rfl (.inr ⟨rfl, rfl, rfl, .inr hready⟩) (.inl rfl) id (.inl rfl) (.inl rfl)
    · rename_i howner
      split
      · rename_i hd
        exact (Changes.refl _ m).setOut rfl rfl (.inl (hd.trans howner.symm)) (.inl rfl) id (.inl rfl) (.inl rfl)
      · trivial
    · trivial

/-! ## Completion -/

theorem storeCountdown_changes (t : ℕ) (canThrow : Bool) (count : List ℤ) :
    (Exec.storeCountdown m t canThrow count).Leaves
      (Changes (.storeCountdown t canThrow count) m) := by
  unfold Exec.storeCountdown OutputNode.arm
  dsimp only
  split
  · exact (Changes.refl _ m).setOut rfl rfl (.inl rfl) (.inr ⟨rfl, rfl, rfl⟩) (fun _ => rfl) (.inl rfl) (.inl rfl)
  · exact .refl _ m

theorem findTerminal_changes (t : ℕ) (count : List ℤ) :
    (Exec.findTerminal m t count).Leaves (Changes (.findTerminal t count) m) := by
  unfold Exec.findTerminal
  split <;> exact .refl _ m

theorem retainTerminal_changes (t c : ℕ) (count : List ℤ) :
    (Exec.retainTerminal m t c count).Leaves (Changes (.retainTerminal t c count) m) := by
  unfold Exec.retainTerminal
  dsimp only
  split
  · rename_i halive
    refine ((Changes.refl _ m).setControl rfl ?_).addArc rfl ⟨halive, rfl⟩
    exact ⟨rfl, fun _ => halive⟩
  · trivial

theorem closeList_changes (t : ℕ) (canThrow : Bool) (terminal : Option ℕ) (count : List ℤ) :
    (Exec.closeList m t canThrow terminal count).Leaves
      (Changes (.closeList t canThrow terminal count) m) := by
  have hclose : ∀ l, (m.node t).head = .list l → Changes (.closeList t canThrow terminal count) m
      (m.setNode t { m.node t with
        head := Exec.closedHead terminal, phase := .finished, closes := (m.node t).closes + 1 }) :=
    fun l hhead => (Changes.refl _ m).setNode rfl { NodeChange.refl _ m t (m.node t) with
      head := .inr ⟨rfl, ⟨l, hhead⟩, rfl, rfl⟩, phase := .inr ⟨rfl, rfl, rfl⟩
      run := .inr ⟨rfl, rfl, rfl, rfl, rfl⟩ }
  unfold Exec.closeList
  dsimp only
  split
  · rename_i hhead
    exact hclose _ hhead
  · rename_i hhead
    exact hclose _ hhead
  · trivial

theorem notifyArcs_changes (t : ℕ) (canThrow failed : Bool) (r : List ℕ) (count : List ℤ) :
    (Exec.notifyArcs m t canThrow failed r count).Leaves
      (Changes (.notifyArcs t canThrow failed r count) m) := by
  cases r with
  | nil => exact .refl _ m
  | cons a r =>
    have hspent : ((m.arc a).kind = .flowBack →
        ((m.node t).out (m.arc a).port).nextWriter = .noOwner) →
        Changes (.notifyArcs t canThrow failed (a :: r) count) m
          (m.setArc a { m.arc a with role := .spent, handled := (m.arc a).handled + 1 }) :=
      fun hback => (Changes.refl _ m).setArc rfl ⟨rfl, .inl ⟨rfl, hback⟩⟩
    unfold Exec.notifyArcs
    dsimp only
    split
    · rename_i hkind
      split
      · exact hspent (by simp [hkind])
      · trivial
    · rename_i hkind
      exact hspent (by simp [hkind])
    · rename_i hkind
      split
      · rename_i hwriter
        exact hspent fun _ => hwriter
      · exact (Changes.refl _ m).setArc rfl ⟨rfl, .inr ⟨hkind, rfl⟩⟩
    · rename_i hkind
      exact hspent (by simp [hkind])
    · trivial
    · trivial

theorem outLoad_changes (t i : ℕ) (count : List ℤ) (refs : ℕ) :
    (Exec.outLoad m t i count refs).Leaves (Changes (.outLoad t i count refs) m) := by
  unfold Exec.outLoad
  split
  · split <;> exact .refl _ m
  · exact .refl _ m

theorem outCas_changes (t i : ℕ) (count : List ℤ) (refs : ℕ) :
    (Exec.outCas m t i count refs).Leaves (Changes (.outCas t i count refs) m) := by
  rw [Exec.outCas_eq]
  dsimp only
  split
  · rename_i hnull
    exact (Changes.refl _ m).setOut rfl rfl (.inr ⟨rfl, rfl, hnull, rfl⟩) (.inl rfl) id (.inl rfl) (.inl rfl)
  · exact .refl _ m

theorem outSub_changes (t i : ℕ) (count : List ℤ) (refs : ℕ) :
    (Exec.outSub m t i count refs).Leaves (Changes (.outSub t i count refs) m) := by
  rw [Exec.outSub_eq]
  dsimp only
  split
  · trivial
  · rename_i hk
    exact (Changes.refl _ m).setOut rfl rfl (.inl rfl) (.inr ⟨rfl, rfl, rfl, Int.not_lt.mp hk⟩) id
      (.inr ⟨rfl, rfl⟩) (.inl rfl)

theorem outNotify_changes (t i : ℕ) (count : List ℤ) (refs : ℕ) :
    (Exec.outNotify m t i count refs).Leaves (Changes (.outNotify t i count refs) m) := by
  unfold Exec.outNotify
  dsimp only
  split
  · trivial
  · rename_i hcalls
    obtain ⟨hnull, hready⟩ := set_of_notifyCalls hcalls
    exact (Changes.refl _ m).setOut rfl rfl (.inl rfl) (.inl rfl) id (.inl rfl)
      (.inr ⟨rfl, hnull, hready, rfl, rfl⟩)

theorem wakeup_changes (t refs : ℕ) :
    (Exec.wakeup m t refs).Leaves (Changes (.wakeup t refs) m) :=
  (Changes.refl _ m).setNode rfl { NodeChange.refl _ m t (m.node t) with woken := fun _ => rfl }

theorem removePrerequisite_changes (n k : ℕ) :
    (Exec.removePrerequisite m n k).Leaves (Changes (.removePrerequisite n k) m) := by
  rw [Exec.removePrerequisite_eq]
  dsimp only
  split
  · trivial
  · rename_i hle
    split
    · rename_i heq
      exact (Changes.refl _ m).setNode rfl { NodeChange.refl _ m n (m.node n) with
        head := .inl rfl, phase := .inr ⟨rfl, rfl, heq⟩
        startCount := .inr ⟨rfl, heq.ge, rfl⟩ }
    · exact (Changes.refl _ m).setNode rfl { NodeChange.refl _ m n (m.node n) with
        phase := .inl rfl, startCount := .inr ⟨rfl, Nat.le_of_not_lt hle, rfl⟩ }

/-! ## Failures -/

theorem publish_changes (n source p : ℕ) :
    (Exec.publish m n source p).Leaves (Changes (.publish n source p) m) := by
  rw [Exec.publish_eq]
  dsimp only
  split_ifs <;> exact .refl _ m

theorem publishControl_changes (n source : ℕ) :
    (Exec.publishControl m n source).Leaves (Changes (.publishControl n source) m) := by
  unfold Exec.publishControl
  split <;> exact .refl _ m

theorem retainSignal_changes (n c : ℕ) :
    (Exec.retainSignal m n c).Leaves (Changes (.retainSignal n c) m) := by
  unfold Exec.retainSignal
  dsimp only
  split
  · rename_i halive
    refine ((Changes.refl _ m).setControl rfl ?_).addArc rfl ⟨halive, rfl⟩
    exact ⟨rfl, fun _ => halive⟩
  · trivial

theorem markCas_changes (spurious : Bool) (n : ℕ) (b : FailureBit) (word : StartCount) :
    (Exec.markCas m spurious n b word).Leaves (Changes (.markCas n b word) m) := by
  unfold Exec.markCas
  dsimp only
  split
  · rename_i hcas
    exact (Changes.refl _ m).setNode rfl { NodeChange.refl _ m n (m.node n) with
      phase := .inl rfl, startCount := .inr ⟨rfl, hcas.1, by rw [hcas.1]⟩ }
  · exact .refl _ m

/-! ## Execution -/

theorem execute_changes (t : ℕ) : (Exec.execute m t).Leaves (Changes (.execute t) m) := by
  unfold Exec.execute
  dsimp only
  split
  · exact .refl _ m
  · split
    · exact .refl _ m
    · exact (Changes.refl _ m).setNode rfl { NodeChange.refl _ m t (m.node t) with
        run := .inr ⟨rfl, rfl, rfl, rfl, rfl⟩ }

theorem storeStart_changes (t : ℕ) :
    (Exec.storeStart m t).Leaves (Changes (.storeStart t) m) :=
  (Changes.refl _ m).setNode rfl { NodeChange.refl _ m t (m.node t) with
    head := .inl rfl, startCount := .inr ⟨rfl, rfl⟩, phase := .inr ⟨rfl, rfl, rfl⟩ }

theorem addLife_changes (t : ℕ) : (Exec.addLife m t).Leaves (Changes (.addLife t) m) := by
  have hlife : Changes (.addLife t) m
      (m.setNode t { m.node t with lifeCount := (m.node t).lifeCount + 1 }) :=
    (Changes.refl _ m).setNode rfl { NodeChange.refl _ m t (m.node t) with }
  unfold Exec.addLife
  dsimp only
  split
  · trivial
  · rename_i n htask
    exact hlife.addArc rfl ⟨n, htask, rfl⟩

theorem forwardFailure_changes (t : ℕ) :
    (Exec.forwardFailure m t).Leaves (Changes (.forwardFailure t) m) := by
  unfold Exec.forwardFailure
  split
  · trivial
  · exact .refl _ m

/-- What `consume` leaves: default values were made, and the bytes of var objects that were
taken for a `result_state`. -/
structure Consumed (m m₁ : Mem V) : Prop where
  nodes_size : m₁.nodes.size = m.nodes.size
  arcs : m₁.arcs = m.arcs
  controls : m₁.controls = m.controls
  vars_size : m₁.vars.size = m.vars.size
  node : ∀ n, ∃ result made, m₁.node n = { m.node n with result := result, made := made } ∧
    (result = (m.node n).result ∨ (m.node n).result = none ∧ result = some default)
  var : ∀ v, m₁.var v = m.var v ∨ m₁.var v = { m.var v with wild := true }

theorem Consumed.refl (m : Mem V) : Consumed m m :=
  ⟨rfl, rfl, rfl, rfl, fun _ => ⟨_, _, rfl, .inl rfl⟩, fun _ => .inl rfl⟩

theorem Consumed.trans {m₁ m₂ : Mem V} (h : Consumed m m₁) (h' : Consumed m₁ m₂) :
    Consumed m m₂ where
  nodes_size := h'.nodes_size.trans h.nodes_size
  arcs := h'.arcs.trans h.arcs
  controls := h'.controls.trans h.controls
  vars_size := h'.vars_size.trans h.vars_size
  node n := by
    obtain ⟨result, made, heq, hresult⟩ := h.node n
    obtain ⟨result', made', heq', hresult'⟩ := h'.node n
    rw [heq] at heq' hresult'
    refine ⟨result', made', heq', ?_⟩
    rcases hresult' with hsame | ⟨hnone, hdefault⟩
    · exact hresult.imp hsame.trans fun ⟨h₁, h₂⟩ => ⟨h₁, hsame.trans h₂⟩
    · rcases hresult with hsame | ⟨-, hsome⟩
      · exact .inr ⟨hsame ▸ hnone, hdefault⟩
      · rw [show result = none from hnone] at hsome
        cases hsome
  var v := by
    rcases h.var v with h₁ | h₁ <;> rcases h'.var v with h₂ | h₂ <;> rw [h₁] at h₂
    · exact .inl h₂
    · exact .inr h₂
    · exact .inr h₂
    · exact .inr h₂

theorem consume_consumed {m₁ : Mem V} {mode : AccessMode} {p : ArgPtr} {v : V}
    (hc : Exec.consume m mode p = .ok (m₁, v)) : Consumed m m₁ := by
  unfold Exec.consume at hc
  split at hc
  · cases hc
  · cases hc
  · rename_i n _
    dsimp only at hc
    split at hc
    · cases hc
    · split at hc
      · cases hc
        exact .refl m
      · rename_i hnone
        cases hc
        refine ⟨rfl, rfl, rfl, rfl, fun j => ?_, fun _ => .inl rfl⟩
        rw [Mem.node_setNode]
        split
        · rename_i heq
          subst heq
          exact ⟨_, _, rfl, .inr ⟨hnone, rfl⟩⟩
        · exact ⟨_, _, rfl, .inl rfl⟩
      · cases hc
  · split at hc
    · cases hc
      refine ⟨rfl, rfl, rfl, rfl, fun _ => ⟨_, _, rfl, .inl rfl⟩, fun v => ?_⟩
      rw [Mem.clobber, Mem.var_setVar]
      split
      · rename_i heq
        subst heq
        exact .inr rfl
      · exact .inl rfl
    · cases hc

theorem consumeAll_consumed {m₁ : Mem V} {args : List VarArg} {vs : List V}
    (hc : Exec.consumeAll m args = .ok (m₁, vs)) : Consumed m m₁ := by
  induction args generalizing m m₁ vs with
  | nil =>
    cases hc
    exact .refl m
  | cons arg rest ih =>
    simp only [Exec.consumeAll] at hc
    split at hc
    · cases hc
    · rename_i m₂ v hfirst
      split at hc
      · cases hc
      · rename_i m₃ vs' hrest
        cases hc
        exact (consume_consumed hfirst).trans (ih hrest)

theorem Consumed.changes {m₁ : Mem V} {t : ℕ} (h : Consumed m m₁) : Changes (.invoke t) m m₁ where
  nodeAt n _ := by
    obtain ⟨result, made, heq, hresult⟩ := h.node n
    rw [heq]
    exact { NodeChange.refl _ m n (m.node n) with result := hresult }
  arcAt a _ := by
    unfold Mem.arc
    rw [h.arcs]
    exact .inl rfl
  var v _ := h.var v
  controlAt c _ := by
    unfold Mem.control
    rw [h.controls]
    exact ⟨rfl, id⟩
  controls_le := by rw [h.controls]
  newNode n hge hlt := absurd hlt (by rw [h.nodes_size]; omega)
  newArc a hge hlt := absurd hlt (by rw [h.arcs]; omega)
  newControl c hge hlt := absurd hlt (by rw [h.controls]; omega)

theorem invoke_changes (t : ℕ) : (Exec.invoke m t).Leaves (Changes (.invoke t) m) := by
  unfold Exec.invoke
  dsimp only
  split
  · trivial
  · rename_i m₁ vals hconsume
    have h := consumeAll_consumed hconsume
    refine Changes.newVars (Changes.setNode h.changes h.nodes_size ?_) h.vars_size.ge _
    obtain ⟨result, made, heq, hresult⟩ := h.node t
    rw [heq]
    exact { NodeChange.refl _ m t (m.node t) with
      result := hresult, run := .inr ⟨rfl, rfl, rfl, rfl⟩ }

/-- What the writes of a body leave. -/
structure Written (cells : List StoragePtr) (m m₁ : Mem V) : Prop where
  nodes_size : m₁.nodes.size = m.nodes.size
  arcs : m₁.arcs = m.arcs
  controls : m₁.controls = m.controls
  vars_size : m₁.vars.size = m.vars.size
  node : ∀ n, ∃ result, m₁.node n = { m.node n with result := result } ∧
    (result = (m.node n).result ∨ result.isSome = true)
  var : ∀ v, m₁.var v = m.var v ∨ .varObject v ∈ cells

omit [Inhabited V] in
theorem writeCells_written (cells : List (StoragePtr × V)) :
    Written (cells.map Prod.fst) m (Exec.writeCells m cells) := by
  induction cells generalizing m with
  | nil => exact ⟨rfl, rfl, rfl, rfl, fun _ => ⟨_, rfl, .inl rfl⟩, fun _ => .inl rfl⟩
  | cons cell rest ih =>
    obtain ⟨p, v⟩ := cell
    have hmore : ∀ w, StoragePtr.varObject w ∈ rest.map Prod.fst →
        StoragePtr.varObject w ∈ ((p, v) :: rest).map Prod.fst :=
      fun w hw => List.mem_cons_of_mem _ hw
    have hskip : Written ((((p, v) :: rest).map Prod.fst)) m (Exec.writeCells m rest) :=
      ⟨(ih (m := m)).nodes_size, ih.arcs, ih.controls, ih.vars_size, ih.node,
        fun w => (ih.var w).imp id (hmore w)⟩
    cases p with
    | null => exact hskip
    | task n => exact hskip
    | result n =>
      have h := ih (m := m.setNode n { m.node n with result := some v })
      refine ⟨h.nodes_size, h.arcs, h.controls, h.vars_size, fun j => ?_,
        fun w => (h.var w).imp id (hmore w)⟩
      obtain ⟨result, heq, hresult⟩ := h.node j
      rw [Mem.node_setNode] at heq hresult
      split at heq
      · rename_i hj
        subst hj
        rw [if_pos rfl] at hresult
        refine ⟨result, heq, .inr ?_⟩
        rcases hresult with hsame | hsome
        · rw [hsame]
          rfl
        · exact hsome
      · rename_i hj
        rw [if_neg hj] at hresult
        exact ⟨result, heq, hresult⟩
    | varObject u =>
      have h := ih (m := m.clobber u)
      refine ⟨h.nodes_size, h.arcs, h.controls, h.vars_size, h.node, fun w => ?_⟩
      rcases h.var w with heq | hmem
      · rw [Mem.clobber, Mem.var_setVar] at heq
        split at heq
        · rename_i hw
          subst hw
          exact .inr List.mem_cons_self
        · exact .inl heq
      · exact .inr (hmore w hmem)

end Steps

end Oox
