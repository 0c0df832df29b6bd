import Oox.Analysis.Owed

/-!
# Well-formed memories and instructions

What every object of the memory satisfies between two steps, and what an instruction on a
control stack may rely on. Together with the law of the ledger these facts are preserved by
every step.
-/

set_option autoImplicit false

namespace Oox

open Library

variable {V : Type}

/-! ## Objects -/

/-- A slot is handed over after the list of its node is closed, and notified after that. -/
structure SlotOk (phase : Phase) (o : OutputNode) : Prop where
  handed : o.handed = true → o.armed = true ∧ o.nextWriter ≠ .null ∧ phase = .finished
  notified : o.notified ≠ 0 → o.notified = 1 ∧ o.handed = true ∧ o.countdown = 0 ∧
    o.nextWriter ≠ .null ∧ o.nextWriter ≠ .ready

/-- A task has an open list until it is finished; a storage node is done from the start. -/
structure NodeOk (x : Node V) : Prop where
  slot : ∀ p, SlotOk x.phase (x.out p)
  task : x.phase ≠ .finished → x.kind = .task
  opened : x.phase ≠ .finished → ∃ l, x.head = .list l
  closed : x.kind = .task → x.phase = .finished → x.head.isDone = true
  storage : x.kind = .storage → x.head = .done
  deferred : x.kind = .deferred → x.head.isDone = false
  noRedirect : x.kind = .task → ∀ d, x.head ≠ .redirect d
  armed : x.phase = .finished → ∀ p < x.slots, (x.out p).armed = true
  forwarding : x.phase = .forwarding → x.startCount.count = 1
  slots : 0 < x.slots ∧ (x.kind ≠ .task → x.slots = 1)
  inner : x.innerSet = true → x.kind = .task
  returned : x.innerSet = true → x.resultKind = .var

/-- The roles an arc of each kind can have. -/
def ArcKind.Allows : ArcKind → ArcRole → Prop
  | .flowBack, role => role = .waiting ∨ role = .spent
  | .backOnly, role => role = .charged ∨ role = .spent
  | .flowOnly, role => role = .waiting ∨ role = .offered ∨ role = .descriptor ∨ role = .spent
  | .exceptionSignal, role => role = .payload ∨ role = .spent
  | _, _ => False

/-- The versions an arc mentions. -/
structure ArcOk (m : Mem V) (x : Arc) : Prop where
  kind : x.kind.Allows x.role
  accepted : x.accepted = x.handled ∨
    (x.accepted = x.handled + 1 ∧ (x.role = .waiting ∨ x.role = .charged ∨ x.role = .payload))
  flowBack : x.kind = .flowBack → x.role = .waiting → x.reads = some (x.node, (x.site, x.port))
  charged : x.role = .charged → x.reads = some (x.site, (x.node, x.port))
  reads : ∀ r q p, x.reads = some (r, (q, p)) →
    (r < m.nodes.size ∧ (m.node r).kind = .task) ∧ q < m.nodes.size ∧ p < (m.node q).slots
  port : x.role = .waiting ∨ x.role = .offered →
    x.site < m.nodes.size ∧ x.port < (m.node x.site).slots
  descriptor : x.role = .descriptor →
    x.node < m.nodes.size ∧ x.port < (m.node x.node).slots
  payload : x.role = .payload → x.site < m.nodes.size ∧ (m.node x.site).kind = .task

/-- Charged arcs and payloads are in the lists of tasks. -/
theorem ArcOk.site {m : Mem V} {x : Arc} (h : ArcOk m x)
    (hrole : x.role = .charged ∨ x.role = .payload) :
    x.site < m.nodes.size ∧ (m.node x.site).kind = .task := by
  rcases hrole with hcharged | hpayload
  · exact (h.reads _ _ _ (h.charged hcharged)).1
  · exact h.payload hpayload

/-- A var names a slot of an allocated node that has no other writer; a copy of another
thread's var agrees with the original. -/
structure VarOk (m : Mem V) (u : Var) : Prop where
  slot : ∀ n, u.currentTask = some n → n < m.nodes.size ∧ u.currentPort < (m.node n).slots
  deferred : ∀ n, u.currentTask = some n →
    ((m.node n).kind = .deferred ↔ u.isDeferred = true)
  fresh : ∀ n, u.currentTask = some n → ∀ d, (m.node n).head ≠ .redirect d
  borrowed : u.borrowed = true → ∃ w < m.vars.size, (m.var w).shared = true ∧
    (m.var w).borrowed = false ∧ u = { m.var w with borrowed := true, shared := false }

/-- The var a task keeps for its result is nobody else's. -/
structure InnerOk (m : Mem V) (x : Node V) : Prop where
  lt : x.inner < m.vars.size
  own : (m.var x.inner).borrowed = false ∧ (m.var x.inner).shared = false
  unset : x.innerSet = false → (m.var x.inner).currentTask = none

/-- A memory in which every object is well formed. -/
structure MemOk (m : Mem V) : Prop where
  node : ∀ n < m.nodes.size, NodeOk (m.node n)
  node_lt : ∀ n, (m.node n).status ≠ .dead → n < m.nodes.size
  arc : ∀ a < m.arcs.size, ArcOk m (m.arc a)
  arc_lt : ∀ a, (m.arc a).alive = true → a < m.arcs.size
  var : ∀ v < m.vars.size, VarOk m (m.var v)
  inner : ∀ n < m.nodes.size, (m.node n).kind = .task → InnerOk m (m.node n)
  control_lt : ∀ c, (m.control c).alive = true → c < m.controls.size

/-! ## Instructions -/

/-- How many readers a version ever had. -/
def readers (m : Mem V) (q p : ℕ) : ℤ :=
  m.arcs.sum fun _ x => if x.reads.map Prod.snd = some (q, p) then 1 else 0

/-- How many readers of a version were counted in its countdown, or need not be. -/
def counted (m : Mem V) (q p : ℕ) : ℤ :=
  m.arcs.sum fun _ x =>
    if x.reads.map Prod.snd = some (q, p) ∧ (x.role = .charged ∨ x.role = .spent) then 1 else 0

/-- The counters from slot `i` on only lost the units of counted readers. -/
def CountersOk (m : Mem V) (t i : ℕ) (count : List ℤ) : Prop :=
  ∀ p, i ≤ p → p < count.length → countdownBias ≤ count.getD p 0 + counted m t p

/-- The body that follows has not returned a var yet. -/
def After.Ok (m : Mem V) : After V → Prop
  | .exit => True
  | .body t _ cells => (m.node t).innerSet = false ∧ ∀ v, StoragePtr.varObject v ∉ cells

/-- A call of `run` that counted `c` prerequisites never counts more than `start_count` can
hold, and its result goes to a var of the caller. -/
def Frame.Ok (m : Mem V) (f : Frame V) (c : ℕ) : Prop :=
  c + f.args.length < startCountMask ∧ (∀ v, f.dst = some v → v ∈ f.env) ∧ f.after.Ok m

/-- An arc that `assign_prerequisite` of frame `f` is adding, for a var of the caller that names
port `p` of node `n`. -/
structure AssignOk (m : Mem V) (f : Frame V) (n p a : ℕ) : Prop where
  kind : (m.arc a).kind = .flowBack
  node : (m.arc a).node = f.task
  port : (m.arc a).port = p
  frame : f.Ok m (f.count + 1)
  source : ∃ v ∈ f.env, (m.var v).currentTask = some n ∧ (m.var v).currentPort = p

def AddSite.Ok (m : Mem V) (n a : ℕ) : AddSite V → Prop
  | .assign f p => AssignOk m f n p a
  | .assignTo _ _ => False
  | .ownBack f => n = f.task ∧ f.Ok m f.count
  | .forward t => (m.arc a).node = t
  | _ => True

/-- A node whose list is closed, or was never open. -/
structure Mem.Finished (m : Mem V) (n : ℕ) : Prop where
  lt : n < m.nodes.size
  phase : (m.node n).phase = .finished

/-- What an instruction relies on besides its tokens. -/
def Instr.Ok (m : Mem V) : Instr V → Prop
  | .release n k => k = 0 → m.Finished n
  | .releaseSub n k => k = 0 → m.Finished n
  | .addArc n a site => site.Ok m n a
  | .addArcCas n a _ site => site.Ok m n a
  | .setNextWriter _ _ d => d ≠ .null ∧ d ≠ .ready
  | .storeCountdown t _ count =>
    count.length ≤ (m.node t).slots ∧ CountersOk m t 0 count
  | .loadException t count => count.length = (m.node t).slots ∧ CountersOk m t 0 count
  | .findTerminal t count => count.length = (m.node t).slots ∧ CountersOk m t 0 count
  | .retainTerminal t _ count => count.length = (m.node t).slots ∧ CountersOk m t 0 count
  | .closeList t _ _ count => count.length = (m.node t).slots ∧ CountersOk m t 0 count
  | .loadFailureFlag t _ count =>
    count.length = (m.node t).slots ∧ CountersOk m t 0 count ∧ m.Finished t
  | .notifyArcs t _ _ _ count =>
    count.length = (m.node t).slots ∧ CountersOk m t 0 count ∧ m.Finished t
  | .outLoad t i count _ =>
    count.length = (m.node t).slots ∧ CountersOk m t i count ∧ m.Finished t
  | .outCas t i count _ =>
    count.length = (m.node t).slots ∧ CountersOk m t i count ∧ m.Finished t ∧
      i < count.length
  | .outSub t i count _ =>
    count.length = (m.node t).slots ∧ CountersOk m t (i + 1) count ∧
      m.Finished t ∧ i < count.length ∧
      countdownBias ≤ count.getD i 0 + counted m t i + 1 ∧ ((m.node t).out i).nextWriter ≠ .null
  | .outNotify t i count _ =>
    count.length = (m.node t).slots ∧ CountersOk m t (i + 1) count ∧
      m.Finished t ∧ i < count.length
  | .wakeup t _ => m.Finished t
  | .removePrerequisite _ k => 0 < k
  | .invoke t => (m.node t).innerSet = false
  | .finish t _ _ cells => (m.node t).innerSet = false ∧ ∀ v, StoragePtr.varObject v ∉ cells
  | .publish n _ _ => n < m.nodes.size ∧ (m.node n).kind = .task
  | .publishControl n _ => n < m.nodes.size ∧ (m.node n).kind = .task
  | .retainSignal n _ => n < m.nodes.size ∧ (m.node n).kind = .task
  | .storeStart t => (m.node t).resultKind = .var
  | .setup f => f.Ok m f.count
  | .bind f => f.args = [] ∧ f.Ok m f.count
  | .assignHead f n p a => AssignOk m f n p a ∧ ∀ l, (m.node n).head ≠ .list l
  | .assignFailure f n p a => AssignOk m f n p a ∧ ∀ l, (m.node n).head ≠ .list l
  | .assignIncrement f n p a => AssignOk m f n p a ∧ ∀ l, (m.node n).head ≠ .list l
  | .redirect n q t p _ =>
    (m.node n).kind = .deferred ∧ q = 0 ∧ (∀ d, (m.node n).head ≠ .redirect d) ∧
      t < m.nodes.size ∧ p < (m.node t).slots
  | .moveArcs n _ t p _ =>
    (m.node n).kind = .deferred ∧ t < m.nodes.size ∧ p < (m.node t).slots
  | .moveResult f r =>
    (∀ v, f.dst = some v → v ∈ f.env) ∧ f.after.Ok m ∧ r.borrowed = false ∧ r.shared = false ∧
      r.isDeferred = false ∧ ∀ n, r.currentTask = some n → (m.node n).kind = .task
  | .runOps _ _ after => after.Ok m
  | _ => True

/-! ## Admitted steps -/

/-- No version ever has as many readers as a countdown has room for. -/
def Bounded (m : Mem V) : Prop := ∀ q p, readers m q p + 2 < countdownBias

/-- Operations that leave the ownership of nodes intact, with a representable number of
prerequisites. -/
def Op.Tame : Op V → Prop
  | .run _ args _ _ _ => args.length < startCountMask
  | .toNode _ _ => False
  | .moveNode _ _ => False
  | _ => True

/-- A step that neither converts a var into a node nor runs a body that writes to a var object
as if it were a value. -/
def Instr.Tame (m : Mem V) : Instr V → Prop
  | .runOps _ (op :: _) _ => op.Tame
  | .invoke t => ∀ arg ∈ (m.node t).args, arg.mode.isWriter = true →
      ∀ v, Exec.resolve m arg.ptr ≠ .varObject v
  | _ => True

end Oox
