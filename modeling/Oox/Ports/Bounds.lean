import Oox.Ports.Claims

/-!
# Ports that exist

What the memory and the instructions say about ports: each names a slot of its node. The facts
speak of arcs and calls that have one holder, so no other step disturbs them.
-/

set_option autoImplicit false

namespace Oox

open Library

variable {V : Type}

/-! ## Slots -/

/-- `out(p)` of node `n` is one of the slots of the node. -/
structure Mem.HasSlot (m : Mem V) (n p : ℕ) : Prop where
  node : n < m.nodes.size
  port : p < (m.node n).slots

/-- A var names a slot; only a deferred storage node makes its var deferred. -/
structure Var.Placed (m : Mem V) (u : Var) : Prop where
  slot : ∀ n, u.currentTask = some n → m.HasSlot n u.currentPort
  deferred : ∀ n, u.currentTask = some n → u.isDeferred = true → (m.node n).kind = .deferred

/-- Arc `a` may be on the list of node `n`. A back arc names a port of its own node and is on the
list of a task; any other arc names a port of `n`. -/
structure Mem.Fits (m : Mem V) (n a : ℕ) : Prop where
  node : n < m.nodes.size
  arc : a < m.arcs.size
  forward : (m.arc a).kind ≠ .backOnly → (m.arc a).port < (m.node n).slots
  back : (m.arc a).kind = .backOnly → (m.node n).kind = .task

/-- A memory in which every port names a slot. -/
structure Mem.Placed (m : Mem V) : Prop where
  live : ∀ n, (m.node n).status = .live → n < m.nodes.size
  slots : ∀ n < m.nodes.size, 0 < (m.node n).slots ∧ (m.node n).slots ≤ 1024
  inner : ∀ n < m.nodes.size, (m.node n).kind = .task → (m.node n).inner < m.vars.size
  list : ∀ n < m.nodes.size, ∀ l, (m.node n).head = .list l → ∀ a ∈ l, m.Fits n a
  redirect : ∀ n < m.nodes.size, ∀ d, (m.node n).head = .redirect d →
    d < m.arcs.size ∧ m.HasSlot (m.arc d).node (m.arc d).port
  reader : ∀ a < m.arcs.size, (m.arc a).kind = .flowBack →
    (m.arc a).node < m.nodes.size ∧ (m.node (m.arc a).node).kind = .task
  back : ∀ a < m.arcs.size, (m.arc a).kind = .backOnly → m.HasSlot (m.arc a).node (m.arc a).port
  var : ∀ v, (m.var v).Placed m

/-! ## Instructions -/

/-- The names a thread uses are vars. -/
def Mem.Binds (m : Mem V) (env : List ℕ) : Prop := ∀ v ∈ env, v < m.vars.size

def VarArg.isWriter (arg : VarArg) : Bool := arg.mode.isWriter

/-- A call of `run`: the next port counts the writers so far, and the slots of the task are enough
for the writers to come. -/
structure Frame.Placed (m : Mem V) (f : Frame V) : Prop where
  task : f.task < m.nodes.size
  kind : (m.node f.task).kind = .task
  port : f.port = 1 + ((m.node f.task).args.filter VarArg.isWriter).length
  slots : f.port + (f.args.filter Arg.isWriter).length = (m.node f.task).slots
  env : m.Binds f.env
  dst : ∀ v, f.dst = some v → v < m.vars.size

/-- Call `f` registers its arc `a` for port `p` of node `n`. -/
structure Mem.Reads (m : Mem V) (f : Frame V) (n p a : ℕ) : Prop where
  frame : f.Placed m
  slot : m.HasSlot n p
  fits : m.Fits n a
  kind : (m.arc a).kind = .flowBack

def AddSite.Placed (m : Mem V) (n a : ℕ) : AddSite V → Prop
  | .assign f p => m.Reads f n p a
  | .assignTo f p => m.Reads f n p a
  | .ownBack f => f.Placed m
  | .forward t => t < m.nodes.size
  | _ => True

/-- One counter for each slot of task `t`. -/
structure Mem.Counts (m : Mem V) (t : ℕ) (count : List ℤ) : Prop where
  node : t < m.nodes.size
  length : count.length = (m.node t).slots

/-- What an instruction relies on. -/
def Instr.Placed (m : Mem V) : Instr V → Prop
  | .addArc n a site => m.Fits n a ∧ site.Placed m n a
  | .addArcCas n a _ site => m.Fits n a ∧ site.Placed m n a
  | .removeBackArc n p => m.HasSlot n p
  | .notifyNextWriter n p => m.HasSlot n p
  | .setNextWriter n p _ => m.HasSlot n p
  | .storeCountdown t _ count => t < m.nodes.size ∧ count.length ≤ (m.node t).slots
  | .loadException t count => m.Counts t count
  | .findTerminal t count => m.Counts t count
  | .retainTerminal t _ count => m.Counts t count
  | .closeList t _ _ count => m.Counts t count
  | .loadFailureFlag t r count => m.Counts t count ∧ ∀ a ∈ r, m.Fits t a
  | .notifyArcs t _ _ r count => m.Counts t count ∧ ∀ a ∈ r, m.Fits t a
  | .outLoad t _ count _ => m.Counts t count
  | .outCas t i count _ => m.Counts t count ∧ i < count.length
  | .outSub t i count _ => m.Counts t count ∧ i < count.length
  | .outNotify t i count _ => m.Counts t count ∧ i < count.length
  | .finish _ env _ _ => m.Binds env
  | .setup f => f.Placed m
  | .assignHead f n p a => m.Reads f n p a
  | .assignFailure f n p a => m.Reads f n p a
  | .assignIncrement f n p a => m.Reads f n p a
  | .redirect n q t p a => m.HasSlot n q ∧ m.HasSlot t p ∧ (m.node n).kind = .deferred ∧
      a < m.arcs.size ∧ (m.arc a).node = t ∧ (m.arc a).port = p
  | .moveArcs n q t p r => m.HasSlot n q ∧ m.HasSlot t p ∧
      ∀ a ∈ r, a < m.arcs.size ∧ (m.arc a).kind ≠ .backOnly
  | .bind f => f.Placed m
  | .moveResult f r => r.Placed m ∧ m.Binds f.env ∧ ∀ v, f.dst = some v → v < m.vars.size
  | .runOps env _ _ => m.Binds env
  | _ => True

/-- Any operation but a call of `run` with 1024 or more written vars and the move of a node to a
node, after which two vars name one slot. -/
def Op.Regular : Op V → Prop
  | .run _ args _ _ _ => (args.filter Arg.isWriter).length < 1024
  | .moveNode _ _ => False
  | _ => True

def Instr.Regular : Instr V → Prop
  | .runOps _ (op :: _) _ => op.Regular
  | _ => True

instance (op : Op V) : Decidable op.Regular :=
  match op with
  | .run _ args _ _ _ => inferInstanceAs (Decidable ((args.filter Arg.isWriter).length < 1024))
  | .moveNode _ _ => .isFalse id
  | .empty _ _ => .isTrue trivial
  | .value _ _ _ => .isTrue trivial
  | .deferred _ _ => .isTrue trivial
  | .move _ _ => .isTrue trivial
  | .destroy _ => .isTrue trivial
  | .cancel _ => .isTrue trivial
  | .wait _ => .isTrue trivial
  | .get _ => .isTrue trivial
  | .toNode _ _ => .isTrue trivial
  | .fork _ _ _ => .isTrue trivial

/-! ## Facts that only speak of nodes -/

section Stable

variable {m m' : Mem V}

theorem Mem.HasSlot.mono (hfrozen : Frozen m m') {n p : ℕ} (h : m.HasSlot n p) :
    m'.HasSlot n p where
  node := h.node.trans_le hfrozen.nodes_le
  port := by
    rw [(hfrozen.node n h.node).slots]
    exact h.port

theorem Var.Placed.mono (hfrozen : Frozen m m') {u : Var} (h : u.Placed m) : u.Placed m' where
  slot n hn := (h.slot n hn).mono hfrozen
  deferred n hn hdef := by
    rw [(hfrozen.node n (h.slot n hn).node).kind]
    exact h.deferred n hn hdef

theorem Var.Placed.empty {u : Var} (h : u.currentTask = none) : u.Placed m where
  slot n hn := absurd (h.symm.trans hn) (by simp)
  deferred n hn _ := absurd (h.symm.trans hn) (by simp)

theorem Mem.Binds.mono (hfrozen : Frozen m m') {env : List ℕ} (h : m.Binds env) :
    m'.Binds env :=
  fun v hv => (h v hv).trans_le hfrozen.vars_le

theorem Mem.Counts.mono (hfrozen : Frozen m m') {t : ℕ} {count : List ℤ} (h : m.Counts t count) :
    m'.Counts t count where
  node := h.node.trans_le hfrozen.nodes_le
  length := by
    rw [(hfrozen.node t h.node).slots]
    exact h.length

/-- What the code reads of an arc. -/
structure SameArc (x x' : Arc) : Prop where
  kind : x'.kind = x.kind
  node : x'.node = x.node
  port : x'.port = x.port

theorem SameArc.refl (x : Arc) : SameArc x x := ⟨rfl, rfl, rfl⟩

variable (hfrozen : Frozen m m')
include hfrozen

theorem Mem.Fits.mono {n a : ℕ} (h : m.Fits n a) (harc : SameArc (m.arc a) (m'.arc a)) :
    m'.Fits n a where
  node := h.node.trans_le hfrozen.nodes_le
  arc := h.arc.trans_le hfrozen.arcs_le
  forward hkind := by
    rw [harc.port, (hfrozen.node n h.node).slots]
    exact h.forward (harc.kind ▸ hkind)
  back hkind := by
    rw [(hfrozen.node n h.node).kind]
    exact h.back (harc.kind ▸ hkind)

theorem Frame.Placed.mono {f : Frame V} (h : f.Placed m)
    (hargs : (m'.node f.task).args = (m.node f.task).args) : f.Placed m' where
  task := h.task.trans_le hfrozen.nodes_le
  kind := by
    rw [(hfrozen.node _ h.task).kind]
    exact h.kind
  port := by
    rw [hargs]
    exact h.port
  slots := by
    rw [(hfrozen.node _ h.task).slots]
    exact h.slots
  env := h.env.mono hfrozen
  dst v hv := (h.dst v hv).trans_le hfrozen.vars_le

theorem Mem.Reads.mono {f : Frame V} {n p a : ℕ} (h : m.Reads f n p a)
    (hargs : (m'.node f.task).args = (m.node f.task).args)
    (harc : SameArc (m.arc a) (m'.arc a)) : m'.Reads f n p a where
  frame := h.frame.mono hfrozen hargs
  slot := h.slot.mono hfrozen
  fits := h.fits.mono hfrozen harc
  kind := harc.kind.trans h.kind

end Stable

/-! ## One holder -/

section Claims

variable {m : Mem V}

/-- There is one claim of each kind at most. -/
theorem neg_claimBalance_le (m : Mem V) (k : Claim) : -claimBalance m k ≤ 1 := by
  have hnodes := m.nodes.sum_nonneg (fun _ x => x.head.claims k) fun n _ => Head.claims_nonneg _ k
  have hvars := m.vars.sum_nonneg (fun _ u => u.claims k) fun v _ => Var.claims_nonneg _ k
  cases k <;> simp only [claimBalance] <;> omega

/-- What is held by an instruction is on no list. -/
theorem head_claims_eq_zero {k : Claim} (howed : 1 ≤ -claimBalance m k) {n : ℕ}
    (hn : n < m.nodes.size) : (m.node n).head.claims k = 0 := by
  have hnonneg := (m.node n).head.claims_nonneg k
  have hle := Heap.le_sum hn (f := fun _ (x : Node V) => x.head.claims k) fun j _ _ =>
    Head.claims_nonneg _ k
  have hvars := m.vars.sum_nonneg (fun _ u => u.claims k) fun v _ => Var.claims_nonneg _ k
  have hle' : (m.node n).head.claims k ≤ m.nodes.sum fun _ x => x.head.claims k := hle
  cases k <;> simp only [claimBalance] at howed <;> omega

/-- A call of `run` holds the port of its result. -/
theorem Frame.claims_task (f : Frame V) : f.claims (.port f.task 0) = 1 := by
  simp [Frame.claims]

theorem one_le_listClaims {a : ℕ} {l : List ℕ} (ha : a ∈ l) : 1 ≤ listClaims l (.arc a) :=
  Int.ofNat_le.mpr (List.count_pos_iff.mpr ha)

/-- The operation writes the kind, node or port of arc `a`. -/
def Instr.Rewrites (a : ℕ) : Instr V → Prop
  | .notifyArcs _ _ _ r _ => r.head? = some a
  | .moveArcs _ _ _ _ r => r.head? = some a
  | .assignHead _ _ _ b => a = b
  | .assignIncrement _ _ _ b => a = b
  | _ => False

/-- Who writes to an arc holds it. -/
theorem one_le_claims_of_rewrites {ins : Instr V} {a : ℕ} (h : ins.Rewrites a) :
    1 ≤ ins.claims (.arc a) := by
  have hself := one_le_listClaims (List.mem_singleton_self a)
  cases ins with
  | notifyArcs t canThrow failed r count => exact one_le_listClaims (List.mem_of_mem_head? h)
  | moveArcs n q t p r => exact one_le_listClaims (List.mem_of_mem_head? h)
  | assignHead f n p b =>
    cases h
    exact le_add_of_le_of_nonneg hself (f.claims_nonneg _)
  | assignIncrement f n p b =>
    cases h
    exact le_add_of_le_of_nonneg hself (f.claims_nonneg _)
  | _ => exact h.elim

end Claims

/-! ## The setting of a step -/

variable [Inhabited V]

/-- A step of a regular instruction, in a placed memory that owes what the instruction holds. -/
structure PortStep (m : Mem V) (spurious : Bool) (ins : Instr V) (m' : Mem V)
    (push : List (Instr V)) (spawned : List (List (Instr V))) : Prop where
  mem : m.Placed
  owed : ∀ k, ins.claims k ≤ -claimBalance m k
  ok : ins.Placed m
  regular : ins.Regular
  step : exec m spurious ins = .next m' push spawned

/-- What `j` holds while `ins` is about to run. -/
abbrev Beside (m : Mem V) (ins j : Instr V) : Prop := Together claimBalance Instr.claims m ins j

namespace PortStep

variable {m m' : Mem V} {spurious : Bool} {ins : Instr V} {push : List (Instr V)}
variable {spawned : List (List (Instr V))}

theorem frozen (h : PortStep m spurious ins m' push spawned) : Frozen m m' :=
  (exec_frozen spurious ins).of_next h.step

theorem changes (h : PortStep m spurious ins m' push spawned) : Changes ins m m' :=
  (exec_changes spurious ins).of_next h.step

theorem inLifetime (h : PortStep m spurious ins m' push spawned) : inLifetime m ins = true :=
  inLifetime_iff.mpr (sees_of_exec h.step)

/-- The nodes an operation uses are allocated. -/
theorem allocated (h : PortStep m spurious ins m' push spawned) {n : ℕ}
    (hn : n ∈ touches m ins) : n < m.nodes.size :=
  h.mem.live n ((sees_of_exec h.step).live n hn)

/-- Only four functions write the kind, node or port of an arc. -/
theorem arc_cases (h : PortStep m spurious ins m' push spawned) {a : ℕ} (ha : a < m.arcs.size) :
    SameArc (m.arc a) (m'.arc a) ∨ ins.Rewrites a := by
  rcases h.changes.arc a ha with heq | hchange
  · rw [heq]
    exact .inl (.refl _)
  · cases ins with
    | addArc n b site =>
      left
      rw [hchange.2]
      exact ⟨rfl, rfl, rfl⟩
    | addArcCas n b seen site =>
      left
      rw [hchange.2]
      exact ⟨rfl, rfl, rfl⟩
    | freeNode n =>
      left
      rw [hchange.2]
      exact ⟨rfl, rfl, rfl⟩
    | deleteArc b =>
      left
      rw [hchange.2]
      exact ⟨rfl, rfl, rfl⟩
    | notifyArcs t canThrow failed r count => exact .inr hchange.1
    | moveArcs n q t p r => exact .inr hchange.1
    | assignHead f n p b => exact .inr hchange.1
    | assignIncrement f n p b => exact .inr hchange.1
    | _ => exact hchange.elim

/-- An arc that somebody else holds stays as it is. -/
theorem same_of_beside (h : PortStep m spurious ins m' push spawned) {j : Instr V}
    (hwith : Beside m ins j) {a : ℕ} (ha : a < m.arcs.size) (hj : 1 ≤ j.claims (.arc a)) :
    SameArc (m.arc a) (m'.arc a) := by
  rcases h.arc_cases ha with hsame | hrewrites
  · exact hsame
  · have hins := one_le_claims_of_rewrites hrewrites
    have hsum := hwith (.arc a)
    have hle := neg_claimBalance_le m (.arc a)
    omega

/-- An arc on a list stays as it is. -/
theorem same_of_head (h : PortStep m spurious ins m' push spawned) {n a : ℕ}
    (hn : n < m.nodes.size) (ha : a < m.arcs.size)
    (hhead : 1 ≤ (m.node n).head.claims (.arc a)) : SameArc (m.arc a) (m'.arc a) := by
  rcases h.arc_cases ha with hsame | hrewrites
  · exact hsame
  · have hins := one_le_claims_of_rewrites hrewrites
    have hzero := head_claims_eq_zero (hins.trans (h.owed _)) hn
    omega

/-- Only the call that makes a task records its arguments. -/
theorem args_of_beside (h : PortStep m spurious ins m' push spawned) {j : Instr V}
    (hwith : Beside m ins j) {t : ℕ} (ht : t < m.nodes.size) (hj : 1 ≤ j.claims (.port t 0)) :
    (m'.node t).args = (m.node t).args := by
  rcases (h.changes.node t ht).args with hsame | hchange
  · exact hsame
  · exfalso
    cases ins with
    | setup f =>
      obtain ⟨rfl, -⟩ := hchange
      have hsum : f.claims (.port f.task 0) + j.claims (.port f.task 0) ≤ _ :=
        hwith (.port f.task 0)
      have hle := neg_claimBalance_le m (.port f.task 0)
      rw [f.claims_task] at hsum
      omega
    | _ => exact hchange

/-- What an instruction relies on, no step of another thread and no call above it disturbs. -/
theorem placed_stable (h : PortStep m spurious ins m' push spawned) {j : Instr V}
    (hwith : Beside m ins j) (hj : j.Placed m) : j.Placed m' := by
  have hfrozen := h.frozen
  have hsame : ∀ a < m.arcs.size, 1 ≤ j.claims (.arc a) → SameArc (m.arc a) (m'.arc a) :=
    fun a ha hclaim => h.same_of_beside hwith ha hclaim
  -- the arc and the frame of a registration are held by `j`
  have harc : ∀ (a : ℕ) (k : ℤ), 0 ≤ k → 1 ≤ listClaims [a] (.arc a) + k := by
    intro a k hk
    have := one_le_listClaims (List.mem_singleton_self a)
    omega
  have hframe : ∀ {f : Frame V}, f.Placed m → f.claims (.port f.task 0) ≤ j.claims (.port f.task 0) →
      (m'.node f.task).args = (m.node f.task).args := by
    intro f hf hle
    rw [f.claims_task] at hle
    exact h.args_of_beside hwith hf.task hle
  have hsite : ∀ {n a : ℕ} {site : AddSite V}, m.Fits n a → site.Placed m n a →
      SameArc (m.arc a) (m'.arc a) →
      (∀ k, site.claims k ≤ j.claims k) → site.Placed m' n a := by
    intro n a site hfits hplaced hsame hle
    cases site with
    | assign f p => exact hplaced.mono hfrozen (hframe hplaced.frame (hle _)) hsame
    | assignTo f p => exact hplaced.mono hfrozen (hframe hplaced.frame (hle _)) hsame
    | ownBack f => exact Frame.Placed.mono hfrozen hplaced (hframe hplaced (hle _))
    | forward t => exact Nat.lt_of_lt_of_le hplaced hfrozen.nodes_le
    | _ => trivial
  have hreads : ∀ {f : Frame V} {n p a : ℕ}, m.Reads f n p a →
      (∀ k, j.claims k = listClaims [a] k + f.claims k) → m'.Reads f n p a := by
    intro f n p a hr hk
    refine hr.mono hfrozen (hframe hr.frame ?_) (hsame a hr.fits.arc ?_)
    · rw [hk]
      have := listClaims_nonneg [a] (.port f.task 0)
      omega
    · rw [hk]
      exact harc a _ (f.claims_nonneg _)
  cases j with
  | addArc n a site =>
    have ha := hsame a hj.1.arc (harc a _ (site.claims_nonneg _))
    refine ⟨hj.1.mono hfrozen ha, hsite hj.1 hj.2 ha fun k => ?_⟩
    have := listClaims_nonneg [a] k
    simp only [Instr.claims]
    omega
  | addArcCas n a seen site =>
    have ha := hsame a hj.1.arc (harc a _ (site.claims_nonneg _))
    refine ⟨hj.1.mono hfrozen ha, hsite hj.1 hj.2 ha fun k => ?_⟩
    have := listClaims_nonneg [a] k
    simp only [Instr.claims]
    omega
  | removeBackArc n p => exact hj.mono hfrozen
  | notifyNextWriter n p => exact hj.mono hfrozen
  | setNextWriter n p d => exact hj.mono hfrozen
  | storeCountdown t canThrow count =>
    refine ⟨hj.1.trans_le hfrozen.nodes_le, ?_⟩
    rw [(hfrozen.node t hj.1).slots]
    exact hj.2
  | loadException t count => exact hj.mono hfrozen
  | findTerminal t count => exact hj.mono hfrozen
  | retainTerminal t c count => exact hj.mono hfrozen
  | closeList t canThrow terminal count => exact hj.mono hfrozen
  | loadFailureFlag t r count =>
    exact ⟨hj.1.mono hfrozen, fun a ha => (hj.2 a ha).mono hfrozen
      (hsame a (hj.2 a ha).arc (one_le_listClaims ha))⟩
  | notifyArcs t canThrow failed r count =>
    exact ⟨hj.1.mono hfrozen, fun a ha => (hj.2 a ha).mono hfrozen
      (hsame a (hj.2 a ha).arc (one_le_listClaims ha))⟩
  | outLoad t i count refs => exact hj.mono hfrozen
  | outCas t i count refs => exact ⟨hj.1.mono hfrozen, hj.2⟩
  | outSub t i count refs => exact ⟨hj.1.mono hfrozen, hj.2⟩
  | outNotify t i count refs => exact ⟨hj.1.mono hfrozen, hj.2⟩
  | finish t env vals cells => exact hj.mono hfrozen
  | setup f => exact Frame.Placed.mono hfrozen hj (hframe hj le_rfl)
  | bind f => exact Frame.Placed.mono hfrozen hj (hframe hj le_rfl)
  | assignHead f n p a => exact hreads hj fun k => rfl
  | assignFailure f n p a => exact hreads hj fun k => rfl
  | assignIncrement f n p a => exact hreads hj fun k => rfl
  | redirect n q t p a =>
    obtain ⟨hslot, hwriter, hkind, ha, hnode, hport⟩ := hj
    have hsame' := hsame a ha (one_le_listClaims (List.mem_singleton_self a))
    refine ⟨hslot.mono hfrozen, hwriter.mono hfrozen, ?_, ha.trans_le hfrozen.arcs_le,
      hsame'.node.trans hnode, hsame'.port.trans hport⟩
    rw [(hfrozen.node n hslot.node).kind]
    exact hkind
  | moveArcs n q t p r =>
    refine ⟨hj.1.mono hfrozen, hj.2.1.mono hfrozen, fun a ha => ?_⟩
    obtain ⟨hlt, hkind⟩ := hj.2.2 a ha
    refine ⟨hlt.trans_le hfrozen.arcs_le, ?_⟩
    rw [(hsame a hlt (one_le_listClaims ha)).kind]
    exact hkind
  | moveResult f r =>
    exact ⟨hj.1.mono hfrozen, hj.2.1.mono hfrozen,
      fun v hv => (hj.2.2 v hv).trans_le hfrozen.vars_le⟩
  | runOps env ops after => exact hj.mono hfrozen
  | _ => trivial

end PortStep

end Oox
