import Oox.Model.Exec

/-!
# The part of a node that no step changes

A node keeps its kind, its slots, its policies, its functor and the place of its result from
its allocation on, and addresses are never reused. This holds of every step, whatever the
program does.
-/

set_option autoImplicit false

namespace Oox

open Library

variable {V : Type}

/-! ## The check at the start of a step -/

/-- What the check at the start of a step asks for. -/
structure Instr.Sees (m : Mem V) (ins : Instr V) : Prop where
  live : ∀ n ∈ touches m ins, (m.node n).status = .live
  alive : ∀ a ∈ touchesArcs m ins, (m.arc a).alive = true
  payload : ∀ c ∈ touchesControls m ins, (m.control c).alive = true
  aimed : ∀ v ∈ touchesVars m ins, (m.var v).wild = false
  destroying : match ins with
    | .destroy n => (m.node n).status = .destroying
    | .freeNode n => (m.node n).status = .destroying
    | _ => True

theorem inLifetime_iff {m : Mem V} {ins : Instr V} : inLifetime m ins = true ↔ ins.Sees m := by
  unfold inLifetime
  simp only [Bool.and_eq_true, List.all_eq_true, decide_eq_true_eq, Bool.not_eq_true']
  constructor
  · rintro ⟨⟨⟨⟨hlive, halive⟩, hpayload⟩, haimed⟩, hdestroying⟩
    refine ⟨hlive, halive, hpayload, haimed, ?_⟩
    cases ins <;> exact of_decide_eq_true hdestroying
  · rintro ⟨hlive, halive, hpayload, haimed, hdestroying⟩
    refine ⟨⟨⟨⟨hlive, halive⟩, hpayload⟩, haimed⟩, ?_⟩
    cases ins <;> exact decide_eq_true hdestroying

/-- A step that does not fail passed the check. -/
theorem sees_of_exec [Inhabited V] {m m' : Mem V} {spurious : Bool} {ins : Instr V}
    {push : List (Instr V)} {spawned : List (List (Instr V))}
    (h : exec m spurious ins = .next m' push spawned) : ins.Sees m := by
  unfold exec at h
  split at h
  · rename_i hlife
    exact inLifetime_iff.mp hlife
  · cases h

/-! ## The same object -/

/-- The same object at two moments. -/
structure SameNode (x x' : Node V) : Prop where
  kind : x'.kind = x.kind
  slots : x'.slots = x.slots
  canThrow : x'.canThrow = x.canThrow
  resultKind : x'.resultKind = x.resultKind
  body : x'.body = x.body
  inner : x'.inner = x.inner
  /-- a node that died does not come back. -/
  live : x'.status = .live → x.status = .live
  args : x.args <+: x'.args

theorem SameNode.refl (x : Node V) : SameNode x x := ⟨rfl, rfl, rfl, rfl, rfl, rfl, id, List.prefix_rfl⟩

theorem SameNode.trans {x₁ x₂ x₃ : Node V} (h : SameNode x₁ x₂) (h' : SameNode x₂ x₃) :
    SameNode x₁ x₃ :=
  ⟨h'.kind.trans h.kind, h'.slots.trans h.slots, h'.canThrow.trans h.canThrow,
    h'.resultKind.trans h.resultKind, h'.body.trans h.body, h'.inner.trans h.inner,
    h.live ∘ h'.live, h.args.trans h'.args⟩

/-- The objects of `m` are still there in `m'`. -/
structure Frozen (m m' : Mem V) : Prop where
  nodes_le : m.nodes.size ≤ m'.nodes.size
  arcs_le : m.arcs.size ≤ m'.arcs.size
  vars_le : m.vars.size ≤ m'.vars.size
  node : ∀ n < m.nodes.size, SameNode (m.node n) (m'.node n)

namespace Frozen

variable {m m₁ : Mem V}

theorem refl (m : Mem V) : Frozen m m := ⟨le_rfl, le_rfl, le_rfl, fun _ _ => .refl _⟩

theorem trans {m₂ : Mem V} (h : Frozen m m₁) (h' : Frozen m₁ m₂) : Frozen m m₂ where
  nodes_le := h.nodes_le.trans h'.nodes_le
  arcs_le := h.arcs_le.trans h'.arcs_le
  vars_le := h.vars_le.trans h'.vars_le
  node n hn := (h.node n hn).trans (h'.node n (hn.trans_le h.nodes_le))

theorem setNode (h : Frozen m m₁) {n : ℕ} {x : Node V} (hx : SameNode (m₁.node n) x) :
    Frozen m (m₁.setNode n x) where
  nodes_le := h.nodes_le
  arcs_le := h.arcs_le
  vars_le := h.vars_le
  node j hj := by
    rw [Mem.node_setNode]
    split
    · rename_i heq
      subst heq
      exact (h.node j hj).trans hx
    · exact h.node j hj

theorem setOut (h : Frozen m m₁) (n p : ℕ) (o : OutputNode) : Frozen m (m₁.setOut n p o) :=
  h.setNode ⟨rfl, rfl, rfl, rfl, rfl, rfl, id, List.prefix_rfl⟩

theorem newNode (h : Frozen m m₁) (x : Node V) : Frozen m (m₁.newNode x) where
  nodes_le := h.nodes_le.trans (Nat.le_succ _)
  arcs_le := h.arcs_le
  vars_le := h.vars_le
  node j hj := by
    have hne : j ≠ m₁.nodes.size := by
      have := h.nodes_le
      omega
    rw [Mem.node_newNode, if_neg hne]
    exact h.node j hj

theorem setArc (h : Frozen m m₁) (a : ℕ) (x : Arc) : Frozen m (m₁.setArc a x) :=
  ⟨h.nodes_le, h.arcs_le, h.vars_le, h.node⟩

theorem spend (h : Frozen m m₁) (a : ℕ) : Frozen m (m₁.spend a) := h.setArc _ _

theorem newArc (h : Frozen m m₁) (x : Arc) : Frozen m (m₁.newArc x) :=
  ⟨h.nodes_le, h.arcs_le.trans (Nat.le_succ _), h.vars_le, h.node⟩

theorem setVar (h : Frozen m m₁) (v : ℕ) (u : Var) : Frozen m (m₁.setVar v u) :=
  ⟨h.nodes_le, h.arcs_le, h.vars_le, h.node⟩

theorem newVar (h : Frozen m m₁) (u : Var) : Frozen m (m₁.newVar u) :=
  ⟨h.nodes_le, h.arcs_le, h.vars_le.trans (Nat.le_succ _), h.node⟩

theorem newVars (h : Frozen m m₁) (k : ℕ) : Frozen m (m₁.newVars k) := by
  induction k generalizing m₁ with
  | zero => exact h
  | succ k ih => exact ih (h.newVar _)

theorem setControl (h : Frozen m m₁) (c : ℕ) (x : Control) : Frozen m (m₁.setControl c x) :=
  ⟨h.nodes_le, h.arcs_le, h.vars_le, h.node⟩

theorem newControl (h : Frozen m m₁) (x : Control) : Frozen m (m₁.newControl x) :=
  ⟨h.nodes_le, h.arcs_le, h.vars_le, h.node⟩

theorem writeCells (h : Frozen m m₁) (cells : List (StoragePtr × V)) :
    Frozen m (Exec.writeCells m₁ cells) := by
  induction cells generalizing m₁ with
  | nil => exact h
  | cons cell rest ih =>
    obtain ⟨p, v⟩ := cell
    cases p with
    | result n => exact ih (h.setNode ⟨rfl, rfl, rfl, rfl, rfl, rfl, id, List.prefix_rfl⟩)
    | varObject u => exact ih (h.setVar _ _)
    | null => exact ih h
    | task n => exact ih h

theorem borrowVars (h : Frozen m m₁) (vs : List ℕ) : Frozen m (Exec.borrowVars m₁ vs) := by
  induction vs generalizing m₁ with
  | nil => exact h
  | cons v vs ih => exact ih ((h.setVar _ _).newVar _)

variable [Inhabited V]

theorem consume (h : Frozen m m₁) {m₂ : Mem V} {mode : AccessMode} {p : ArgPtr} {v : V}
    (hc : Exec.consume m₁ mode p = .ok (m₂, v)) : Frozen m m₂ := by
  unfold Exec.consume at hc
  split at hc
  · cases hc
  · cases hc
  · dsimp only at hc
    split at hc
    · cases hc
    · split at hc
      · cases hc
        exact h
      · cases hc
        exact h.setNode ⟨rfl, rfl, rfl, rfl, rfl, rfl, id, List.prefix_rfl⟩
      · cases hc
  · split at hc
    · cases hc
      exact h.setVar _ _
    · cases hc

theorem consumeAll (h : Frozen m m₁) {m₂ : Mem V} {args : List VarArg} {vs : List V}
    (hc : Exec.consumeAll m₁ args = .ok (m₂, vs)) : Frozen m m₂ := by
  induction args generalizing m₁ m₂ vs with
  | nil =>
    cases hc
    exact h
  | cons arg rest ih =>
    simp only [Exec.consumeAll] at hc
    split at hc
    · cases hc
    · rename_i m' v hfirst
      split at hc
      · cases hc
      · rename_i m'' vs' hrest
        cases hc
        exact ih (h.consume hfirst) hrest

end Frozen

/-! ## Steps inside the runtime

Only six instructions create nodes, change vars or record arguments; every other one is
`Quiet`. -/

/-- No node or var was allocated, no var was changed, and no argument was recorded. -/
structure Quiet (m m' : Mem V) : Prop where
  nodes_size : m'.nodes.size = m.nodes.size
  arcs_le : m.arcs.size ≤ m'.arcs.size
  vars : m'.vars = m.vars
  left : m'.left = m.left
  node : ∀ n, SameNode (m.node n) (m'.node n) ∧ (m'.node n).args = (m.node n).args

namespace Quiet

variable {m m₁ : Mem V}

theorem refl (m : Mem V) : Quiet m m := ⟨rfl, le_rfl, rfl, rfl, fun _ => ⟨.refl _, rfl⟩⟩

theorem setNode (h : Quiet m m₁) {n : ℕ} {x : Node V} (hx : SameNode (m₁.node n) x)
    (hargs : x.args = (m₁.node n).args) : Quiet m (m₁.setNode n x) where
  nodes_size := h.nodes_size
  arcs_le := h.arcs_le
  vars := h.vars
  left := h.left
  node j := by
    rw [Mem.node_setNode]
    split
    · rename_i heq
      subst heq
      exact ⟨(h.node j).1.trans hx, hargs.trans (h.node j).2⟩
    · exact h.node j

theorem setOut (h : Quiet m m₁) (n p : ℕ) (o : OutputNode) : Quiet m (m₁.setOut n p o) :=
  h.setNode ⟨rfl, rfl, rfl, rfl, rfl, rfl, id, List.prefix_rfl⟩ rfl

theorem setArc (h : Quiet m m₁) (a : ℕ) (x : Arc) : Quiet m (m₁.setArc a x) :=
  ⟨h.nodes_size, h.arcs_le, h.vars, h.left, h.node⟩

theorem spend (h : Quiet m m₁) (a : ℕ) : Quiet m (m₁.spend a) := h.setArc _ _

theorem newArc (h : Quiet m m₁) (x : Arc) : Quiet m (m₁.newArc x) :=
  ⟨h.nodes_size, h.arcs_le.trans (Nat.le_succ _), h.vars, h.left, h.node⟩

theorem setControl (h : Quiet m m₁) (c : ℕ) (x : Control) : Quiet m (m₁.setControl c x) :=
  ⟨h.nodes_size, h.arcs_le, h.vars, h.left, h.node⟩

theorem newControl (h : Quiet m m₁) (x : Control) : Quiet m (m₁.newControl x) :=
  ⟨h.nodes_size, h.arcs_le, h.vars, h.left, h.node⟩

theorem var (h : Quiet m m₁) (v : ℕ) : m₁.var v = m.var v := by
  unfold Mem.var
  rw [h.vars]

theorem frozen (h : Quiet m m₁) : Frozen m m₁ :=
  ⟨h.nodes_size.ge, h.arcs_le, (congrArg Heap.size h.vars).ge, fun n _ => (h.node n).1⟩

end Quiet

/-- Instructions that neither create nodes, nor change vars, nor record arguments. -/
def Instr.quiet : Instr V → Bool
  | .destroy _ => false
  | .invoke _ => false
  | .finish _ _ _ _ => false
  | .setup _ => false
  | .moveResult _ _ => false
  | .runOps _ _ _ => false
  | _ => true

section Steps

variable {m : Mem V}

theorem release_quiet (n k : ℕ) : (Exec.release m n k).Leaves (Quiet m) := by
  unfold Exec.release
  split
  · exact (Quiet.refl m).setNode ⟨rfl, rfl, rfl, rfl, rfl, rfl, nofun, List.prefix_rfl⟩ rfl
  · exact .refl m

theorem releaseSub_quiet (n k : ℕ) : (Exec.releaseSub m n k).Leaves (Quiet m) := by
  unfold Exec.releaseSub
  dsimp only
  split
  · trivial
  · split
    · exact (Quiet.refl m).setNode ⟨rfl, rfl, rfl, rfl, rfl, rfl, nofun, List.prefix_rfl⟩ rfl
    · exact (Quiet.refl m).setNode ⟨rfl, rfl, rfl, rfl, rfl, rfl, id, List.prefix_rfl⟩ rfl

theorem freeNode_quiet (n : ℕ) : (Exec.freeNode m n).Leaves (Quiet m) := by
  have hdead := (Quiet.refl m).setNode (n := n) (x := { m.node n with status := .dead })
    ⟨rfl, rfl, rfl, rfl, rfl, rfl, nofun, List.prefix_rfl⟩ rfl
  unfold Exec.freeNode
  dsimp only
  split
  · exact hdead
  · trivial
  · exact hdead
  · exact hdead.spend _
  · exact hdead.spend _

theorem releaseControl_quiet (c : ℕ) : (Exec.releaseControl m c).Leaves (Quiet m) := by
  unfold Exec.releaseControl
  dsimp only
  split
  · exact (Quiet.refl m).setControl _ _
  · trivial

theorem rejected_quiet (n a : ℕ) (site : AddSite V) :
    (Exec.rejected m n a site).Leaves (Quiet m) := by
  cases site with
  | assign f p => exact .refl m
  | assignTo f p => exact .refl m
  | ownBack f => trivial
  | back => trivial
  | moved => trivial
  | thrown => exact (Quiet.refl m).spend a
  | signal => exact (Quiet.refl m).spend a
  | forward t =>
    have hback := (Quiet.refl m).setNode (n := t) (x := { m.node t with phase := .running })
      ⟨rfl, rfl, rfl, rfl, rfl, rfl, id, List.prefix_rfl⟩ rfl
    exact hback.spend a

theorem addArc_quiet (n a : ℕ) (site : AddSite V) : (Exec.addArc m n a site).Leaves (Quiet m) := by
  unfold Exec.addArc
  split
  · exact .refl m
  · exact rejected_quiet n a site

theorem addArcCas_quiet (spurious : Bool) (n a : ℕ) (seen : List ℕ) (site : AddSite V) :
    (Exec.addArcCas m spurious n a seen site).Leaves (Quiet m) := by
  have hpush := (Quiet.refl m).setNode (n := n) (x := { m.node n with head := .list (a :: seen) })
    ⟨rfl, rfl, rfl, rfl, rfl, rfl, id, List.prefix_rfl⟩ rfl
  unfold Exec.addArcCas
  split
  · cases site with
    | forward t => exact (hpush.setArc _ _).setNode ⟨rfl, rfl, rfl, rfl, rfl, rfl, id, List.prefix_rfl⟩ rfl
    | _ => exact hpush.setArc _ _
  · exact .refl m

theorem removeBackArc_quiet (n p : ℕ) : (Exec.removeBackArc m n p).Leaves (Quiet m) := by
  rw [Exec.removeBackArc_eq]
  dsimp only
  split
  · trivial
  · exact (Quiet.refl m).setOut _ _ _

theorem notifyNextWriter_quiet (n p : ℕ) : (Exec.notifyNextWriter m n p).Leaves (Quiet m) := by
  unfold Exec.notifyNextWriter
  dsimp only
  split
  · trivial
  · exact (Quiet.refl m).setOut _ _ _

theorem setNextWriter_quiet (n p : ℕ) (d : NextWriter) :
    (Exec.setNextWriter m n p d).Leaves (Quiet m) := by
  have hset := (Quiet.refl m).setOut n p { (m.node n).out p with nextWriter := d }
  rw [Exec.setNextWriter_eq]
  dsimp only
  split
  · trivial
  · split
    · exact hset
    · exact hset
    · split
      · exact hset
      · trivial
    · trivial

theorem storeCountdown_quiet (t : ℕ) (canThrow : Bool) (count : List ℤ) :
    (Exec.storeCountdown m t canThrow count).Leaves (Quiet m) := by
  unfold Exec.storeCountdown OutputNode.arm
  dsimp only
  split
  · exact (Quiet.refl m).setOut _ _ _
  · exact .refl m

theorem findTerminal_quiet (t : ℕ) (count : List ℤ) :
    (Exec.findTerminal m t count).Leaves (Quiet m) := by
  unfold Exec.findTerminal
  split <;> exact .refl m

theorem retainTerminal_quiet (t c : ℕ) (count : List ℤ) :
    (Exec.retainTerminal m t c count).Leaves (Quiet m) := by
  unfold Exec.retainTerminal
  dsimp only
  split
  · exact ((Quiet.refl m).setControl _ _).newArc _
  · trivial

theorem closeList_quiet (t : ℕ) (canThrow : Bool) (terminal : Option ℕ) (count : List ℤ) :
    (Exec.closeList m t canThrow terminal count).Leaves (Quiet m) := by
  unfold Exec.closeList
  dsimp only
  split
  · exact (Quiet.refl m).setNode ⟨rfl, rfl, rfl, rfl, rfl, rfl, id, List.prefix_rfl⟩ rfl
  · exact (Quiet.refl m).setNode ⟨rfl, rfl, rfl, rfl, rfl, rfl, id, List.prefix_rfl⟩ rfl
  · trivial

theorem notifyArcs_quiet (t : ℕ) (canThrow failed : Bool) (r : List ℕ) (count : List ℤ) :
    (Exec.notifyArcs m t canThrow failed r count).Leaves (Quiet m) := by
  unfold Exec.notifyArcs
  split
  · exact .refl m
  · dsimp only
    split
    · split
      · exact (Quiet.refl m).setArc _ _
      · trivial
    · exact (Quiet.refl m).setArc _ _
    · split <;> exact (Quiet.refl m).setArc _ _
    · exact (Quiet.refl m).setArc _ _
    · trivial
    · trivial

theorem outLoad_quiet (t i : ℕ) (count : List ℤ) (refs : ℕ) :
    (Exec.outLoad m t i count refs).Leaves (Quiet m) := by
  unfold Exec.outLoad
  split
  · split <;> exact .refl m
  · exact .refl m

theorem outCas_quiet (t i : ℕ) (count : List ℤ) (refs : ℕ) :
    (Exec.outCas m t i count refs).Leaves (Quiet m) := by
  rw [Exec.outCas_eq]
  dsimp only
  split
  · exact (Quiet.refl m).setOut _ _ _
  · exact .refl m

theorem outSub_quiet (t i : ℕ) (count : List ℤ) (refs : ℕ) :
    (Exec.outSub m t i count refs).Leaves (Quiet m) := by
  rw [Exec.outSub_eq]
  dsimp only
  split
  · trivial
  · exact (Quiet.refl m).setOut _ _ _

theorem outNotify_quiet (t i : ℕ) (count : List ℤ) (refs : ℕ) :
    (Exec.outNotify m t i count refs).Leaves (Quiet m) := by
  unfold Exec.outNotify
  dsimp only
  split
  · trivial
  · exact (Quiet.refl m).setOut _ _ _

theorem removePrerequisite_quiet (n k : ℕ) :
    (Exec.removePrerequisite m n k).Leaves (Quiet m) := by
  rw [Exec.removePrerequisite_eq]
  dsimp only
  split
  · trivial
  · split <;> exact (Quiet.refl m).setNode ⟨rfl, rfl, rfl, rfl, rfl, rfl, id, List.prefix_rfl⟩ rfl

theorem publish_quiet (n source p : ℕ) : (Exec.publish m n source p).Leaves (Quiet m) := by
  rw [Exec.publish_eq]
  dsimp only
  split_ifs <;> exact .refl m

theorem publishControl_quiet (n source : ℕ) :
    (Exec.publishControl m n source).Leaves (Quiet m) := by
  unfold Exec.publishControl
  split <;> exact .refl m

theorem retainSignal_quiet (n c : ℕ) : (Exec.retainSignal m n c).Leaves (Quiet m) := by
  unfold Exec.retainSignal
  dsimp only
  split
  · exact ((Quiet.refl m).setControl _ _).newArc _
  · trivial

theorem markCas_quiet (spurious : Bool) (n : ℕ) (b : FailureBit) (word : StartCount) :
    (Exec.markCas m spurious n b word).Leaves (Quiet m) := by
  unfold Exec.markCas
  dsimp only
  split
  · exact (Quiet.refl m).setNode ⟨rfl, rfl, rfl, rfl, rfl, rfl, id, List.prefix_rfl⟩ rfl
  · exact .refl m

theorem execute_quiet (t : ℕ) : (Exec.execute m t).Leaves (Quiet m) := by
  unfold Exec.execute
  dsimp only
  split
  · exact .refl m
  · split
    · exact .refl m
    · exact (Quiet.refl m).setNode ⟨rfl, rfl, rfl, rfl, rfl, rfl, id, List.prefix_rfl⟩ rfl

theorem addLife_quiet (t : ℕ) : (Exec.addLife m t).Leaves (Quiet m) := by
  have hlife := (Quiet.refl m).setNode (n := t)
    (x := { m.node t with lifeCount := (m.node t).lifeCount + 1 })
    ⟨rfl, rfl, rfl, rfl, rfl, rfl, id, List.prefix_rfl⟩ rfl
  unfold Exec.addLife
  dsimp only
  split
  · trivial
  · exact hlife.newArc _

theorem forwardFailure_quiet (t : ℕ) : (Exec.forwardFailure m t).Leaves (Quiet m) := by
  unfold Exec.forwardFailure
  split
  · trivial
  · exact .refl m

theorem assignHead_quiet (f : Frame V) (n p a : ℕ) :
    (Exec.assignHead m f n p a).Leaves (Quiet m) := by
  unfold Exec.assignHead
  split
  · exact (Quiet.refl m).setArc _ _
  · exact .refl m

theorem assignIncrement_quiet (f : Frame V) (n p a : ℕ) :
    (Exec.assignIncrement m f n p a).Leaves (Quiet m) := by
  rw [Exec.assignIncrement_eq]
  dsimp only
  split
  · exact ((Quiet.refl m).setOut _ _ _).setArc _ _
  · trivial

theorem moveArcs_quiet (n q t p : ℕ) (r : List ℕ) :
    (Exec.moveArcs m n q t p r).Leaves (Quiet m) := by
  cases r with
  | nil => exact .refl m
  | cons a r => exact (Quiet.refl m).setArc _ _

theorem waitBlock_quiet (n : ℕ) : (Exec.waitBlock m n).Leaves (Quiet m) := by
  unfold Exec.waitBlock
  split
  · exact .refl m
  · trivial

theorem waitDone_quiet (n : ℕ) : (Exec.waitDone m n).Leaves (Quiet m) := by
  unfold Exec.waitDone
  split
  · exact .refl m
  · trivial

theorem waitRead_quiet (v : ℕ) : (Exec.waitRead m v).Leaves (Quiet m) := by
  unfold Exec.waitRead
  split
  · trivial
  · exact .refl m

variable [Inhabited V]

/-- All but six instructions are quiet. -/
theorem exec_quiet (spurious : Bool) {ins : Instr V} (hquiet : ins.quiet = true) :
    (exec m spurious ins).Leaves (Quiet m) := by
  unfold exec
  split
  · cases ins with
    | release n k => exact release_quiet n k
    | releaseSub n k => exact releaseSub_quiet n k
    | destroy n => cases hquiet
    | freeNode n => exact freeNode_quiet n
    | deleteArc a => exact (Quiet.refl m).setArc _ _
    | releaseControl c => exact releaseControl_quiet c
    | addArc n a site => exact addArc_quiet n a site
    | addArcCas n a seen site => exact addArcCas_quiet spurious n a seen site
    | removeBackArc n p => exact removeBackArc_quiet n p
    | notifyNextWriter n p => exact notifyNextWriter_quiet n p
    | setNextWriter n p d => exact setNextWriter_quiet n p d
    | storeCountdown t canThrow count => exact storeCountdown_quiet t canThrow count
    | loadException t count => exact Quiet.refl m
    | findTerminal t count => exact findTerminal_quiet t count
    | retainTerminal t c count => exact retainTerminal_quiet t c count
    | closeList t canThrow terminal count => exact closeList_quiet t canThrow terminal count
    | loadFailureFlag t r count => exact Quiet.refl m
    | notifyArcs t canThrow failed r count => exact notifyArcs_quiet t canThrow failed r count
    | outLoad t i count refs => exact outLoad_quiet t i count refs
    | outCas t i count refs => exact outCas_quiet t i count refs
    | outSub t i count refs => exact outSub_quiet t i count refs
    | outNotify t i count refs => exact outNotify_quiet t i count refs
    | wakeup t refs => exact (Quiet.refl m).setNode ⟨rfl, rfl, rfl, rfl, rfl, rfl, id, List.prefix_rfl⟩ rfl
    | removePrerequisite n k => exact removePrerequisite_quiet n k
    | spawn n => exact Quiet.refl m
    | publish n source p => exact publish_quiet n source p
    | publishControl n source => exact publishControl_quiet n source
    | retainSignal n c => exact retainSignal_quiet n c
    | mark n b => exact Quiet.refl m
    | markLoad n b => exact Quiet.refl m
    | markCheck n b word => exact Quiet.refl m
    | markCas n b word => exact markCas_quiet spurious n b word
    | execute t => exact execute_quiet t
    | invoke t => cases hquiet
    | finish t env vals cells => cases hquiet
    | storeStart t => exact (Quiet.refl m).setNode ⟨rfl, rfl, rfl, rfl, rfl, rfl, id, List.prefix_rfl⟩ rfl
    | addLife t => exact addLife_quiet t
    | forwardFailure t => exact forwardFailure_quiet t
    | setup f => cases hquiet
    | assignHead f n p a => exact assignHead_quiet f n p a
    | assignFailure f n p a => exact Quiet.refl m
    | assignIncrement f n p a => exact assignIncrement_quiet f n p a
    | redirect n q t p a => exact (Quiet.refl m).setNode ⟨rfl, rfl, rfl, rfl, rfl, rfl, id, List.prefix_rfl⟩ rfl
    | moveArcs n q t p r => exact moveArcs_quiet n q t p r
    | bind f => exact (Quiet.refl m).setNode ⟨rfl, rfl, rfl, rfl, rfl, rfl, id, List.prefix_rfl⟩ rfl
    | moveResult f r => cases hquiet
    | runOps env ops after => cases hquiet
    | waitHead n => exact Quiet.refl m
    | waitBlock n => exact waitBlock_quiet n
    | waitDone n => exact waitDone_quiet n
    | waitStatus v => exact Quiet.refl m
    | waitRead v => exact waitRead_quiet v
  · trivial

/-! ## The other steps -/

omit [Inhabited V] in
theorem destroy_frozen (n : ℕ) : (Exec.destroy m n).Leaves (Frozen m) := by
  unfold Exec.destroy
  dsimp only
  split
  · exact Frozen.setVar (Frozen.setNode (.refl m) (by exact ⟨rfl, rfl, rfl, rfl, rfl, rfl, id, List.prefix_rfl⟩)) _ _
  · exact Frozen.setNode (.refl m) (by exact ⟨rfl, rfl, rfl, rfl, rfl, rfl, id, List.prefix_rfl⟩)

theorem invoke_frozen (t : ℕ) : (Exec.invoke m t).Leaves (Frozen m) := by
  unfold Exec.invoke
  dsimp only
  split
  · trivial
  · rename_i m₁ vals hconsume
    have hconsumed := (Frozen.refl m).consumeAll hconsume
    exact (hconsumed.setNode (by exact ⟨rfl, rfl, rfl, rfl, rfl, rfl, id, List.prefix_rfl⟩)).newVars _

omit [Inhabited V] in
theorem finish_frozen (t : ℕ) (env : List ℕ) (vals : List V) (cells : List StoragePtr) :
    (Exec.finish m t env vals cells).Leaves (Frozen m) := by
  have hwrite := (Frozen.refl m).writeCells (cells.zip ((m.node t).body.writes vals))
  unfold Exec.finish
  dsimp only
  generalize Exec.writeCells m (cells.zip ((m.node t).body.writes vals)) = m₁ at hwrite ⊢
  split
  · split
    · exact ((hwrite.setNode (by exact ⟨rfl, rfl, rfl, rfl, rfl, rfl, id, List.prefix_rfl⟩)).newControl _).newArc _
    · trivial
  · split
    · split
      · trivial
      · exact hwrite.setNode (by exact ⟨rfl, rfl, rfl, rfl, rfl, rfl, id, List.prefix_rfl⟩)
    · exact hwrite.setNode (by exact ⟨rfl, rfl, rfl, rfl, rfl, rfl, id, List.prefix_rfl⟩)
    · split
      · trivial
      · split
        · trivial
        · split
          · exact ((hwrite.setNode (by exact ⟨rfl, rfl, rfl, rfl, rfl, rfl, id, List.prefix_rfl⟩)).setVar _ _).setVar _ _
          · trivial

theorem setup_frozen (f : Frame V) : (Exec.setup m f).Leaves (Frozen m) := by
  unfold Exec.setup
  split
  · exact .refl m
  · exact .refl m
  · split
    · trivial
    · rename_i v _
      dsimp only
      split
      · split_ifs
        · trivial
        · exact ((Frozen.refl m).newNode _).setVar _ _
      · rename_i n _
        have hargs : ∀ arg, Frozen m (m.setNode f.task
            { m.node f.task with args := (m.node f.task).args ++ [arg] }) := fun arg =>
          (Frozen.refl m).setNode ⟨rfl, rfl, rfl, rfl, rfl, rfl, id, List.prefix_append _ _⟩
        split_ifs
        · trivial
        · trivial
        · trivial
        · exact ((hargs _).setVar _ _).newArc _
        · exact (hargs _).setVar _ _
        · trivial
        · exact (hargs _).newArc _

omit [Inhabited V] in
theorem assignVar_frozen {m₁ : Mem V} (h : Frozen m m₁) (v : ℕ) (r : Var)
    (next : List (Instr V)) : (Exec.assignVar m₁ v r next).Leaves (Frozen m) := by
  unfold Exec.assignVar
  dsimp only
  split
  · trivial
  · exact h.setVar _ _

omit [Inhabited V] in
theorem moveResult_frozen (f : Frame V) (r : Var) :
    (Exec.moveResult m f r).Leaves (Frozen m) := by
  unfold Exec.moveResult
  split
  · exact .refl m
  · dsimp only
    split
    · trivial
    · exact (Frozen.refl m).setVar _ _

theorem runOps_frozen (env : List ℕ) (ops : List (Op V)) (after : After V) :
    (Exec.runOps m env ops after).Leaves (Frozen m) := by
  have hrefl := Frozen.refl m
  unfold Exec.runOps
  split
  · split
    · exact ⟨le_rfl, le_rfl, le_rfl, fun _ _ => .refl _⟩
    · exact hrefl
  · rename_i op ops
    dsimp only
    split
    · split
      · trivial
      · exact assignVar_frozen hrefl _ _ _
    · split
      · trivial
      · exact assignVar_frozen (hrefl.newNode _) _ _ _
    · split
      · trivial
      · exact assignVar_frozen (hrefl.newNode _) _ _ _
    · exact (hrefl.newNode _).newVar _
    · split
      · split_ifs
        · trivial
        · trivial
        · exact assignVar_frozen (hrefl.setVar _ _) _ _ _
      · trivial
    · split
      · trivial
      · exact assignVar_frozen hrefl _ _ _
    · split
      · trivial
      · split
        · exact hrefl
        · split_ifs
          · exact hrefl
          · exact hrefl.setNode ⟨rfl, rfl, rfl, rfl, rfl, rfl, id, List.prefix_rfl⟩
    · split
      · trivial
      · split
        · trivial
        · exact hrefl
    · split
      · trivial
      · split
        · trivial
        · exact hrefl
    · split
      · split
        · trivial
        · split_ifs
          · trivial
          · exact assignVar_frozen (hrefl.setVar _ _) _ _ _
      · trivial
    · split
      · exact assignVar_frozen hrefl _ _ _
      · trivial
    · exact (hrefl.borrowVars _).newVars _

/-- No step changes the identity of a node or reuses an address. -/
theorem exec_frozen (spurious : Bool) (ins : Instr V) :
    (exec m spurious ins).Leaves (Frozen m) := by
  by_cases hquiet : ins.quiet = true
  · generalize hout : exec m spurious ins = out
    have hq := exec_quiet (m := m) spurious hquiet
    rw [hout] at hq
    cases out with
    | next m' push spawned => exact Quiet.frozen hq
    | blocked => trivial
    | fault cause => trivial
  · unfold exec
    split
    · cases ins with
      | destroy n => exact destroy_frozen n
      | invoke t => exact invoke_frozen t
      | finish t env vals cells => exact finish_frozen t env vals cells
      | setup f => exact setup_frozen f
      | moveResult f r => exact moveResult_frozen f r
      | runOps env ops after => exact runOps_frozen env ops after
      | _ => exact absurd rfl hquiet
    · trivial

end Steps

/-- Addresses are stable along every run. -/
theorem frozen_of_reach [Inhabited V] {allowed : State V → Turn → Prop} {c c' : State V}
    (h : Reach exec allowed c c') : Frozen c.mem c'.mem := by
  induction h with
  | start => exact .refl _
  | step e _ _ hstep ih =>
    obtain ⟨ins, rest, push, spawned, _, hexec, _⟩ := Config.step_cases hstep
    exact ih.trans ((exec_frozen e.choice ins).of_next hexec)

end Oox
