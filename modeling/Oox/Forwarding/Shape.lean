import Oox.Analysis.IssueChanges

/-!
# What a storage pointer points to

A var that is not forwarded points to a `result_state` or to nothing; a forwarded one points
to the var object in the `result_state` of the forwarding task that owns it. This holds in
every reachable state of every program, whatever happened to the var since it was bound.
-/

set_option autoImplicit false

namespace Oox

open Library

variable {V : Type}

/-- `storage_ptr` points to what `is_forwarded` says. -/
structure VarShape (m : Mem V) (u : Var) : Prop where
  plain : u.isForwarded = false → ∀ v, u.storage ≠ .varObject v
  forwarded : u.isForwarded = true → ∃ o < m.nodes.size, u.owner = some o ∧
    (m.node o).resultKind = .var ∧ u.storage = .varObject (m.node o).inner

/-- Every var has the shape its flags say, and the var object of a task is allocated. -/
structure Shaped (m : Mem V) : Prop where
  var : ∀ v, VarShape m (m.var v)
  inner : ∀ n < m.nodes.size, (m.node n).resultKind = .var → (m.node n).inner < m.vars.size
  lt : ∀ n, (m.node n).status = .live → n < m.nodes.size

variable {m m' m₁ : Mem V}

theorem VarShape.empty (m : Mem V) : VarShape m {} where
  plain _ _ := nofun
  forwarded := nofun

/-- The shape of a var does not depend on its task and its history. -/
theorem VarShape.of_eq {u u' : Var} (h : VarShape m u) (hfwd : u'.isForwarded = u.isForwarded)
    (hstorage : u'.storage = u.storage) (howner : u'.owner = u.owner) : VarShape m u' where
  plain := by
    rw [hfwd, hstorage]
    exact h.plain
  forwarded := by
    rw [hfwd, hstorage, howner]
    exact h.forwarded

theorem VarShape.frozen {u : Var} (h : VarShape m u) (hf : Frozen m m') : VarShape m' u where
  plain := h.plain
  forwarded hu := by
    obtain ⟨o, ho, howner, hkind, hstorage⟩ := h.forwarded hu
    have hsame := hf.node o ho
    exact ⟨o, ho.trans_le hf.nodes_le, howner, by rw [hsame.resultKind, hkind],
      by rw [hsame.inner, hstorage]⟩

theorem resultVar_shape {x : Node V} {t : ℕ} (ht : t < m.nodes.size) (hx : m.node t = x) :
    VarShape m (resultVar x t) := by
  unfold resultVar
  constructor
  · cases hkind : x.resultKind <;> simp
  · cases hkind : x.resultKind
    · simp
    · simp
    · intro _
      exact ⟨t, ht, rfl, by rw [hx, hkind], by rw [hx]⟩

theorem storageNode_plain [Inhabited V] {v : V} : (storageNode v).resultKind ≠ .var := by
  change ResultKind.void ≠ .var
  decide

theorem deferredNode_plain [Inhabited V] : (deferredNode : Node V).resultKind ≠ .var := by
  change ResultKind.void ≠ .var
  decide

theorem storageVar_shape (n : ℕ) (isDeferred canThrow : Bool) :
    VarShape m (storageVar n isDeferred canThrow) where
  plain _ _ := nofun
  forwarded := nofun

namespace Shaped

theorem of_vars (h : Shaped m) (hf : Frozen m m') (hsize : m'.nodes.size = m.nodes.size)
    (hlive : ∀ n, (m'.node n).status = .live → (m.node n).status = .live)
    (hvars : ∀ v, VarShape m (m'.var v)) : Shaped m' where
  var v := (hvars v).frozen hf
  inner n hn hkind := by
    have hn' : n < m.nodes.size := by omega
    have hsame := hf.node n hn'
    rw [hsame.inner]
    rw [hsame.resultKind] at hkind
    exact (h.inner n hn' hkind).trans_le hf.vars_le
  lt n hn := hsize ▸ h.lt n (hlive n hn)

theorem quiet (h : Shaped m) (hq : Quiet m m') : Shaped m' :=
  h.of_vars hq.frozen hq.nodes_size (fun n => (hq.node n).1.live) fun v => by
    rw [hq.var]
    exact h.var v

theorem newArc (h : Shaped m) (x : Arc) : Shaped (m.newArc x) :=
  h.quiet ((Quiet.refl m).newArc x)

theorem newControl (h : Shaped m) (x : Control) : Shaped (m.newControl x) :=
  h.quiet ((Quiet.refl m).newControl x)

theorem setNode (h : Shaped m) {n : ℕ} {x : Node V} (hx : SameNode (m.node n) x) :
    Shaped (m.setNode n x) := by
  refine h.of_vars ((Frozen.refl m).setNode hx) rfl (fun j => ?_) h.var
  rw [Mem.node_setNode]
  split
  · rename_i heq
    subst heq
    exact hx.live
  · exact id

theorem setVar (h : Shaped m) {v : ℕ} {u : Var} (hu : VarShape m u) : Shaped (m.setVar v u) := by
  refine h.of_vars ((Frozen.refl m).setVar v u) rfl (fun _ => id) fun w => ?_
  rw [Mem.var_setVar]
  split
  · exact hu
  · exact h.var w

theorem newVar (h : Shaped m) {u : Var} (hu : VarShape m u) : Shaped (m.newVar u) := by
  refine h.of_vars ((Frozen.refl m).newVar u) rfl (fun _ => id) fun w => ?_
  rw [Mem.var_newVar]
  split
  · exact hu
  · exact h.var w

theorem newVars (h : Shaped m) (k : ℕ) : Shaped (m.newVars k) := by
  induction k generalizing m with
  | zero => exact h
  | succ k ih => exact ih (h.newVar (.empty m))

theorem lt_newNode (h : Shaped m) (x : Node V) (n : ℕ)
    (hn : ((m.newNode x).node n).status = .live) : n < (m.newNode x).nodes.size := by
  rw [Mem.nodes_newNode_size]
  rw [Mem.node_newNode] at hn
  split at hn
  · omega
  · exact (h.lt n hn).trans (Nat.lt_succ_self _)

/-- A new storage node has no var object. -/
theorem newNode (h : Shaped m) {x : Node V} (hkind : x.resultKind ≠ .var) :
    Shaped (m.newNode x) where
  var v := (h.var v).frozen ((Frozen.refl m).newNode x)
  inner n hn := by
    rw [Mem.node_newNode]
    split
    · intro hvar
      exact absurd hvar hkind
    · rename_i hne
      exact h.inner n (by rw [Mem.nodes_newNode_size] at hn; omega)
  lt := h.lt_newNode x

/-- A new task has a new var object. -/
theorem newTask (h : Shaped m) {x : Node V} (hinner : x.inner = m.vars.size) :
    Shaped ((m.newNode x).newVar {}) where
  var v := by
    rw [Mem.var_newVar, Mem.vars_newNode, Mem.var_newNode]
    split
    · exact .empty _
    · exact (h.var v).frozen (((Frozen.refl m).newNode x).newVar {})
  inner n hn hkind := by
    rw [Mem.vars_newVar_size, Mem.vars_newNode]
    rw [Mem.node_newVar, Mem.node_newNode] at hkind ⊢
    split
    · omega
    · rename_i hne
      rw [if_neg hne] at hkind
      have hlt := h.inner n (by
        rw [Mem.nodes_newVar, Mem.nodes_newNode_size] at hn
        omega) hkind
      omega
  lt := h.lt_newNode x

/-- Emptying a var keeps its shape. -/
theorem emptyVar (h : Shaped m) (v : ℕ) :
    Shaped (m.setVar v { m.var v with currentTask := none }) :=
  h.setVar ((h.var v).of_eq rfl rfl rfl)

/-- A value written over a var object leaves its storage pointer alone. -/
theorem clobber (h : Shaped m) (v : ℕ) : Shaped (m.clobber v) :=
  h.setVar ((h.var v).of_eq rfl rfl rfl)

theorem writeCells (h : Shaped m) (cells : List (StoragePtr × V)) :
    Shaped (Exec.writeCells m cells) := by
  induction cells generalizing m with
  | nil => exact h
  | cons cell rest ih =>
    obtain ⟨p, v⟩ := cell
    cases p with
    | result n => exact ih (h.setNode ⟨rfl, rfl, rfl, rfl, rfl, rfl, id, List.prefix_rfl⟩)
    | varObject u => exact ih (h.clobber u)
    | null => exact ih h
    | task n => exact ih h

theorem borrowVars (h : Shaped m) (vs : List ℕ) : Shaped (Exec.borrowVars m vs) := by
  induction vs generalizing m with
  | nil => exact h
  | cons v vs ih =>
    have hset : Shaped (m.setVar v { m.var v with shared := !(m.var v).borrowed }) :=
      h.setVar ((h.var v).of_eq rfl rfl rfl)
    refine ih (hset.newVar ?_)
    exact ((h.var v).frozen ((Frozen.refl m).setVar _ _)).of_eq rfl rfl rfl

variable [Inhabited V]

theorem consume (h : Shaped m) {mode : AccessMode} {p : ArgPtr} {v : V}
    (hc : Exec.consume m mode p = .ok (m₁, v)) : Shaped m₁ := by
  unfold Exec.consume at hc
  split at hc
  · cases hc
  · cases hc
  · dsimp only at hc
    split at hc
    · cases hc
    · split at hc
      · cases hc
        exact h
      · cases hc
        exact h.setNode ⟨rfl, rfl, rfl, rfl, rfl, rfl, id, List.prefix_rfl⟩
      · cases hc
  · split at hc
    · cases hc
      exact h.clobber _
    · cases hc

theorem consumeAll (h : Shaped m) {args : List VarArg} {vs : List V}
    (hc : Exec.consumeAll m args = .ok (m₁, vs)) : Shaped m₁ := by
  induction args generalizing m m₁ vs with
  | nil =>
    cases hc
    exact h
  | cons arg rest ih =>
    simp only [Exec.consumeAll] at hc
    split at hc
    · cases hc
    · rename_i m₂ v hfirst
      split at hc
      · cases hc
      · rename_i m₃ vs' hrest
        cases hc
        exact ih (h.consume hfirst) hrest

end Shaped

/-! ## The steps that change vars -/

section Steps

variable {m : Mem V}

theorem destroy_shaped (h : Shaped m) (n : ℕ) : (Exec.destroy m n).Leaves Shaped := by
  unfold Exec.destroy
  dsimp only
  split
  · refine Shaped.setVar (h.setNode (by exact ⟨rfl, rfl, rfl, rfl, rfl, rfl, id, List.prefix_rfl⟩)) ?_
    exact ((h.var _).frozen ((Frozen.refl m).setNode (by exact ⟨rfl, rfl, rfl, rfl, rfl, rfl, id, List.prefix_rfl⟩))).of_eq rfl rfl rfl
  · exact h.setNode (by exact ⟨rfl, rfl, rfl, rfl, rfl, rfl, id, List.prefix_rfl⟩)

theorem finish_shaped (h : Shaped m) (t : ℕ) (env : List ℕ) (vals : List V)
    (cells : List StoragePtr) : (Exec.finish m t env vals cells).Leaves Shaped := by
  have hwrite := h.writeCells (cells.zip ((m.node t).body.writes vals))
  unfold Exec.finish
  dsimp only
  generalize Exec.writeCells m (cells.zip ((m.node t).body.writes vals)) = m₁ at hwrite ⊢
  have hnode : ∀ x, SameNode (m₁.node t) x → Shaped (m₁.setNode t x) := fun x => hwrite.setNode
  split
  · split
    · exact ((hnode _ (by exact ⟨rfl, rfl, rfl, rfl, rfl, rfl, id, List.prefix_rfl⟩)).newControl _).newArc _
    · trivial
  · split
    · split
      · trivial
      · exact hnode _ (by exact ⟨rfl, rfl, rfl, rfl, rfl, rfl, id, List.prefix_rfl⟩)
    · exact hnode _ (by exact ⟨rfl, rfl, rfl, rfl, rfl, rfl, id, List.prefix_rfl⟩)
    · split
      · trivial
      · rename_i w _
        split
        · trivial
        · split
          · have hsame : ∀ x, SameNode (m₁.node t) x → VarShape (m₁.setNode t x) (m₁.var w) :=
              fun x hx => (hwrite.var w).frozen ((Frozen.refl m₁).setNode hx)
            refine Shaped.setVar (Shaped.setVar (hnode _ (by exact ⟨rfl, rfl, rfl, rfl, rfl, rfl, id, List.prefix_rfl⟩)) ?_) ?_
            · exact (hsame _ (by exact ⟨rfl, rfl, rfl, rfl, rfl, rfl, id, List.prefix_rfl⟩)).of_eq rfl rfl rfl
            · exact (hsame _ (by exact ⟨rfl, rfl, rfl, rfl, rfl, rfl, id, List.prefix_rfl⟩)).frozen ((Frozen.refl _).setVar _ _)
          · trivial

theorem assignVar_shaped {v : ℕ} {r : Var} (h : Shaped m) (hr : VarShape m r)
    (next : List (Instr V)) : (Exec.assignVar m v r next).Leaves Shaped := by
  unfold Exec.assignVar
  dsimp only
  split
  · trivial
  · exact h.setVar hr

theorem moveResult_shaped (h : Shaped m) (f : Frame V) {r : Var} (hr : VarShape m r) :
    (Exec.moveResult m f r).Leaves Shaped := by
  unfold Exec.moveResult
  split
  · exact h
  · dsimp only
    split
    · trivial
    · exact h.setVar hr

variable [Inhabited V]

theorem invoke_shaped (h : Shaped m) (t : ℕ) : (Exec.invoke m t).Leaves Shaped := by
  unfold Exec.invoke
  dsimp only
  split
  · trivial
  · rename_i m₁ vals hconsume
    exact ((h.consumeAll hconsume).setNode (by exact ⟨rfl, rfl, rfl, rfl, rfl, rfl, id, List.prefix_rfl⟩)).newVars _

theorem setup_shaped (h : Shaped m) (f : Frame V) : (Exec.setup m f).Leaves Shaped := by
  unfold Exec.setup
  split
  · exact h
  · exact h
  · split
    · trivial
    · rename_i v _
      dsimp only
      split
      · split
        · trivial
        · exact (h.newNode storageNode_plain).setVar (storageVar_shape _ _ _)
      · have hargs : ∀ arg, Shaped (m.setNode f.task
            { m.node f.task with args := (m.node f.task).args ++ [arg] }) := fun arg =>
          h.setNode ⟨rfl, rfl, rfl, rfl, rfl, rfl, id, List.prefix_append _ _⟩
        have hvar : ∀ arg, VarShape (m.setNode f.task
            { m.node f.task with args := (m.node f.task).args ++ [arg] }) (m.var v) :=
          fun arg => (hargs arg).var v
        split
        · split_ifs
          · trivial
          · trivial
          · trivial
          · exact Shaped.newArc ((hargs _).setVar (by exact (hvar _).of_eq rfl rfl rfl)) _
          · exact (hargs _).setVar (by exact (hvar _).of_eq rfl rfl rfl)
        · split
          · trivial
          · exact (hargs _).newArc _

theorem runOps_shaped (h : Shaped m) (env : List ℕ) (ops : List (Op V)) (after : After V) :
    (Exec.runOps m env ops after).Leaves Shaped := by
  have hempty : ∀ s, Shaped (m.setVar s { m.var s with currentTask := none }) := h.emptyVar
  have hmoved : ∀ s u, VarShape (m.setVar s u) (m.var s) :=
    fun s u => (h.var s).frozen ((Frozen.refl m).setVar s u)
  unfold Exec.runOps
  split
  · split
    · exact ⟨fun v => ⟨(h.var v).plain, (h.var v).forwarded⟩, h.inner, h.lt⟩
    · exact h
  · rename_i op ops
    dsimp only
    split
    · split
      · trivial
      · exact assignVar_shaped h (by constructor <;> nofun) _
    · split
      · trivial
      · exact assignVar_shaped (h.newNode storageNode_plain) (storageVar_shape _ _ _) _
    · split
      · trivial
      · exact assignVar_shaped (h.newNode deferredNode_plain) (storageVar_shape _ _ _) _
    · exact h.newTask rfl
    · split
      · rename_i s _ _
        split
        · trivial
        · split
          · trivial
          · exact assignVar_shaped (hempty s) (hmoved s _) _
      · trivial
    · split
      · trivial
      · rename_i w _
        exact assignVar_shaped h (by exact (h.var w).of_eq rfl rfl rfl) _
    · split
      · trivial
      · split
        · exact h
        · split
          · exact h
          · exact h.setNode (by exact ⟨rfl, rfl, rfl, rfl, rfl, rfl, id, List.prefix_rfl⟩)
    · split
      · trivial
      · split
        · trivial
        · exact h
    · split
      · trivial
      · split
        · trivial
        · exact h
    · split
      · rename_i s _ _
        split
        · trivial
        · split
          · trivial
          · exact assignVar_shaped (hempty s) (hmoved s _) _
      · trivial
    · split
      · exact assignVar_shaped h (h.var _) _
      · trivial
    · exact (h.borrowVars _).newVars _

/-- Every step keeps the shape of all vars. -/
theorem exec_shaped (h : Shaped m) (spurious : Bool) {ins : Instr V}
    (hins : ∀ r, ins.returns = some r → VarShape m r) :
    (exec m spurious ins).Leaves Shaped := by
  by_cases hquiet : ins.quiet = true
  · have hq := exec_quiet (m := m) spurious hquiet
    generalize exec m spurious ins = out at hq
    cases out with
    | next m' push spawned => exact h.quiet hq
    | blocked => trivial
    | fault cause => trivial
  · unfold exec
    split
    · cases ins with
      | destroy n => exact destroy_shaped h n
      | invoke t => exact invoke_shaped h t
      | finish t env vals cells => exact finish_shaped h t env vals cells
      | setup f => exact setup_shaped h f
      | moveResult f r => exact moveResult_shaped h f (hins r rfl)
      | runOps env ops after => exact runOps_shaped h env ops after
      | _ => exact absurd rfl hquiet
    · trivial

end Steps

/-! ## Every reachable state -/

/-- The shape of all vars, those in memory and those about to be returned. -/
structure Shapely (c : State V) : Prop where
  mem : Shaped c.mem
  stack : ∀ l ∈ c.threads, ∀ ins ∈ l, ∀ r, ins.returns = some r → VarShape c.mem r

variable [Inhabited V]

theorem initial_shapely (locals : ℕ) (ops : List (Op V)) : Shapely (initial locals ops) where
  mem := by
    refine Shaped.newVars ⟨fun v => .empty _, ?_, ?_⟩ locals
    · intro n hn
      cases hn
    · intro n hn
      cases hn
  stack l hl ins hins r hr := by
    obtain rfl := List.mem_singleton.mp hl
    obtain rfl := List.mem_singleton.mp hins
    cases hr

/-- The var that `bind_to` returns. -/
theorem bind_returned {m m' : Mem V} {push : List (Instr V)} {spawned : List (List (Instr V))}
    {spurious : Bool} {f : Frame V} (h : Shaped m)
    (hexec : exec m spurious (.bind f) = .next m' push spawned) :
    ∀ j ∈ push, ∀ r, j.returns = some r → VarShape m' r := by
  have hf := (exec_frozen spurious (.bind f)).of_next hexec
  have hlive := (sees_of_exec hexec).live f.task List.mem_cons_self
  unfold exec at hexec
  split at hexec
  · cases hexec
    intro j hj r hr
    rcases List.mem_cons.mp hj with rfl | hj
    · cases hr
    · obtain rfl := List.mem_singleton.mp hj
      cases hr
      exact (resultVar_shape (h.lt _ hlive) rfl).frozen hf
  · cases hexec

theorem Shapely.step {c c' : State V} {e : Turn} (h : Shapely c)
    (hstep : c.step exec e = some c') : Shapely c' := by
  obtain ⟨ins, rest, push, spawned, htop, hexec, hthreads⟩ := Config.step_cases hstep
  have hmem : ins :: rest ∈ c.threads := List.mem_of_getElem? htop
  have hfrozen := (exec_frozen e.choice ins).of_next hexec
  have hold : ∀ l ∈ c.threads, ∀ j ∈ l, ∀ r, j.returns = some r → VarShape c'.mem r :=
    fun l hl j hj r hr => (h.stack l hl j hj r hr).frozen hfrozen
  have hpush : ∀ j ∈ push, ∀ r, j.returns = some r → VarShape c'.mem r := by
    intro j hj r hr
    by_cases hbind : ∃ f, ins = .bind f
    · obtain ⟨f, rfl⟩ := hbind
      exact bind_returned h.mem hexec j hj r hr
    · rw [exec_returns (fun f hf => hbind ⟨f, hf⟩) hexec j hj] at hr
      cases hr
  refine ⟨(exec_shaped h.mem e.choice (h.stack _ hmem ins List.mem_cons_self)).of_next hexec, ?_⟩
  rw [hthreads]
  intro l hl j hj r hr
  rcases List.mem_append.mp hl with hl | hl
  · rcases List.mem_or_eq_of_mem_set hl with hl | rfl
    · exact hold l hl j hj r hr
    · rcases List.mem_append.mp hj with hj | hj
      · exact hpush j hj r hr
      · exact hold _ hmem j (List.mem_cons_of_mem _ hj) r hr
  · rw [exec_spawned_returns hexec l hl j hj] at hr
    cases hr

theorem Shapely.reach {allowed : State V → Turn → Prop} {c c' : State V} (hc : Shapely c)
    (h : Reach exec allowed c c') : Shapely c' :=
  h.invariant hc fun _ _ _ hc _ hstep => hc.step hstep

/-- In every reachable state of every program `storage_ptr` points to what `is_forwarded`
says. -/
theorem shapely_of_reach {allowed : State V → Turn → Prop} {locals : ℕ} {ops : List (Op V)}
    {c : State V} (h : Reach exec allowed (initial locals ops) c) : Shapely c :=
  (initial_shapely locals ops).reach h

end Oox
