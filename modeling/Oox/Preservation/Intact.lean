import Oox.Analysis.Returns
import Oox.Conservation.Execution

/-!
# Var objects that no body writes over

A body that takes a var object for its argument and writes to it destroys the pointer of the var.
In a run in which no body is given such an argument to write, all vars stay intact: the storages
on a control stack are those that some body was given.
-/

set_option autoImplicit false

namespace Oox

open Library

variable {V : Type}

/-- The `current_task` of every var is a pointer. -/
def Mem.Intact (m : Mem V) : Prop := ∀ v, (m.var v).wild = false

/-- No body is invoked with a var object as an argument that it writes. -/
def Instr.Spares (m : Mem V) : Instr V → Prop
  | .invoke t => ∀ arg ∈ (m.node t).args, arg.mode.isWriter = true →
      ∀ v, Exec.resolve m arg.ptr ≠ .varObject v
  | _ => True

/-- The check of `Instr.Spares` on a computed run. -/
def spares (m : Mem V) : Instr V → Bool
  | .invoke t => (m.node t).args.all fun arg =>
      !arg.mode.isWriter || match Exec.resolve m arg.ptr with
        | .varObject _ => false
        | _ => true
  | _ => true

theorem spares_of_check {m : Mem V} {ins : Instr V} (h : spares m ins = true) : ins.Spares m := by
  cases ins with
  | invoke t =>
    intro arg harg hwriter v hresolve
    have hcheck := List.all_eq_true.mp h arg harg
    rw [hwriter, hresolve] at hcheck
    cases hcheck
  | _ => trivial

/-- An admitted step writes over no var object. -/
theorem Instr.Tame.spares {m : Mem V} {ins : Instr V} (h : ins.Tame m) : ins.Spares m := by
  cases ins with
  | invoke t => exact h
  | _ => trivial

/-! ## The storages a body writes to -/

/-- The storages that the body which a thread is in will write to. -/
def After.cells : After V → List StoragePtr
  | .exit => []
  | .body _ _ cells => cells

/-- The same for a call of `add_arc` in the set-up of a task. -/
def AddSite.cells : AddSite V → List StoragePtr
  | .assign f _ => f.after.cells
  | .assignTo f _ => f.after.cells
  | .ownBack f => f.after.cells
  | _ => []

/-- The same for an instruction. -/
def Instr.cells : Instr V → List StoragePtr
  | .addArc _ _ site => site.cells
  | .addArcCas _ _ _ site => site.cells
  | .finish _ _ _ cells => cells
  | .setup f => f.after.cells
  | .assignHead f _ _ _ => f.after.cells
  | .assignFailure f _ _ _ => f.after.cells
  | .assignIncrement f _ _ _ => f.after.cells
  | .bind f => f.after.cells
  | .moveResult f _ => f.after.cells
  | .runOps _ _ after => after.cells
  | _ => []

section Cells

variable {m m' : Mem V} {push : List (Instr V)} {spawned : List (List (Instr V))}

/-- Releasing a var writes to no storage. -/
theorem releaseVar_cells (u : Var) : ∀ j ∈ (releaseVar u : List (Instr V)), j.cells = [] := by
  intro j hj
  unfold releaseVar at hj
  split at hj
  · cases hj
  · obtain rfl := List.mem_singleton.mp hj
    rfl

/-- An instruction that carries nothing writes to no storage. -/
theorem cells_of_bare {j : Instr V} (hj : j.bare = true) : j.cells = [] := by
  have hsite : ∀ {site : AddSite V}, site.bare = true → site.cells = [] := by
    intro site hs
    cases site with
    | assign f a => cases hs
    | assignTo f a => cases hs
    | ownBack f => cases hs
    | _ => rfl
  cases j with
  | addArc n a site => exact hsite hj
  | addArcCas n a seen site => exact hsite hj
  | finish t env vals cells => cases hj
  | setup f => cases hj
  | assignHead f n p a => cases hj
  | assignFailure f n p a => cases hj
  | assignIncrement f n p a => cases hj
  | bind f => cases hj
  | moveResult f r => cases hj
  | runOps env ops after => cases hj
  | _ => rfl

/-- What `add_arc` goes on with after a success stays in the same body. -/
theorem added_cells (n : ℕ) (site : AddSite V) :
    ∀ j ∈ Exec.added n site, j.cells ⊆ site.cells := by
  cases site <;> simp [Exec.added, Instr.cells, AddSite.cells]

/-- What `add_arc` goes on with after a failure stays in the same body. -/
theorem rejected_cells {n a : ℕ} {site : AddSite V}
    (h : Exec.rejected m n a site = .next m' push spawned) : ∀ j ∈ push, j.cells ⊆ site.cells := by
  cases site with
  | forward t =>
    cases h
    split <;> simp [Instr.cells]
  | ownBack f => cases h
  | back => cases h
  | moved => cases h
  | _ =>
    cases h
    simp [Instr.cells, AddSite.cells]

/-- What precedes instructions of the same body adds no storage. -/
theorem append_cells {l l' : List (Instr V)} {cells : List StoragePtr}
    (hl : ∀ j ∈ l, j.cells = []) (hl' : ∀ j ∈ l', j.cells ⊆ cells) :
    ∀ j ∈ l ++ l', j.cells ⊆ cells := by
  intro j hj
  rcases List.mem_append.mp hj with hj | hj
  · rw [hl j hj]
    exact List.nil_subset _
  · exact hl' j hj

/-- Assigning a var goes on in the same body. -/
theorem assignVar_cells {v : ℕ} {r : Var} {next : List (Instr V)} {cells : List StoragePtr}
    (h : Exec.assignVar m v r next = .next m' push spawned)
    (hnext : ∀ j ∈ next, j.cells ⊆ cells) : ∀ j ∈ push, j.cells ⊆ cells := by
  unfold Exec.assignVar at h
  dsimp only at h
  split at h
  · cases h
  · cases h
    exact append_cells (releaseVar_cells _) hnext

/-- The end of a call of `run` goes on in the body of the caller. -/
theorem moveResult_cells {f : Frame V} {r : Var}
    (h : Exec.moveResult m f r = .next m' push spawned) : ∀ j ∈ push, j.cells ⊆ f.after.cells := by
  have hnext : ∀ (u : Var) (j : Instr V),
      j ∈ releaseVar u ++ [Instr.runOps f.env f.ops f.after] → j.cells ⊆ f.after.cells :=
    fun u => append_cells (releaseVar_cells u) (by simp [Instr.cells])
  unfold Exec.moveResult at h
  dsimp only at h
  repeat' split at h
  all_goals
    cases h
    try exact hnext _

/-- An addition to a list goes on in the body of the call. -/
theorem addArcCas_cells {spurious : Bool} {n a : ℕ} {seen : List ℕ} {site : AddSite V}
    (h : Exec.addArcCas m spurious n a seen site = .next m' push spawned) :
    ∀ j ∈ push, j.cells ⊆ site.cells := by
  unfold Exec.addArcCas at h
  split at h
  · cases site with
    | forward t =>
      cases h
      simp
    | _ =>
      cases h
      exact added_cells n _
  · cases h
    simp [Instr.cells]

variable [Inhabited V]

/-- An operation goes on in the same body. -/
theorem runOps_cells {env : List ℕ} {ops : List (Op V)} {after : After V}
    (h : Exec.runOps m env ops after = .next m' push spawned) :
    ∀ j ∈ push, j.cells ⊆ after.cells := by
  unfold Exec.runOps at h
  cases ops with
  | nil => cases after <;> cases h <;> simp [Instr.cells, After.cells]
  | cons op ops =>
    cases op <;> dsimp only at h <;> repeat' split at h
    all_goals first
      | exact assignVar_cells h (by simp [Instr.cells])
      | (cases h; simp [Instr.cells])
      | cases h

/-- A body that is called will write to the storages of the arguments that its task writes. -/
theorem invoke_cells {t : ℕ} (h : Exec.invoke m t = .next m' push spawned) :
    ∀ j ∈ push, j.cells = Exec.writtenCells m (m.node t).args := by
  simp only [Exec.invoke] at h
  split at h
  · cases h
  · cases h
    simp [Instr.cells, After.cells]

/-- No other step adds a storage. -/
theorem exec_cells {spurious : Bool} {ins : Instr V} (hins : ∀ t, ins ≠ .invoke t)
    (h : exec m spurious ins = .next m' push spawned) : ∀ j ∈ push, j.cells ⊆ ins.cells := by
  cases hbare : ins.pushesBare with
  | true =>
    intro j hj
    rw [cells_of_bare (exec_bare hbare h j hj)]
    exact List.nil_subset _
  | false =>
    unfold exec at h
    split at h
    · cases ins with
      | invoke t => exact absurd rfl (hins t)
      | runOps env ops after => exact runOps_cells h
      | moveResult f r => exact moveResult_cells h
      | addArcCas n a seen site => exact addArcCas_cells h
      | addArc n a site =>
        simp only [Exec.addArc] at h
        split at h
        · cases h
          simp [Instr.cells]
        · exact rejected_cells h
      | destroy n =>
        simp only [Exec.destroy] at h
        split at h <;> cases h
        · exact append_cells (releaseVar_cells _) (by simp [Instr.cells])
        · simp [Instr.cells]
      | moveArcs n q t p r => cases r <;> cases h <;> simp [Instr.cells, AddSite.cells]
      | bind f =>
        cases h
        simp [Instr.cells]
      | setup f =>
        simp only [Exec.setup] at h
        repeat' split at h
        all_goals
          cases h
          try simp [Instr.cells, AddSite.cells]
      | assignHead f n p a =>
        simp only [Exec.assignHead] at h
        split at h <;> cases h <;> simp [Instr.cells, AddSite.cells]
      | assignFailure f n p a =>
        cases h
        split <;> simp [Instr.cells]
      | assignIncrement f n p a =>
        simp only [Exec.assignIncrement_eq] at h
        repeat' split at h
        all_goals
          cases h
          try simp [Instr.cells, AddSite.cells]
      | redirect n q t p a =>
        simp only [Exec.redirect] at h
        repeat' split at h
        all_goals
          cases h
          try simp [Instr.cells]
      | _ => cases hbare
    · cases h

/-- A new thread is in no body. -/
theorem exec_spawned_cells {spurious : Bool} {ins : Instr V}
    (h : exec m spurious ins = .next m' push spawned) :
    ∀ l ∈ spawned, ∀ j ∈ l, j.cells = [] := by
  intro l hl
  rcases exec_spawned h l hl with ⟨n, rfl⟩ | ⟨env, ops, rfl⟩ <;> simp [Instr.cells, After.cells]

end Cells

/-! ## Intact vars -/

namespace Mem.Intact

variable {m m' : Mem V}

theorem setVar (h : m.Intact) {v : ℕ} {u : Var} (hu : u.wild = false) : (m.setVar v u).Intact := by
  intro w
  rw [Mem.var_setVar]
  split
  · exact hu
  · exact h w

theorem newVar (h : m.Intact) {u : Var} (hu : u.wild = false) : (m.newVar u).Intact := by
  intro w
  rw [Mem.var_newVar]
  split
  · exact hu
  · exact h w

theorem newVars (h : m.Intact) (k : ℕ) : (m.newVars k).Intact := by
  induction k generalizing m with
  | zero => exact h
  | succ k ih => exact ih (h.newVar rfl)

theorem borrowVars (h : m.Intact) (vs : List ℕ) : (Exec.borrowVars m vs).Intact := by
  induction vs generalizing m with
  | nil => exact h
  | cons v vs ih =>
    have hset : (m.setVar v { m.var v with shared := !(m.var v).borrowed }).Intact :=
      h.setVar (h v)
    exact ih (hset.newVar (h v))

theorem of_vars (h : m.Intact) (hvars : m'.vars = m.vars) : m'.Intact := by
  intro v
  unfold Mem.var
  rw [hvars]
  exact h v

end Mem.Intact

section Steps

variable {m : Mem V}

theorem destroy_intact (h : m.Intact) (n : ℕ) : (Exec.destroy m n).Leaves Mem.Intact := by
  unfold Exec.destroy
  dsimp only
  split
  · exact Mem.Intact.setVar (m := m.setNode n _) h (h _)
  · exact h

/-- A body that gets only values to write leaves all vars intact. -/
theorem finish_intact (h : m.Intact) (t : ℕ) (env : List ℕ) (vals : List V)
    {cells : List StoragePtr} (hcells : ∀ v, .varObject v ∉ cells) :
    (Exec.finish m t env vals cells).Leaves Mem.Intact := by
  have hwrite : (Exec.writeCells m (cells.zip ((m.node t).body.writes vals))).Intact := by
    refine h.of_vars (writeCells_same fun x hx w hw => hcells w ?_).vars
    exact hw ▸ (List.of_mem_zip hx).1
  unfold Exec.finish
  dsimp only
  generalize Exec.writeCells m (cells.zip ((m.node t).body.writes vals)) = m₁ at hwrite ⊢
  have hreturn : ∀ w v x, (((m₁.setNode t x).setVar w { m₁.var w with currentTask := none }).setVar v
      (m₁.var w)).Intact := by
    intro w v x
    have hempty : ((m₁.setNode t x).setVar w { m₁.var w with currentTask := none }).Intact :=
      Mem.Intact.setVar (m := m₁.setNode t x) hwrite (hwrite w)
    exact hempty.setVar (hwrite w)
  repeat' split
  all_goals first
    | trivial
    | exact hwrite
    | exact hreturn _ _ _

theorem assignVar_intact {v : ℕ} {r : Var} (h : m.Intact) (hr : r.wild = false)
    (next : List (Instr V)) : (Exec.assignVar m v r next).Leaves Mem.Intact := by
  unfold Exec.assignVar
  dsimp only
  split
  · trivial
  · exact h.setVar hr

theorem moveResult_intact (h : m.Intact) (f : Frame V) {r : Var} (hr : r.wild = false) :
    (Exec.moveResult m f r).Leaves Mem.Intact := by
  unfold Exec.moveResult
  dsimp only
  repeat' split
  · exact h
  · trivial
  · exact h.setVar hr

variable [Inhabited V]

/-- A body that is given only values to write leaves all vars intact. -/
theorem invoke_intact (h : m.Intact) {t : ℕ} (hspares : (Instr.invoke t).Spares m) :
    (Exec.invoke m t).Leaves Mem.Intact := by
  unfold Exec.invoke
  dsimp only
  split
  · trivial
  · rename_i m₁ vals hconsume
    have h₁ : m₁.Intact := h.of_vars (consumeAll_same hspares hconsume).vars
    exact Mem.Intact.newVars (m := m₁.setNode t _) h₁ _

theorem setup_intact (h : m.Intact) (f : Frame V) : (Exec.setup m f).Leaves Mem.Intact := by
  unfold Exec.setup
  dsimp only
  repeat' split
  all_goals first
    | trivial
    | exact h
    | exact Mem.Intact.setVar (m := m.newNode _) h rfl
    | exact Mem.Intact.setVar (m := m.setNode _ _) h (h _)

theorem runOps_intact (h : m.Intact) (env : List ℕ) (ops : List (Op V)) (after : After V) :
    (Exec.runOps m env ops after).Leaves Mem.Intact := by
  have hempty : ∀ s, (m.setVar s { m.var s with currentTask := none }).Intact :=
    fun s => h.setVar (h s)
  unfold Exec.runOps
  dsimp only
  repeat' split
  all_goals first
    | trivial
    | exact h
    | exact assignVar_intact h rfl _
    | exact assignVar_intact h (h _) _
    | exact assignVar_intact (r := { m.var _ with currentTask := none }) h (h _) _
    | exact assignVar_intact (m := m.newNode _) h rfl _
    | exact assignVar_intact (hempty _) (h _) _
    | exact Mem.Intact.newVar (m := m.newNode _) h rfl
    | exact (h.borrowVars _).newVars _

/-- A step that writes over no var object leaves all vars intact. -/
theorem exec_intact (h : m.Intact) (spurious : Bool) {ins : Instr V} (hspares : ins.Spares m)
    (hcells : ∀ v, .varObject v ∉ ins.cells) (hins : ∀ r, ins.returns = some r → r.wild = false) :
    (exec m spurious ins).Leaves Mem.Intact := by
  by_cases hquiet : ins.quiet = true
  · have hq := exec_quiet (m := m) spurious hquiet
    generalize exec m spurious ins = out at hq
    cases out with
    | next m' push spawned => exact h.of_vars hq.vars
    | blocked => trivial
    | fault cause => trivial
  · unfold exec
    split
    · cases ins with
      | destroy n => exact destroy_intact h n
      | invoke t => exact invoke_intact h hspares
      | finish t env vals cells => exact finish_intact h t env vals hcells
      | setup f => exact setup_intact h f
      | moveResult f r => exact moveResult_intact h f (hins r rfl)
      | runOps env ops after => exact runOps_intact h env ops after
      | _ => exact absurd rfl hquiet
    · trivial

end Steps

/-! ## Runs -/

/-- All vars are intact, and no body on a stack will write over one. -/
structure Intact (c : State V) : Prop where
  mem : c.mem.Intact
  cells : ∀ l ∈ c.threads, ∀ ins ∈ l, ∀ v, .varObject v ∉ ins.cells
  returned : ∀ l ∈ c.threads, ∀ ins ∈ l, ∀ r, ins.returns = some r → r.wild = false

/-- A turn that invokes no body with a var object as an argument that it writes. -/
def SparingTurn (c : State V) (e : Turn) : Prop :=
  ∀ ins rest, c.threads[e.thread]? = some (ins :: rest) → ins.Spares c.mem

namespace Intact

variable [Inhabited V] {c c' : State V} {e : Turn}

theorem start (locals : ℕ) (ops : List (Op V)) : Intact (initial locals ops) where
  mem := Mem.Intact.newVars (fun _ => rfl) locals
  cells l hl ins hins v hv := by
    obtain rfl := List.mem_singleton.mp hl
    obtain rfl := List.mem_singleton.mp hins
    cases hv
  returned l hl ins hins r hr := by
    obtain rfl := List.mem_singleton.mp hl
    obtain rfl := List.mem_singleton.mp hins
    cases hr

/-- A sparing step keeps the vars intact. -/
theorem step (h : Intact c) (he : SparingTurn c e) (hstep : c.step exec e = some c') :
    Intact c' := by
  obtain ⟨ins, rest, push, spawned, htop, hexec, hthreads⟩ := Config.step_cases hstep
  have hl : ins :: rest ∈ c.threads := List.mem_of_getElem? htop
  have hspares := he ins rest htop
  have hcells : ∀ j ∈ push, ∀ v, .varObject v ∉ j.cells := by
    intro j hj v hv
    by_cases hinvoke : ∃ t, ins = .invoke t
    · obtain ⟨t, rfl⟩ := hinvoke
      have hsees := sees_of_exec hexec
      rw [exec, if_pos (inLifetime_iff.mpr hsees)] at hexec
      rw [invoke_cells hexec j hj] at hv
      obtain ⟨arg, harg, hresolve⟩ := List.mem_map.mp hv
      obtain ⟨hmem, hmode⟩ := List.mem_filter.mp harg
      exact hspares arg hmem hmode v hresolve
    · exact h.cells _ hl ins List.mem_cons_self v
        (exec_cells (fun t ht => hinvoke ⟨t, ht⟩) hexec j hj hv)
  have hreturned : ∀ j ∈ push, ∀ r, j.returns = some r → r.wild = false := by
    intro j hj r hr
    by_cases hbind : ∃ f, ins = .bind f
    · obtain ⟨f, rfl⟩ := hbind
      have hsees := sees_of_exec hexec
      rw [exec, if_pos (inLifetime_iff.mpr hsees)] at hexec
      generalize c'.mem = m' at hexec
      cases hexec
      rcases List.mem_cons.mp hj with rfl | hj
      · cases hr
      · obtain rfl := List.mem_singleton.mp hj
        cases hr
        unfold resultVar
        split <;> rfl
    · rw [exec_returns (fun f hf => hbind ⟨f, hf⟩) hexec j hj] at hr
      cases hr
  refine ⟨(exec_intact h.mem e.choice hspares (h.cells _ hl ins List.mem_cons_self)
    (h.returned _ hl ins List.mem_cons_self)).of_next hexec, ?_, ?_⟩
  · rw [hthreads]
    intro l hl' j hj v hv
    rcases List.mem_append.mp hl' with hl' | hl'
    · rcases List.mem_or_eq_of_mem_set hl' with hold | rfl
      · exact h.cells l hold j hj v hv
      · rcases List.mem_append.mp hj with hj | hj
        · exact hcells j hj v hv
        · exact h.cells _ hl j (List.mem_cons_of_mem _ hj) v hv
    · rw [exec_spawned_cells hexec l hl' j hj] at hv
      cases hv
  · rw [hthreads]
    intro l hl' j hj r hr
    rcases List.mem_append.mp hl' with hl' | hl'
    · rcases List.mem_or_eq_of_mem_set hl' with hold | rfl
      · exact h.returned l hold j hj r hr
      · rcases List.mem_append.mp hj with hj | hj
        · exact hreturned j hj r hr
        · exact h.returned _ hl j (List.mem_cons_of_mem _ hj) r hr
    · rw [exec_spawned_returns hexec l hl' j hj] at hr
      cases hr

/-- In a run that writes over no var object all vars are intact. -/
theorem of_reach {allowed : State V → Turn → Prop} {locals : ℕ} {ops : List (Op V)}
    (hallowed : ∀ c e, allowed c e → SparingTurn c e)
    (h : Reach exec allowed (initial locals ops) c) : Intact c :=
  h.invariant (start locals ops) fun c _ e hc he hstep => hc.step (hallowed c e he) hstep

end Intact

end Oox
