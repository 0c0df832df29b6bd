import Oox.Ports.Spends

/-!
# Claims in `execute`, `run` and the user's operations

A new node brings the claims on its ports: those of a storage node go to its var, those of a task
to the call of `run`, which gives one to each var it writes and keeps port 0 for its result.
-/

set_option autoImplicit false

namespace Oox

open Library

variable {V : Type} {m m' : Mem V} {push : List (Instr V)} {spawned : List (List (Instr V))}

/-! ## execute -/

theorem execute_spends {t : ℕ} (h : Exec.execute m t = .next m' push spawned) :
    SpendsClaims m (.execute t) m' push spawned := by
  simp only [Exec.execute] at h
  intro k
  split_ifs at h <;> cases h <;> simp [Instr.claims, claimBalance_setNode_head]

theorem consume_claims [Inhabited V] {mode : AccessMode} {p : ArgPtr} {v : V}
    (h : Exec.consume m mode p = .ok (m', v)) (k : Claim) :
    claimBalance m' k ≤ claimBalance m k := by
  unfold Exec.consume at h
  split at h
  · cases h
  · cases h
  · dsimp only at h
    split at h
    · cases h
    · split at h <;> cases h
      · exact le_rfl
      · exact (claimBalance_setNode_head m k (by rfl)).le
  · split at h <;> cases h
    exact claimBalance_clobber m k _

theorem consumeAll_claims [Inhabited V] {args : List VarArg} {vs : List V}
    (h : Exec.consumeAll m args = .ok (m', vs)) (k : Claim) :
    claimBalance m' k ≤ claimBalance m k := by
  induction args generalizing m m' vs with
  | nil =>
    cases h
    exact le_rfl
  | cons arg rest ih =>
    simp only [Exec.consumeAll] at h
    split at h
    · cases h
    · rename_i m₁ v hfirst
      split at h
      · cases h
      · rename_i m₂ vs' hrest
        cases h
        exact (ih hrest).trans (consume_claims hfirst k)

theorem invoke_spends [Inhabited V] {t : ℕ} (h : Exec.invoke m t = .next m' push spawned) :
    SpendsClaims m (.invoke t) m' push spawned := by
  simp only [Exec.invoke] at h
  split at h
  · cases h
  · rename_i m₁ vals hconsume
    cases h
    intro k
    have hle := consumeAll_claims hconsume k
    rw [claimBalance_newVars, claimBalance_setNode_head m₁ k (by rfl)]
    simpa [Instr.claims] using hle

theorem writeCells_claims (cells : List (StoragePtr × V)) (k : Claim) :
    claimBalance (Exec.writeCells m cells) k ≤ claimBalance m k := by
  induction cells generalizing m with
  | nil => exact le_rfl
  | cons cell rest ih =>
    obtain ⟨p, v⟩ := cell
    cases p with
    | null => exact ih
    | task n => exact ih
    | result n => exact ih.trans (claimBalance_setNode_head m k (by rfl)).le
    | varObject u => exact ih.trans (claimBalance_clobber m k u)

/-- The returned var passes to the result of the task. -/
theorem claimBalance_return {w v : ℕ} (hw : w < m.vars.size) (k : Claim) :
    claimBalance ((m.setVar w { m.var w with currentTask := none }).setVar v (m.var w)) k ≤
      claimBalance m k := by
  have hput := claimBalance_setVar_add (m.setVar w { m.var w with currentTask := none }) k v
    (m.var w)
  rw [claimBalance_setVar m k hw, Var.claims_empty (by rfl)] at hput
  omega

theorem finish_spends [Inhabited V] {t : ℕ} {env : List ℕ} {vals : List V}
    {cells : List StoragePtr} (henv : m.Binds env)
    (h : Exec.finish m t env vals cells = .next m' push spawned) :
    SpendsClaims m (.finish t env vals cells) m' push spawned := by
  have hwritten := writeCells_written (m := m) (cells.zip ((m.node t).body.writes vals))
  have hle := writeCells_claims (m := m) (cells.zip ((m.node t).body.writes vals))
  simp only [Exec.finish] at h
  generalize Exec.writeCells m (cells.zip ((m.node t).body.writes vals)) = m₁ at h hwritten hle
  intro k
  have hlek := hle k
  split at h
  · split at h <;> cases h
    rw [claimBalance_newArc, claimBalance_newControl, claimBalance_setNode_head m₁ k (by rfl)]
    simp [Instr.claims, AddSite.claims, hwritten.arcs]
    exact hlek
  · split at h
    · split at h <;> cases h
      rw [claimBalance_setNode_head m₁ k (by rfl)]
      simpa [Instr.claims] using hlek
    · cases h
      rw [claimBalance_setNode_head m₁ k (by rfl)]
      simpa [Instr.claims] using hlek
    · split at h
      · cases h
      · rename_i w hw
        split at h
        · cases h
        · split at h <;> cases h
          have hlt : w < m₁.vars.size := by
            rw [hwritten.vars_size]
            exact henv w (List.mem_of_getElem? hw)
          have hreturn := claimBalance_return (m := m₁.setNode t { m₁.node t with
            locals := (m₁.node t).locals ++ env, innerSet := true }) (v := (m₁.node t).inner) hlt k
          rw [claimBalance_setNode_head m₁ k (by rfl)] at hreturn
          have htotal := hreturn.trans hlek
          simpa [Instr.claims] using htotal

theorem storeStart_spends {t : ℕ} (h : Exec.storeStart m t = .next m' push spawned) :
    SpendsClaims m (.storeStart t) m' push spawned := by
  cases h
  intro k
  simp [Instr.claims, claimBalance_setNode_head]

theorem addLife_spends {t : ℕ} (h : Exec.addLife m t = .next m' push spawned) :
    SpendsClaims m (.addLife t) m' push spawned := by
  simp only [Exec.addLife] at h
  intro k
  split at h <;> cases h
  rw [claimBalance_newArc, claimBalance_setNode_head m k (by rfl)]
  simp [Instr.claims, AddSite.claims]

theorem forwardFailure_spends {t : ℕ} (h : Exec.forwardFailure m t = .next m' push spawned) :
    SpendsClaims m (.forwardFailure t) m' push spawned := by
  simp only [Exec.forwardFailure] at h
  intro k
  split at h <;> cases h
  split <;> simp [Instr.claims]

/-! ## run -/

/-- A value takes all ports of its new storage node. -/
theorem claims_storageVar {x : Node V} (hhead : ∀ k, x.head.claims k = 0) (isDeferred canThrow : Bool)
    (k : Claim) : claimBalance (m.newNode x) k +
      (storageVar m.nodes.size isDeferred canThrow).claims k ≤ claimBalance m k := by
  have hvar := Var.claims_le (u := storageVar m.nodes.size isDeferred canThrow)
    (n := m.nodes.size) rfl k
  rw [claimBalance_newNode, hhead]
  omega

/-- A written var takes the next port of the task. -/
theorem claims_given {m₁ : Mem V} {f f' : Frame V} {v : ℕ} {u : Var} (k : Claim)
    (hbal : claimBalance m₁ k = claimBalance m k) (hport : 1 ≤ f.port) (htask : f'.task = f.task)
    (hnext : f'.port = f.port + 1) (hnode : u.currentTask = some f.task)
    (hnamed : u.currentPort = f.port) :
    claimBalance (m₁.setVar v u) k + f'.claims k ≤ claimBalance m k + f.claims k := by
  have hput := claimBalance_setVar_add m₁ k v u
  have hgive := Frame.claims_next htask hnext hport hnode hnamed k
  omega

theorem writer_spends {m₁ : Mem V} {f f' : Frame V} {v n q : ℕ} {d : NextWriter} {u : Var}
    (hbal : ∀ k, claimBalance m₁ k = claimBalance m k) (hport : 1 ≤ f.port)
    (htask : f'.task = f.task) (hnext : f'.port = f.port + 1) (hnode : u.currentTask = some f.task)
    (hnamed : u.currentPort = f.port) :
    SpendsClaims m (.setup f) (m₁.setVar v u) [.setNextWriter n q d, .setup f'] [] := by
  intro k
  have hgive := claims_given (v := v) k (hbal k) hport htask hnext hnode hnamed
  simp only [Instr.claims, stackSum_cons, stackSum_nil, threadSum_nil]
  omega

/-- The redirect descriptor is a new arc. -/
theorem writer_deferred_spends {m₁ : Mem V} {f f' : Frame V} {v n q t p a : ℕ} {u : Var} {x : Arc}
    (hbal : ∀ k, claimBalance m₁ k = claimBalance m k) (ha : a = m₁.arcs.size)
    (hport : 1 ≤ f.port) (htask : f'.task = f.task) (hnext : f'.port = f.port + 1)
    (hnode : u.currentTask = some f.task) (hnamed : u.currentPort = f.port) :
    SpendsClaims m (.setup f) ((m₁.setVar v u).newArc x) [.redirect n q t p a, .setup f'] [] := by
  intro k
  have hgive := claims_given (v := v) k (hbal k) hport htask hnext hnode hnamed
  subst ha
  simp only [claimBalance_newArc, Mem.arcs_setVar, Instr.claims, stackSum_cons, stackSum_nil,
    threadSum_nil]
  omega

theorem setup_spends [Inhabited V] {f : Frame V} (hport : 1 ≤ f.port)
    (h : Exec.setup m f = .next m' push spawned) : SpendsClaims m (.setup f) m' push spawned := by
  simp only [Exec.setup] at h
  split at h
  · cases h
    intro k
    simp [Instr.claims]
  · rename_i rest _
    cases h
    intro k
    have hrest : Frame.claims { f with args := rest } k = f.claims k :=
      Frame.claims_congr rfl rfl k
    simp [Instr.claims]
    exact hrest.le
  · rename_i x mode rest hargs
    split at h
    · cases h
    · rename_i v henv
      split at h
      · rename_i hempty
        split at h <;> cases h
        intro k
        have hput := claimBalance_setVar_add (m.newNode (storageNode default)) k v
          (storageVar m.nodes.size false (m.var v).canThrow)
        have hstorage := claims_storageVar (m := m) (x := storageNode (default : V))
          (fun _ => rfl) false (m.var v).canThrow k
        simp only [Instr.claims, stackSum_cons, stackSum_nil, threadSum_nil]
        omega
      · rename_i n htask
        have hrecord : ∀ (k : Claim) (arg : VarArg), claimBalance (m.setNode f.task
            { m.node f.task with args := (m.node f.task).args ++ [arg] }) k = claimBalance m k :=
          fun k arg => claimBalance_setNode_head m k (by rfl)
        split at h
        · split at h
          · cases h
          · split at h
            · cases h
            · split at h
              · cases h
              · split at h <;> cases h
                · exact writer_deferred_spends (fun k => hrecord k _) rfl hport rfl rfl rfl rfl
                · exact writer_spends (fun k => hrecord k _) hport rfl rfl rfl rfl
        · split at h <;> cases h
          intro k
          have hrest : Frame.claims { f with args := rest } k = f.claims k :=
            Frame.claims_congr rfl rfl k
          rw [claimBalance_newArc, hrecord]
          simp only [Instr.claims, AddSite.claims, stackSum_cons, stackSum_nil, threadSum_nil,
            Mem.arcs_setNode]
          omega

theorem assignHead_spends {f : Frame V} {n p a : ℕ}
    (h : Exec.assignHead m f n p a = .next m' push spawned) :
    SpendsClaims m (.assignHead f n p a) m' push spawned := by
  simp only [Exec.assignHead] at h
  intro k
  split at h <;> cases h <;> simp [Instr.claims, AddSite.claims]

theorem assignFailure_spends {f : Frame V} {n p a : ℕ}
    (h : Exec.assignFailure m f n p a = .next m' push spawned) :
    SpendsClaims m (.assignFailure f n p a) m' push spawned := by
  cases h
  intro k
  split <;> simp [Instr.claims]

theorem assignIncrement_spends {f : Frame V} {n p a : ℕ}
    (h : Exec.assignIncrement m f n p a = .next m' push spawned) :
    SpendsClaims m (.assignIncrement f n p a) m' push spawned := by
  simp only [Exec.assignIncrement_eq] at h
  intro k
  split at h <;> cases h
  simp [Instr.claims, AddSite.claims]

/-- The descriptor takes the place of the list. -/
theorem redirect_spends {n q t p a : ℕ} (hn : n < m.nodes.size)
    (h : Exec.redirect m n q t p a = .next m' push spawned) :
    SpendsClaims m (.redirect n q t p a) m' push spawned := by
  cases h
  intro k
  rw [claimBalance_setNode m k hn]
  cases hhead : (m.node n).head with
  | list l =>
    simp [Instr.claims]
    omega
  | _ =>
    have hnonneg := (m.node n).head.claims_nonneg k
    rw [hhead] at hnonneg
    simp [Instr.claims]
    exact hnonneg

theorem moveArcs_spends {n q t p : ℕ} {r : List ℕ}
    (h : Exec.moveArcs m n q t p r = .next m' push spawned) :
    SpendsClaims m (.moveArcs n q t p r) m' push spawned := by
  intro k
  cases r with
  | nil =>
    cases h
    simp [Instr.claims]
  | cons a r =>
    cases h
    have hcons := listClaims_cons a r k
    simp [Instr.claims, AddSite.claims]
    omega

theorem bind_spends {f : Frame V} (h : Exec.bind m f = .next m' push spawned) :
    SpendsClaims m (.bind f) m' push spawned := by
  cases h
  intro k
  have hresult : (resultVar (m.node f.task) f.task).claims k ≤ f.claims k := by
    unfold resultVar
    split <;> exact Frame.claims_result rfl rfl k
  rw [claimBalance_setNode_head m k (by rfl)]
  simpa [Instr.claims] using hresult

theorem moveResult_spends {f : Frame V} {r : Var}
    (h : Exec.moveResult m f r = .next m' push spawned) :
    SpendsClaims m (.moveResult f r) m' push spawned := by
  intro k
  have hr := r.claims_nonneg k
  simp only [Exec.moveResult] at h
  split at h
  · cases h
    rw [stackSum_append, (unclaimed_releaseVar _).sum]
    simpa [Instr.claims] using hr
  · rename_i v _
    split at h <;> cases h
    have hput := claimBalance_setVar_add m k v r
    rw [stackSum_append, (unclaimed_releaseVar _).sum]
    simpa [Instr.claims] using hput

/-! ## The operations of a thread -/

theorem assignVar_spends {m₁ : Mem V} {ins : Instr V} {v : ℕ} {r : Var} {next : List (Instr V)}
    (hnext : Unclaimed next)
    (hle : ∀ k, claimBalance m₁ k + r.claims k ≤ claimBalance m k)
    (h : Exec.assignVar m₁ v r next = .next m' push spawned) :
    SpendsClaims m ins m' push spawned := by
  simp only [Exec.assignVar] at h
  split at h <;> cases h
  apply spends_of_unclaimed
  · exact fun k => (claimBalance_setVar_add m₁ k v r).trans (hle k)
  · intro j hj k
    rcases List.mem_append.mp hj with hmem | hmem
    · exact unclaimed_releaseVar _ j hmem k
    · exact hnext j hmem k

theorem borrowVars_claims (vs : List ℕ) (k : Claim) :
    claimBalance (Exec.borrowVars m vs) k ≤ claimBalance m k := by
  induction vs generalizing m with
  | nil => exact le_rfl
  | cons v vs ih =>
    refine ih.trans ?_
    rw [claimBalance_newVar, Var.claims_borrowed (by rfl), add_zero]
    exact claimBalance_setVar_le m k (Var.claims_congr (by rfl) (by rfl) (by rfl) k).le

theorem unclaimed_next (env : List ℕ) (ops : List (Op V)) (after : After V) :
    Unclaimed [.runOps env ops after] := by
  intro j hj k
  obtain rfl := List.mem_singleton.mp hj
  rfl

/-- A call of `run` takes all ports of its new task. -/
theorem run_spends {ins : Instr V} {x : Node V} {f : Frame V} (hhead : ∀ k, x.head.claims k = 0)
    (htask : f.task = m.nodes.size) :
    SpendsClaims m ins ((m.newNode x).newVar {}) [.setup f] [] := by
  intro k
  have hframe := f.claims_le k
  have hins := ins.claims_nonneg k
  rw [htask] at hframe
  rw [claimBalance_newVar, claimBalance_newNode, Var.claims_empty rfl, hhead]
  simp only [Instr.claims, stackSum_cons, stackSum_nil, threadSum_nil] at hins ⊢
  omega

/-- A moved var leaves nothing behind. -/
theorem claims_moved {s : ℕ} {u : Var} (hs : s < m.vars.size) (hu : u.currentTask = none)
    (k : Claim) : claimBalance (m.setVar s u) k + (m.var s).claims k ≤ claimBalance m k := by
  rw [claimBalance_setVar m k hs, Var.claims_empty hu]
  omega

theorem runOps_spends [Inhabited V] {env : List ℕ} {ops : List (Op V)} {after : After V}
    (henv : m.Binds env) (hregular : (Instr.runOps env ops after).Regular)
    (h : Exec.runOps m env ops after = .next m' push spawned) :
    SpendsClaims m (.runOps env ops after) m' push spawned := by
  unfold Exec.runOps at h
  split at h
  · split at h <;> cases h
    · intro k
      cases k <;> simp [Instr.claims, claimBalance]
    · intro k
      simp [Instr.claims]
  · rename_i op rest
    have hnext := unclaimed_next env rest after
    have hsame : SpendsClaims m (.runOps env (op :: rest) after) m [.runOps env rest after] [] :=
      spends_of_unclaimed (fun _ => le_rfl) hnext
    dsimp only at h
    split at h
    · split at h
      · cases h
      · refine assignVar_spends hnext (fun k => ?_) h
        rw [Var.claims_empty rfl, add_zero]
    · split at h
      · cases h
      · exact assignVar_spends hnext (claims_storageVar (fun _ => rfl) _ _) h
    · split at h
      · cases h
      · exact assignVar_spends hnext (claims_storageVar (x := deferredNode)
          (fun k => listClaims_nil k) _ _) h
    · cases h
      exact run_spends (fun k => listClaims_nil k) rfl
    · split at h
      · rename_i dst src _ _ d s hd hs
        split at h
        · cases h
        · split at h
          · cases h
          · have hlt := henv s (List.mem_of_getElem? hs)
            exact assignVar_spends hnext (fun k => claims_moved hlt (by rfl) k) h
      · cases h
    · split at h
      · cases h
      · refine assignVar_spends hnext (fun k => ?_) h
        rw [Var.claims_empty (by rfl), add_zero]
    · split at h
      · cases h
      · split at h
        · cases h
          exact hsame
        · split at h <;> cases h
          · exact hsame
          · intro k
            simp [Instr.claims, claimBalance_setNode_head]
    · split at h
      · cases h
      · split at h <;> cases h
        intro k
        simp [Instr.claims]
    · split at h
      · cases h
      · split at h <;> cases h
        intro k
        simp [Instr.claims]
    · split at h
      · rename_i dst src _ _ d s hd hs
        split at h
        · cases h
        · split at h
          · cases h
          · have hlt := henv s (List.mem_of_getElem? hs)
            refine assignVar_spends ?_ (fun k => claims_moved hlt (by rfl) k) h
            intro j hj k
            rcases List.mem_cons.mp hj with rfl | hmem
            · rfl
            · exact hnext j hmem k
      · cases h
    · exact hregular.elim
    · rename_i xs locals ops'
      cases h
      intro k
      have hborrow := borrowVars_claims (m := m) (xs.filterMap fun x => env[x]?) k
      simpa [Instr.claims] using hborrow

/-! ## Every step -/

/-- No step makes a claim on an object that already was. -/
theorem PortStep.spends [Inhabited V] {spurious : Bool} {ins : Instr V}
    (h : PortStep m spurious ins m' push spawned) : SpendsClaims m ins m' push spawned := by
  have hok := h.ok
  have hlt : ∀ n ∈ touches m ins, n < m.nodes.size := fun n => h.allocated
  have hstep := h.step
  unfold exec at hstep
  rw [if_pos h.inLifetime] at hstep
  cases ins with
  | release n k => exact release_spends hstep
  | releaseSub n k => exact releaseSub_spends hstep
  | destroy n => exact destroy_spends hstep
  | freeNode n => exact freeNode_spends hstep
  | deleteArc a => exact deleteArc_spends hstep
  | releaseControl c => exact releaseControl_spends hstep
  | addArc n a site => exact addArc_spends hstep
  | addArcCas n a seen site => exact addArcCas_spends (hlt n List.mem_cons_self) hstep
  | removeBackArc n p => exact removeBackArc_spends hstep
  | notifyNextWriter n p => exact notifyNextWriter_spends hstep
  | setNextWriter n p d => exact setNextWriter_spends hstep
  | storeCountdown t canThrow count => exact storeCountdown_spends hstep
  | loadException t count => exact loadException_spends hstep
  | findTerminal t count => exact findTerminal_spends hstep
  | retainTerminal t c count => exact retainTerminal_spends hstep
  | closeList t canThrow terminal count => exact closeList_spends hok.node hstep
  | loadFailureFlag t r count =>
    cases hstep
    intro k
    simp [Instr.claims]
  | notifyArcs t canThrow failed r count => exact notifyArcs_spends hstep
  | outLoad t i count refs => exact outLoad_spends hstep
  | outCas t i count refs => exact outCas_spends hstep
  | outSub t i count refs => exact outSub_spends hstep
  | outNotify t i count refs => exact outNotify_spends hstep
  | wakeup t refs => exact wakeup_spends hstep
  | removePrerequisite n k => exact removePrerequisite_spends hstep
  | spawn n => exact spawn_spends hstep
  | publish n source p => exact publish_spends hstep
  | publishControl n source => exact publishControl_spends hstep
  | retainSignal n c => exact retainSignal_spends hstep
  | mark n b => exact mark_spends hstep
  | markLoad n b => exact markLoad_spends hstep
  | markCheck n b word => exact markCheck_spends hstep
  | markCas n b word => exact markCas_spends hstep
  | execute t => exact execute_spends hstep
  | invoke t => exact invoke_spends hstep
  | finish t env vals cells => exact finish_spends hok hstep
  | storeStart t => exact storeStart_spends hstep
  | addLife t => exact addLife_spends hstep
  | forwardFailure t => exact forwardFailure_spends hstep
  | setup f =>
    have hport : 1 ≤ f.port := by
      have := hok.port
      omega
    exact setup_spends hport hstep
  | assignHead f n p a => exact assignHead_spends hstep
  | assignFailure f n p a => exact assignFailure_spends hstep
  | assignIncrement f n p a => exact assignIncrement_spends hstep
  | redirect n q t p a => exact redirect_spends hok.1.node hstep
  | moveArcs n q t p r => exact moveArcs_spends hstep
  | bind f => exact bind_spends hstep
  | moveResult f r => exact moveResult_spends hstep
  | runOps env ops after => exact runOps_spends hok h.regular hstep
  | waitHead n =>
    cases hstep
    intro k
    split <;> simp [Instr.claims]
  | waitBlock n =>
    simp only [Exec.waitBlock] at hstep
    intro k
    split at hstep <;> cases hstep
    simp [Instr.claims]
  | waitDone n =>
    simp only [Exec.waitDone] at hstep
    intro k
    split at hstep <;> cases hstep
    simp [Instr.claims]
  | waitStatus v =>
    cases hstep
    intro k
    simp [Instr.claims]
  | waitRead v =>
    simp only [Exec.waitRead] at hstep
    intro k
    split at hstep <;> cases hstep
    simp [Instr.claims]

end Oox
