import Oox.Analysis.Changes

/-!
# What the issuing thread can change

The instructions of `oox::run`, of the end of a body and of the user's operations; then the
theorem that collects all instructions.
-/

set_option autoImplicit false

namespace Oox

open Library

variable {V : Type} [Inhabited V] {m : Mem V}

/-! ## The end of a body -/

theorem Written.changes {m₁ : Mem V} {t : ℕ} {env : List ℕ} {vals : List V}
    {cells cells' : List StoragePtr} (h : Written cells' m m₁)
    (hsub : ∀ p ∈ cells', p ∈ cells) : Changes (.finish t env vals cells) m m₁ where
  nodeAt n _ := by
    obtain ⟨result, heq, hresult⟩ := h.node n
    rw [heq]
    exact { NodeChange.refl _ m n (m.node n) with result := hresult }
  arcAt a _ := by
    unfold Mem.arc
    rw [h.arcs]
    exact .inl rfl
  var v _ := (h.var v).imp id fun hv => .inl ⟨v, hsub _ hv⟩
  controlAt c _ := by
    unfold Mem.control
    rw [h.controls]
    exact ⟨rfl, id⟩
  controls_le := by rw [h.controls]
  newNode n hge hlt := absurd hlt (by rw [h.nodes_size]; omega)
  newArc a hge hlt := absurd hlt (by rw [h.arcs]; omega)
  newControl c hge hlt := absurd hlt (by rw [h.controls]; omega)

theorem mem_of_mem_zip_fst {α β : Type} {l : List α} {l' : List β} {x : α}
    (hx : x ∈ (l.zip l').map Prod.fst) : x ∈ l := by
  obtain ⟨⟨a, b⟩, hab, rfl⟩ := List.mem_map.mp hx
  exact (List.of_mem_zip hab).1

theorem finish_changes (t : ℕ) (env : List ℕ) (vals : List V) (cells : List StoragePtr) :
    (Exec.finish m t env vals cells).Leaves (Changes (.finish t env vals cells) m) := by
  have hwritten := writeCells_written (m := m) (cells.zip ((m.node t).body.writes vals))
  have hsub : ∀ p ∈ (cells.zip ((m.node t).body.writes vals)).map Prod.fst, p ∈ cells :=
    fun p => mem_of_mem_zip_fst
  unfold Exec.finish
  dsimp only
  generalize Exec.writeCells m (cells.zip ((m.node t).body.writes vals)) = m₁ at hwritten ⊢
  have h : Changes (.finish t env vals cells) m m₁ := hwritten.changes hsub
  obtain ⟨result, heq, hresult⟩ := hwritten.node t
  have hsize := hwritten.nodes_size
  split
  · split
    · have hrun : Changes (.finish t env vals cells) m
          (m₁.setNode t { m₁.node t with locals := (m₁.node t).locals ++ env }) := by
        refine h.setNode hsize ?_
        rw [heq]
        exact { NodeChange.refl _ m t (m.node t) with
          result := hresult, run := .inr ⟨rfl, rfl, rfl, rfl, rfl⟩ }
      have hcontrols : m₁.controls.size = m.controls.size := congrArg Heap.size hwritten.controls
      have hthrown : Changes (.finish t env vals cells) m
          ((m₁.setNode t { m₁.node t with locals := (m₁.node t).locals ++ env }).newControl
            ⟨1, t, true⟩) := hrun.addControl hcontrols rfl
      exact hthrown.addArc (congrArg Heap.size hwritten.arcs) rfl
    · trivial
  · split
    · split
      · trivial
      · refine h.setNode hsize ?_
        rw [heq]
        exact { NodeChange.refl _ m t (m.node t) with
          result := .inr rfl, run := .inr ⟨rfl, rfl, rfl, rfl, rfl⟩ }
    · refine h.setNode hsize ?_
      rw [heq]
      exact { NodeChange.refl _ m t (m.node t) with
        result := hresult, run := .inr ⟨rfl, rfl, rfl, rfl, rfl⟩ }
    · rename_i hkind
      rw [heq] at hkind
      split
      · trivial
      · rename_i w hw
        split
        · trivial
        · split
          · rename_i hown
            have hret : Changes (.finish t env vals cells) m
                (m₁.setNode t { m₁.node t with
                  locals := (m₁.node t).locals ++ env, innerSet := true }) := by
              refine h.setNode hsize ?_
              rw [heq]
              exact { NodeChange.refl _ m t (m.node t) with
                innerSet := .inr ⟨rfl, rfl, hkind⟩, result := hresult
                run := .inr ⟨rfl, rfl, rfl, rfl, rfl⟩ }
            have henv : w ∈ env := List.mem_of_getElem? hw
            refine Changes.setVar (hret.setVar ?_) ?_
            · rcases hwritten.var w with hvar | hcell
              · rw [hvar] at hown ⊢
                exact .inr (.inr ⟨henv, ⟨by simpa using hown.2.1, by simpa using hown.2.2⟩, rfl⟩)
              · exact .inl ⟨w, hsub _ hcell⟩
            · rcases hwritten.var w with hvar | hcell
              · rw [hvar] at hown ⊢
                rw [heq]
                exact .inr (.inl ⟨rfl, w, henv, ⟨by simpa using hown.2.1, by simpa using hown.2.2⟩,
                  rfl⟩)
              · exact .inl ⟨w, hsub _ hcell⟩
          · trivial

/-! ## The arguments of `run` -/

theorem setup_changes (f : Frame V) : (Exec.setup m f).Leaves (Changes (.setup f) m) := by
  unfold Exec.setup
  split
  · exact .refl _ m
  · exact .refl _ m
  · rename_i x mode rest hargs
    split
    · trivial
    · rename_i v henv
      have hv : v ∈ f.env := List.mem_of_getElem? henv
      dsimp only
      split
      · rename_i hempty
        split
        · trivial
        · rename_i hown
          have hnew : Changes (.setup f) m (m.newNode (storageNode default)) :=
            (Changes.refl _ m).addNode rfl rfl
          refine hnew.setVar ?_
          exact ⟨hv, Var.own_of_not hown, .inl ⟨hempty, rfl⟩⟩
      · rename_i n htask
        have hrecord : Changes (.setup f) m (m.setNode f.task { m.node f.task with
            args := (m.node f.task).args ++
              [⟨mode, Exec.argPtr (m.var v), (n, (m.var v).currentPort)⟩] }) :=
          (Changes.refl _ m).setNode rfl { NodeChange.refl _ m f.task (m.node f.task) with
            args := .inr ⟨rfl, x, mode, rest, v, n, hargs, henv, htask, rfl⟩ }
        split
        · rename_i hwriter
          have hwrites : f.Writes := ⟨x, mode, rest, hargs, hwriter⟩
          split
          · trivial
          · rename_i hown
            have hwrite : VarChange m v (m.var v) { m.var v with
                currentTask := some f.task, currentPort := f.port, isDeferred := false }
                (.setup f) :=
              ⟨hv, Var.own_of_not hown, .inr ⟨hwrites, rfl⟩⟩
            split_ifs
            · trivial
            · trivial
            · exact Changes.addArc (hrecord.setVar hwrite) rfl
                ⟨v, n, hv, htask, .inl ⟨hwrites, rfl⟩⟩
            · exact hrecord.setVar hwrite
        · split
          · trivial
          · exact hrecord.addArc rfl ⟨v, n, hv, htask, .inr rfl⟩

theorem assignHead_changes (f : Frame V) (n p a : ℕ) :
    (Exec.assignHead m f n p a).Leaves (Changes (.assignHead f n p a) m) := by
  unfold Exec.assignHead
  split
  · rename_i d hhead
    exact (Changes.refl _ m).setArc rfl ⟨rfl, d, hhead, rfl⟩
  · exact .refl _ m

theorem assignIncrement_changes (f : Frame V) (n p a : ℕ) :
    (Exec.assignIncrement m f n p a).Leaves (Changes (.assignIncrement f n p a) m) := by
  rw [Exec.assignIncrement_eq]
  dsimp only
  split
  · rename_i hk
    have hcount : Changes (.assignIncrement f n p a) m (m.setOut n p
        { (m.node n).out p with countdown := ((m.node n).out p).countdown + 1 }) :=
      (Changes.refl _ m).setOut rfl rfl (.inl rfl) (.inr ⟨rfl, rfl, rfl, hk⟩) id (.inl rfl)
        (.inl rfl)
    exact hcount.setArc rfl ⟨rfl, rfl⟩
  · trivial

theorem redirect_changes (n q t p a : ℕ) :
    (Exec.redirect m n q t p a).Leaves (Changes (.redirect n q t p a) m) :=
  (Changes.refl _ m).setNode rfl { NodeChange.refl _ m n (m.node n) with
    head := .inr ⟨rfl, rfl⟩, phase := .inl rfl }

theorem moveArcs_changes (n q t p : ℕ) (r : List ℕ) :
    (Exec.moveArcs m n q t p r).Leaves (Changes (.moveArcs n q t p r) m) := by
  cases r with
  | nil => exact .refl _ m
  | cons a r => exact (Changes.refl _ m).setArc rfl ⟨rfl, rfl⟩

theorem bind_changes (f : Frame V) : (Exec.bind m f).Leaves (Changes (.bind f) m) :=
  (Changes.refl _ m).setNode rfl { NodeChange.refl _ m f.task (m.node f.task) with
    head := .inl rfl, phase := .inr ⟨rfl, rfl⟩ }

theorem moveResult_changes (f : Frame V) (r : Var) :
    (Exec.moveResult m f r).Leaves (Changes (.moveResult f r) m) := by
  unfold Exec.moveResult
  split
  · exact .refl _ m
  · rename_i v hdst
    dsimp only
    split
    · trivial
    · rename_i hown
      exact (Changes.refl _ m).setVar ⟨hdst, Var.own_of_not hown, rfl⟩

/-! ## The operations of a thread -/

theorem assignVar_changes {env : List ℕ} {ops : List (Op V)} {after : After V} {m₁ : Mem V}
    (h : Changes (.runOps env ops after) m m₁) {v : ℕ} (hv : v ∈ env)
    (hflags : (m₁.var v).borrowed = (m.var v).borrowed ∧ (m₁.var v).shared = (m.var v).shared)
    {r : Var} (hr : (m.var v).Own → VarWrite m env (m.var v) r ops) (next : List (Instr V)) :
    (Exec.assignVar m₁ v r next).Leaves (Changes (.runOps env ops after) m) := by
  unfold Exec.assignVar
  dsimp only
  split
  · trivial
  · rename_i hown
    rw [hflags.1, hflags.2] at hown
    exact h.setVar ⟨hv, hr (Var.own_of_not hown)⟩

theorem borrowVars_changes {env : List ℕ} {xs : List ℕ} {k : ℕ} {ops ops' : List (Op V)}
    {after : After V} {vs : List ℕ} (hvs : ∀ v ∈ vs, v ∈ env) {m₁ : Mem V}
    (h : Changes (.runOps env (.fork xs k ops' :: ops) after) m m₁)
    (hsize : m.vars.size ≤ m₁.vars.size)
    (hflags : ∀ v < m.vars.size, ∃ shared, m₁.var v = { m.var v with shared := shared } ∧
      (shared = (m.var v).shared ∨ shared = !(m.var v).borrowed)) :
    Changes (.runOps env (.fork xs k ops' :: ops) after) m (Exec.borrowVars m₁ vs) := by
  induction vs generalizing m₁ with
  | nil => exact h
  | cons v vs ih =>
    refine ih (fun w hw => hvs w (List.mem_cons_of_mem _ hw)) ?_ ?_ ?_
    · refine { h with var := fun w hw => ?_ }
      rw [Mem.var_newVar, Mem.vars_setVar_size, if_neg (by omega), Mem.var_setVar]
      split
      · rename_i heq
        subst heq
        obtain ⟨shared, heq, -⟩ := hflags w hw
        refine .inr ⟨hvs w List.mem_cons_self, ?_⟩
        rw [heq]
        rfl
      · exact h.var w hw
    · rw [Mem.vars_newVar_size, Mem.vars_setVar_size]
      omega
    · intro w hw
      rw [Mem.var_newVar, Mem.vars_setVar_size, if_neg (by omega), Mem.var_setVar]
      split
      · rename_i heq
        subst heq
        obtain ⟨shared, heq, -⟩ := hflags w hw
        exact ⟨!(m.var w).borrowed, by rw [heq], .inr rfl⟩
      · exact hflags w hw

omit [Inhabited V] in
/-- Emptying one var leaves the flags of all vars alone. -/
theorem flags_setVar_empty (s v : ℕ) :
    ((m.setVar s { m.var s with currentTask := none }).var v).borrowed = (m.var v).borrowed ∧
      ((m.setVar s { m.var s with currentTask := none }).var v).shared = (m.var v).shared := by
  rw [Mem.var_setVar]
  split
  · rename_i heq
    subst heq
    exact ⟨rfl, rfl⟩
  · exact ⟨rfl, rfl⟩

theorem runOps_changes (env : List ℕ) (ops : List (Op V)) (after : After V) :
    (Exec.runOps m env ops after).Leaves (Changes (.runOps env ops after) m) := by
  have hrefl := Changes.refl (.runOps env ops after) m
  unfold Exec.runOps
  split
  · split
    · exact { hrefl with }
    · exact hrefl
  · rename_i op rest
    dsimp only
    split
    · split
      · trivial
      · rename_i w hw
        exact assignVar_changes hrefl (List.mem_of_getElem? hw) ⟨rfl, rfl⟩ (fun hown => ⟨hown, rfl⟩) _
    · split
      · trivial
      · rename_i w hw
        exact assignVar_changes (hrefl.addNode rfl rfl) (List.mem_of_getElem? hw) ⟨rfl, rfl⟩
          (fun hown => ⟨hown, rfl⟩) _
    · split
      · trivial
      · rename_i w hw
        exact assignVar_changes (hrefl.addNode rfl rfl) (List.mem_of_getElem? hw) ⟨rfl, rfl⟩
          (fun hown => ⟨hown, rfl⟩) _
    · exact Changes.newVar (hrefl.addNode rfl rfl) le_rfl _
    · split
      · rename_i dst src _ _ d s hd hs
        split
        · trivial
        · rename_i hown
          have hsrc := Var.own_of_not hown
          have hempty : Changes (.runOps env (.move dst src :: rest) after) m
              (m.setVar s { m.var s with currentTask := none }) :=
            hrefl.setVar ⟨List.mem_of_getElem? hs, hsrc, .inl rfl⟩
          split
          · trivial
          · exact assignVar_changes hempty (List.mem_of_getElem? hd) (flags_setVar_empty s d)
              (fun hdst => ⟨hdst, .inr ⟨s, hs, hsrc, rfl⟩⟩) _
      · trivial
    · split
      · trivial
      · rename_i w hw
        exact assignVar_changes hrefl (List.mem_of_getElem? hw) ⟨rfl, rfl⟩ (fun hown => ⟨hown, rfl⟩) _
    · split
      · trivial
      · split
        · exact hrefl
        · split
          · exact hrefl
          · rename_i n _ _
            exact hrefl.setNode rfl { NodeChange.refl _ m n (m.node n) with }
    · split
      · trivial
      · split
        · trivial
        · exact hrefl
    · split
      · trivial
      · split
        · trivial
        · exact hrefl
    · split
      · rename_i dst src _ _ d s hd hs
        split
        · trivial
        · split
          · trivial
          · rename_i hown
            have hsrc := Var.own_of_not hown
            have hempty : Changes (.runOps env (.toNode dst src :: rest) after) m
                (m.setVar s { m.var s with currentTask := none }) :=
              hrefl.setVar ⟨List.mem_of_getElem? hs, hsrc, .inl rfl⟩
            exact assignVar_changes hempty (List.mem_of_getElem? hd) (flags_setVar_empty s d)
              (fun hdst => ⟨hdst, .inr ⟨s, hs, hsrc, rfl⟩⟩) _
      · trivial
    · split
      · rename_i d s hd hs
        exact assignVar_changes hrefl (List.mem_of_getElem? hd) ⟨rfl, rfl⟩
          (fun hdst => ⟨hdst, s, hs, rfl⟩) _
      · trivial
    · rename_i xs locals ops'
      refine Changes.newVars (borrowVars_changes ?_ hrefl le_rfl ?_) ?_ _
      · intro v hv
        obtain ⟨x, -, hx⟩ := List.mem_filterMap.mp hv
        exact List.mem_of_getElem? hx
      · exact fun v _ => ⟨_, rfl, .inl rfl⟩
      · exact ((Frozen.refl m).borrowVars _).vars_le

theorem waitBlock_changes (n : ℕ) : (Exec.waitBlock m n).Leaves (Changes (.waitBlock n) m) := by
  unfold Exec.waitBlock
  split
  · exact .refl _ m
  · trivial

theorem waitDone_changes (n : ℕ) : (Exec.waitDone m n).Leaves (Changes (.waitDone n) m) := by
  unfold Exec.waitDone
  split
  · exact .refl _ m
  · trivial

theorem waitRead_changes (v : ℕ) : (Exec.waitRead m v).Leaves (Changes (.waitRead v) m) := by
  unfold Exec.waitRead
  split
  · trivial
  · exact .refl _ m

/-- What any step can change. -/
theorem exec_changes (spurious : Bool) (ins : Instr V) :
    (exec m spurious ins).Leaves (Changes ins m) := by
  unfold exec
  split
  · cases ins with
    | release n k => exact release_changes n k
    | releaseSub n k => exact releaseSub_changes n k
    | destroy n => exact destroy_changes n
    | freeNode n => exact freeNode_changes n
    | deleteArc a => exact deleteArc_changes a
    | releaseControl c => exact releaseControl_changes c
    | addArc n a site => exact addArc_changes n a site
    | addArcCas n a seen site => exact addArcCas_changes spurious n a seen site
    | removeBackArc n p => exact removeBackArc_changes n p
    | notifyNextWriter n p => exact notifyNextWriter_changes n p
    | setNextWriter n p d => exact setNextWriter_changes n p d
    | storeCountdown t canThrow count => exact storeCountdown_changes t canThrow count
    | loadException t count => exact Changes.refl _ m
    | findTerminal t count => exact findTerminal_changes t count
    | retainTerminal t c count => exact retainTerminal_changes t c count
    | closeList t canThrow terminal count => exact closeList_changes t canThrow terminal count
    | loadFailureFlag t r count => exact Changes.refl _ m
    | notifyArcs t canThrow failed r count => exact notifyArcs_changes t canThrow failed r count
    | outLoad t i count refs => exact outLoad_changes t i count refs
    | outCas t i count refs => exact outCas_changes t i count refs
    | outSub t i count refs => exact outSub_changes t i count refs
    | outNotify t i count refs => exact outNotify_changes t i count refs
    | wakeup t refs => exact wakeup_changes t refs
    | removePrerequisite n k => exact removePrerequisite_changes n k
    | spawn n => exact Changes.refl _ m
    | publish n source p => exact publish_changes n source p
    | publishControl n source => exact publishControl_changes n source
    | retainSignal n c => exact retainSignal_changes n c
    | mark n b => exact Changes.refl _ m
    | markLoad n b => exact Changes.refl _ m
    | markCheck n b word => exact Changes.refl _ m
    | markCas n b word => exact markCas_changes spurious n b word
    | execute t => exact execute_changes t
    | invoke t => exact invoke_changes t
    | finish t env vals cells => exact finish_changes t env vals cells
    | storeStart t => exact storeStart_changes t
    | addLife t => exact addLife_changes t
    | forwardFailure t => exact forwardFailure_changes t
    | setup f => exact setup_changes f
    | assignHead f n p a => exact assignHead_changes f n p a
    | assignFailure f n p a => exact Changes.refl _ m
    | assignIncrement f n p a => exact assignIncrement_changes f n p a
    | redirect n q t p a => exact redirect_changes n q t p a
    | moveArcs n q t p r => exact moveArcs_changes n q t p r
    | bind f => exact bind_changes f
    | moveResult f r => exact moveResult_changes f r
    | runOps env ops after => exact runOps_changes env ops after
    | waitHead n => exact Changes.refl _ m
    | waitBlock n => exact waitBlock_changes n
    | waitDone n => exact waitDone_changes n
    | waitStatus v => exact Changes.refl _ m
    | waitRead v => exact waitRead_changes v
  · trivial

end Oox
