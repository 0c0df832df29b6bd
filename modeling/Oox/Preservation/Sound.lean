import Oox.Preservation.Intact
import Oox.Preservation.IssuePushes

/-!
# Sound configurations

The law of the ledger, a well-formed memory and stacks in order: one step of an admitted
instruction keeps all three, so they hold in every configuration that admitted steps reach.
-/

set_option autoImplicit false

namespace Oox

open Library

variable {V : Type} [Inhabited V]

namespace Legal

variable {m m' : Mem V} {spurious : Bool} {ins : Instr V} {push : List (Instr V)}
variable {spawned : List (List (Instr V))}

/-- Every admitted step moves rights without making or losing any. -/
theorem moves (h : Legal m spurious ins m' push spawned) : Moves m ins m' push spawned := by
  have hok := h.ok
  have hmem := h.mem
  have hcov := h.covered
  have hlive : ∀ n ∈ touches m ins, (m.node n).status = .live := fun n => h.live
  have hstep := h.step
  unfold exec at hstep
  rw [if_pos h.inLifetime] at hstep
  have hcounters : ∀ {t i : ℕ} {count : List ℤ}, CountersOk m t i count →
      ∀ k, 0 ≤ counters t i count k := fun hc =>
    counters_nonneg fun p hp hlt => by
      have := hc.two_le h.bounded hp hlt
      omega
  cases ins with
  | release n k => exact release_moves hmem hok (hlive n List.mem_cons_self) hcov hstep
  | releaseSub n k => exact releaseSub_moves hmem hok (hlive n List.mem_cons_self) hcov hstep
  | destroy n => exact destroy_moves hmem hcov hstep
  | freeNode n => exact freeNode_moves hcov hstep
  | deleteArc a => exact deleteArc_moves hcov hstep
  | releaseControl c => exact releaseControl_moves hmem hstep
  | addArc n a site => exact addArc_moves hcov hstep
  | addArcCas n a seen site =>
    exact addArcCas_moves hmem hok (hlive n List.mem_cons_self) hcov hstep
  | removeBackArc n p => exact removeBackArc_moves hmem hcov hstep
  | notifyNextWriter n p => exact notifyNextWriter_moves hcov hstep
  | setNextWriter n p d => exact setNextWriter_moves hmem hok hcov hstep
  | storeCountdown t canThrow count => exact storeCountdown_moves hmem hcov hstep
  | loadException t count => exact loadException_moves hstep
  | findTerminal t count => exact findTerminal_moves hstep
  | retainTerminal t c count => exact retainTerminal_moves hmem hstep
  | closeList t canThrow terminal count =>
    exact closeList_moves hmem (hlive t List.mem_cons_self) hcov hstep
  | loadFailureFlag t r count => exact loadFailureFlag_moves hstep
  | notifyArcs t canThrow failed r count =>
    exact notifyArcs_moves hmem hok (hcounters hok.2.1) hcov hstep
  | outLoad t i count refs => exact outLoad_moves hok hstep
  | outCas t i count refs => exact outCas_moves hmem hok (hlive t List.mem_cons_self) hstep
  | outSub t i count refs => exact outSub_moves hmem h.bounded hok hcov hstep
  | outNotify t i count refs => exact outNotify_moves (hcounters hok.2.1) hcov hstep
  | wakeup t refs => exact wakeup_moves hmem (hlive t List.mem_cons_self) hstep
  | removePrerequisite n k => exact removePrerequisite_moves hok hcov hstep
  | spawn n => exact spawn_moves hstep
  | publish n source p => exact publish_moves hstep
  | publishControl n source => exact publishControl_moves hstep
  | retainSignal n c => exact retainSignal_moves hmem hstep
  | mark n b => exact mark_moves hstep
  | markLoad n b => exact markLoad_moves hstep
  | markCheck n b word => exact markCheck_moves hstep
  | markCas n b word => exact markCas_moves hmem (hlive n List.mem_cons_self) hstep
  | execute t => exact execute_moves hcov hstep
  | invoke t => exact invoke_moves h.tame hcov hstep
  | finish t env vals cells => exact finish_moves hmem hok hcov hstep
  | storeStart t => exact storeStart_moves hcov hstep
  | addLife t => exact addLife_moves (hlive t List.mem_cons_self) hcov hstep
  | forwardFailure t => exact forwardFailure_moves hstep
  | setup f => exact setup_moves hcov hstep
  | assignHead f n p a => exact assignHead_moves hmem hok hcov hstep
  | assignFailure f n p a => exact assignFailure_moves hstep
  | assignIncrement f n p a =>
    exact assignIncrement_moves hmem hok (hlive n List.mem_cons_self) hcov hstep
  | redirect n q t p a => exact redirect_moves hmem hok (hlive n List.mem_cons_self) hstep
  | moveArcs n q t p r => exact moveArcs_moves hmem hok.1 hcov hstep
  | bind f => exact bind_moves hok (hlive f.task List.mem_cons_self) hcov hstep
  | moveResult f r => exact moveResult_moves hok hcov hstep
  | runOps env ops after => exact runOps_moves hmem h.tame hcov hstep
  | waitHead n => exact waitHead_moves hstep
  | waitBlock n => exact waitBlock_moves hstep
  | waitDone n => exact waitDone_moves hstep
  | waitRead v => exact waitRead_moves hstep
  | waitStatus v =>
    cases hstep
    intro k
    simp [Instr.tokens]

end Legal

/-! ## Runs -/

/-- What holds of a configuration between two steps. -/
structure Sound (c : State V) : Prop where
  mem : MemOk c.mem
  law : Law c
  ready : ∀ l ∈ c.threads, c.mem.Ready l

/-- A turn that runs an admitted instruction, while no version has too many readers. -/
structure Admitted (c : State V) (e : Turn) : Prop where
  bounded : Bounded c.mem
  tame : ∀ ins rest, c.threads[e.thread]? = some (ins :: rest) → ins.Tame c.mem

namespace Sound

variable {c c' : State V} {e : Turn}

omit [Inhabited V] in
theorem holdings (h : Sound c) (hbound : Bounded c.mem) : Holdings Instr.tokens c :=
  fun l hl ins hins k => Instr.tokens_nonneg hbound (h.ready l hl ins hins) k

omit [Inhabited V] in
/-- The memory owes what the instruction on top of a stack holds. -/
theorem covered (h : Sound c) (hbound : Bounded c.mem) {ins : Instr V} {rest : List (Instr V)}
    (hl : ins :: rest ∈ c.threads) : Covered c.mem ins := by
  intro k
  have hpos := h.holdings hbound
  have hle := stack_le_owed (Balanced.backed h.law) hpos hl k
  have hrest : 0 ≤ stackSum Instr.tokens rest k := by
    apply stackSum_nonneg
    intro j hj
    exact hpos _ hl j (List.mem_cons_of_mem _ hj) k
  rw [stackSum_cons] at hle
  omega

/-- The instruction that a turn runs is legal. -/
theorem legal (h : Sound c) (he : Admitted c e) {ins : Instr V} {rest push : List (Instr V)}
    {spawned : List (List (Instr V))} (htop : c.threads[e.thread]? = some (ins :: rest))
    (hexec : exec c.mem e.choice ins = .next c'.mem push spawned) :
    Legal c.mem e.choice ins c'.mem push spawned := by
  have hl : ins :: rest ∈ c.threads := List.mem_of_getElem? htop
  exact ⟨h.mem, he.bounded, h.covered he.bounded hl, h.ready _ hl ins List.mem_cons_self,
    he.tame ins rest htop, hexec⟩

theorem step (h : Sound c) (he : Admitted c e) (hstep : c.step exec e = some c') : Sound c' := by
  obtain ⟨ins, rest, push, spawned, htop, hexec, hthreads⟩ := Config.step_cases hstep
  have hlegal := h.legal he htop hexec
  have hstacks : ∀ l ∈ c.threads, StackOk (fun m j _ => Instr.Ok m j) c.mem l :=
    fun l hl => stackOk_iff.mpr (h.ready l hl)
  refine ⟨hlegal.mem_ok, h.law.step htop hlegal.moves hthreads, fun l hl => ?_⟩
  have hstacks' : StackOk (fun m j _ => Instr.Ok m j) c'.mem l := by
    refine stacks_step (Balanced.backed h.law) (h.holdings he.bounded) hstacks htop hthreads ?_ ?_ ?_ l hl
    · exact fun other _ hok hwith => hlegal.ok_stable (hwith other List.mem_cons_self) hok
    · intro hrest
      rw [stackOk_iff] at hrest ⊢
      exact (Mem.ready_append _ _).mpr ⟨hlegal.ready, hrest⟩
    · exact fun l hl => stackOk_iff.mpr (hlegal.spawned_ready l hl)
  exact stackOk_iff.mp hstacks'

/-- The program starts in a sound configuration. -/
theorem start (locals : ℕ) (ops : List (Op V)) : Sound (initial locals ops) where
  mem :=
    { node := fun n hn => by simp [initial, Mem.initial, Heap.empty] at hn
      node_lt := fun n hn => by
        rw [show (initial locals ops).mem.node n = default by
          show ((Mem.initial V).newVars locals).nodes.cell n = _
          rw [Mem.nodes_newVars]
          rfl] at hn
        exact absurd rfl hn
      arc := fun a ha => by simp [initial, Mem.initial, Heap.empty] at ha
      arc_lt := fun a ha => by
        rw [show (initial locals ops).mem.arc a = default by
          show ((Mem.initial V).newVars locals).arcs.cell a = _
          rw [Mem.arcs_newVars]
          rfl] at ha
        cases ha
      var := fun v hv => by
        have hempty : (initial locals ops).mem.var v = {} := by
          show ((Mem.initial V).newVars locals).var v = _
          rw [Mem.var_newVars, if_pos ⟨Nat.zero_le _, by
            simpa [initial, Mem.initial, Heap.empty] using hv⟩]
        rw [hempty]
        exact .none rfl rfl
      inner := fun n hn => by simp [initial, Mem.initial, Heap.empty] at hn
      control_lt := fun c hc => by
        rw [show (initial locals ops).mem.control c = default by
          show ((Mem.initial V).newVars locals).controls.cell c = _
          rw [Mem.controls_newVars]
          rfl] at hc
        cases hc }
  law k := by
    have hzero : balance (Mem.initial V) k = 0 := by
      simp [balance, Mem.initial, Heap.empty, Heap.sum]
    show balance ((Mem.initial V).newVars locals) k + threadSum Instr.tokens _ k = 0
    rw [balance_newVars, hzero]
    simp [initial, Mem.initial, Heap.empty, Instr.tokens, After.tokens, List.range_eq_range']
  ready l hl := by
    obtain rfl := List.mem_singleton.mp hl
    exact (Mem.ready_cons _ _).mpr ⟨trivial, Mem.ready_nil⟩

/-- Every configuration that admitted steps reach is sound. -/
theorem of_reach {locals : ℕ} {ops : List (Op V)} (h : Reach exec Admitted (initial locals ops) c) :
    Sound c :=
  h.invariant (start locals ops) fun _ _ _ hsound he hstep => hsound.step he hstep

end Sound

/-! ## Computed runs -/

omit [Inhabited V] in
/-- A memory with few arcs has few readers. -/
theorem bounded_of_arcs {m : Mem V} (h : (m.arcs.size : ℤ) + 2 < countdownBias) : Bounded m := by
  intro q p
  have hle : readers m q p ≤ ∑ _a ∈ Finset.range m.arcs.size, (1 : ℤ) := by
    unfold readers Heap.sum
    apply Finset.sum_le_sum
    intro a _
    dsimp only
    split <;> decide
  rw [Finset.sum_const, Finset.card_range, nsmul_eq_mul, mul_one] at hle
  omega

/-- The check of `Instr.Tame` on a computed run. -/
def tame (m : Mem V) : Instr V → Bool
  | .runOps _ (op :: _) _ =>
    match op with
    | .run _ args _ _ _ => decide (args.length < startCountMask)
    | .toNode _ _ => false
    | .moveNode _ _ => false
    | _ => true
  | .invoke t => spares m (.invoke t)
  | _ => true

/-- The check of `Admitted`. -/
def admits (c : State V) (e : Turn) : Bool :=
  decide ((c.mem.arcs.size : ℤ) + 2 < countdownBias) &&
    match c.threads[e.thread]? with
    | some (ins :: _) => tame c.mem ins
    | _ => true

omit [Inhabited V] in
theorem tame_of_check {m : Mem V} {ins : Instr V} (h : tame m ins = true) : ins.Tame m := by
  cases ins with
  | runOps env ops after =>
    cases ops with
    | nil => trivial
    | cons op ops =>
      cases op with
      | run dst args canThrow kind code =>
        have hlength : args.length < startCountMask := of_decide_eq_true h
        exact hlength
      | toNode dst src => cases h
      | moveNode dst src => cases h
      | _ => trivial
  | invoke t =>
    have hspares : (Instr.invoke t).Spares m := spares_of_check h
    exact hspares
  | _ => trivial

omit [Inhabited V] in
theorem admitted_of_check {c : State V} {e : Turn} (h : admits c e = true) : Admitted c e := by
  unfold admits at h
  rw [Bool.and_eq_true, decide_eq_true_eq] at h
  refine ⟨bounded_of_arcs h.1, fun ins rest htop => ?_⟩
  have hcheck := h.2
  rw [htop] at hcheck
  exact tame_of_check hcheck

end Oox
