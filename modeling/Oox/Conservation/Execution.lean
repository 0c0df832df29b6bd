import Oox.Conservation.Completion

/-!
# Running a body conserves tokens

`execute`, the body's values and results, and the forwarding of a returned var.
-/

set_option autoImplicit false

namespace Oox

open Library

variable {V : Type} {m m' : Mem V} {push : List (Instr V)}
variable {spawned : List (List (Instr V))}

/-! ## Memories that differ in results only -/

/-- The same memory up to the values in the `result_state`s. -/
structure SameUpToResults (m m' : Mem V) : Prop where
  arcs : m'.arcs = m.arcs
  vars : m'.vars = m.vars
  controls : m'.controls = m.controls
  left : m'.left = m.left
  size : m'.nodes.size = m.nodes.size
  node : ∀ n, m'.node n =
    { m.node n with result := (m'.node n).result, made := (m'.node n).made }

theorem SameUpToResults.refl (m : Mem V) : SameUpToResults m m :=
  ⟨rfl, rfl, rfl, rfl, rfl, fun _ => rfl⟩

theorem SameUpToResults.trans {m₁ m₂ m₃ : Mem V} (h : SameUpToResults m₁ m₂)
    (h' : SameUpToResults m₂ m₃) : SameUpToResults m₁ m₃ := by
  refine ⟨h'.arcs.trans h.arcs, h'.vars.trans h.vars, h'.controls.trans h.controls,
    h'.left.trans h.left, h'.size.trans h.size, fun n => ?_⟩
  rw [h'.node n]
  nth_rewrite 1 [h.node n]
  rfl

theorem SameUpToResults.setResult (m : Mem V) (n : ℕ) (result : Option V) (made : ℕ) :
    SameUpToResults m (m.setNode n { m.node n with result := result, made := made }) := by
  refine ⟨rfl, rfl, rfl, rfl, rfl, fun j => ?_⟩
  rw [Mem.node_setNode]
  by_cases hj : j = n
  · subst hj
    simp
  · simp [hj]

theorem SameUpToResults.balance (h : SameUpToResults m m') (k : Token) :
    balance m' k = balance m k := by
  have hnodes : m'.nodes.sum (fun n x => nodeBalance n x k) =
      m.nodes.sum fun n x => nodeBalance n x k := by
    unfold Heap.sum
    rw [h.size]
    apply Finset.sum_congr rfl
    intro n _
    have hnode := h.node n
    unfold Mem.node at hnode
    rw [hnode]
    rfl
  unfold Oox.balance
  rw [hnodes, h.arcs, h.vars, h.controls, h.left]

theorem SameUpToResults.var (h : SameUpToResults m m') (v : ℕ) : m'.var v = m.var v := by
  unfold Mem.var
  rw [h.vars]

/-! ## consume and the functor's writes -/

theorem consume_same {mode : AccessMode} {p : ArgPtr} {v : V} [Inhabited V]
    (htame : mode.isWriter = true → ∀ w, Exec.resolve m p ≠ .varObject w)
    (h : Exec.consume m mode p = .ok (m', v)) : SameUpToResults m m' := by
  unfold Exec.consume at h
  split at h
  · cases h
  · cases h
  · rename_i n _
    simp only at h
    split at h
    · cases h
    · split at h
      · cases h
        exact .refl m
      · cases h
        exact .setResult m n _ _
      · cases h
  · rename_i w hresolve
    split at h
    · rename_i hmode
      exact absurd hresolve (htame (by rw [hmode]; rfl) w)
    · cases h

theorem resolve_same (h : SameUpToResults m m') (p : ArgPtr) :
    Exec.resolve m' p = Exec.resolve m p := by
  cases p with
  | plain p => rfl
  | forwarded v =>
    unfold Exec.resolve
    simp only
    rw [h.var]

theorem consumeAll_same [Inhabited V] {args : List VarArg} {vals : List V}
    (htame : ∀ arg ∈ args, arg.mode.isWriter = true →
      ∀ w, Exec.resolve m arg.ptr ≠ .varObject w)
    (h : Exec.consumeAll m args = .ok (m', vals)) : SameUpToResults m m' := by
  induction args generalizing m m' vals with
  | nil =>
    cases h
    exact .refl m
  | cons arg rest ih =>
    unfold Exec.consumeAll at h
    split at h
    · cases h
    · rename_i m₁ v hconsume
      have hfirst := consume_same (htame arg List.mem_cons_self) hconsume
      split at h
      · cases h
      · rename_i m₂ vs hrest
        cases h
        refine hfirst.trans (ih (fun a ha hw w => ?_) hrest)
        rw [resolve_same hfirst]
        exact htame a (List.mem_cons_of_mem _ ha) hw w

theorem writeCells_same {l : List (StoragePtr × V)} (hcells : ∀ x ∈ l, ∀ w, x.1 ≠ .varObject w) :
    SameUpToResults m (Exec.writeCells m l) := by
  induction l generalizing m with
  | nil => exact .refl m
  | cons x rest ih =>
    obtain ⟨p, v⟩ := x
    have hrest := fun m' => ih (m := m') fun y hy => hcells y (List.mem_cons_of_mem _ hy)
    cases p with
    | null => exact hrest m
    | task n => exact hrest m
    | varObject w => exact absurd rfl (hcells _ List.mem_cons_self w)
    | result n =>
      unfold Exec.writeCells
      exact (SameUpToResults.setResult m n (some v) (m.node n).made).trans (hrest _)

/-! ## execute -/

theorem running_exec {t i : ℕ} {x : ℤ} (hcov : running t i (.exec t) + x ≤ -balance m (.exec t))
    (hx : 0 ≤ x) : t < m.nodes.size ∧ (m.node t).phase = .running := by
  simp only [running, one, arms, if_true] at hcov
  obtain ⟨ht, hphase, -⟩ := owed_exec (n := t) (m := m) (by omega)
  exact ⟨ht, hphase⟩

theorem execute_moves {t : ℕ} (hcov : Covered m (.execute t))
    (h : Exec.execute m t = .next m' push spawned) : Moves m (.execute t) m' push spawned := by
  have hexec := hcov (.exec t)
  obtain ⟨ht, -⟩ := running_exec (i := 0) (x := 0) (by simpa [Instr.tokens] using hexec) le_rfl
  unfold Exec.execute at h
  simp only at h
  split at h
  · cases h
    intro k
    simp [Instr.tokens, counters_of_le]
  · split at h
    · cases h
      intro k
      simp [Instr.tokens, counters_of_le]
    · cases h
      intro k
      rw [balance_setNode m k ht]
      simp only [nodeBalance, Instr.tokens, stackSum_cons, stackSum_nil, threadSum_nil]
      ring

theorem invoke_moves [Inhabited V] {t : ℕ} (htame : (Instr.invoke t : Instr V).Tame m)
    (hcov : Covered m (.invoke t))
    (h : Exec.invoke m t = .next m' push spawned) : Moves m (.invoke t) m' push spawned := by
  have hexec := hcov (.exec t)
  obtain ⟨ht, -⟩ := running_exec (i := 0) (x := 0) (by simpa [Instr.tokens] using hexec) le_rfl
  unfold Exec.invoke at h
  simp only at h
  split at h
  · cases h
  · rename_i m₁ vals hconsume
    have hsame := consumeAll_same htame hconsume
    have ht₁ : t < m₁.nodes.size := by
      rw [hsame.size]
      exact ht
    cases h
    intro k
    rw [balance_newVars, balance_setNode m₁ k ht₁, hsame.balance]
    simp only [nodeBalance, Instr.tokens, After.tokens, stackSum_cons, stackSum_nil,
      threadSum_nil]
    ring

theorem varBalance_own {u : Var} (hu : u.borrowed = false) (v : ℕ) (k : Token) :
    varBalance v u k = u.owns k - one (.var v) k := by
  simp [varBalance, hu]

/-- A var that was moved from owns nothing. -/
theorem varBalance_moved (u : Var) (v : ℕ) (k : Token) :
    varBalance v { u with currentTask := none } k = -one (.var v) k := by
  simp [varBalance, Var.owns]

/-- A var that a task keeps for its result is not out. -/
theorem inner_not_owed {t : ℕ} (ht : t < m.nodes.size) (hkind : (m.node t).kind = .task) :
    -balance m (.var (m.node t).inner) ≤ 0 := by
  have hnode := inner_held hkind
  have hle := Heap.le_sum ht (f := fun j x => nodeBalance j x (.var (m.node t).inner))
    fun j _ _ => nodeBalance_nonneg (by simp [Token.node?]) _
  have hvar := nodes_le_var (m := m) (m.node t).inner
  unfold Mem.node at hnode hle hvar ⊢
  omega

theorem finish_moves {t : ℕ} {env : List ℕ} {vals : List V} {cells : List StoragePtr}
    (hok : MemOk m) (hins : (Instr.finish t env vals cells).Ok m)
    (hcov : Covered m (.finish t env vals cells))
    (h : Exec.finish m t env vals cells = .next m' push spawned) :
    Moves m (.finish t env vals cells) m' push spawned := by
  have hexec := hcov (.exec t)
  simp only [Instr.tokens, varTokens_eq_zero (k := .exec t) rfl] at hexec
  obtain ⟨ht, hphase⟩ := running_exec hexec le_rfl
  have hkind := (hok.node t ht).task (by simp [hphase])
  have hinner := hok.inner t ht hkind
  obtain ⟨hunset, hcells⟩ := hins
  have hsame : SameUpToResults m
      (Exec.writeCells m (cells.zip ((m.node t).body.writes vals))) := by
    apply writeCells_same
    rintro ⟨p, v⟩ hx w
    have hmem := (List.of_mem_zip hx).1
    rintro rfl
    exact hcells w hmem
  unfold Exec.finish at h
  simp only at h
  generalize hm₁ : Exec.writeCells m (cells.zip ((m.node t).body.writes vals)) = m₁ at *
  have ht₁ : t < m₁.nodes.size := by
    rw [hsame.size]
    exact ht
  -- the locals go to the node, whatever else is stored there
  have hlocals : ∀ (x : Node V) (result : Option V) (made : ℕ) (set : Bool) (k : Token),
      m₁.node t = x → balance (m₁.setNode t { x with
        locals := x.locals ++ env, result := result, made := made, innerSet := set }) k =
        balance m k + varTokens env k := by
    rintro x result made set k rfl
    rw [balance_setNode m₁ k ht₁, hsame.balance]
    simp only [nodeBalance, varTokens_append]
    ring
  split at h
  · split at h
    · cases h
      intro k
      have hset := hlocals _ (m₁.node t).result (m₁.node t).made (m₁.node t).innerSet k rfl
      rw [balance_newArc, balance_newControl, hset]
      simp [controlBalance, arcBalance, Exec.payloadArc, Arc.carries, Arc.token, Instr.tokens,
        AddSite.tokens, counters_of_le, hsame.arcs, hsame.controls]
      ring
    · cases h
  · split at h
    · split at h
      · cases h
      · cases h
        intro k
        have hset := hlocals _ (some ((m.node t).body.result vals)) ((m₁.node t).made + 1)
          (m₁.node t).innerSet k rfl
        rw [hset]
        simp [Instr.tokens, counters_of_le]
        ring
    · cases h
      intro k
      have hset := hlocals _ (m₁.node t).result (m₁.node t).made (m₁.node t).innerSet k rfl
      rw [hset]
      simp [Instr.tokens, counters_of_le]
      ring
    · split at h
      · cases h
      · rename_i w hw
        split at h
        · cases h
        · split at h
          · rename_i hmovable
            cases h
            have hwmem : w ∈ env := List.mem_of_getElem? hw
            have hvar := hcov (.var w)
            have hone := one_le_varTokens hwmem
            have hrun : running t 0 (.var w) = 0 := by simp [running, one, arms]
            simp only [Instr.tokens, hrun] at hvar
            obtain ⟨hwlt, -⟩ := owed_var (v := w) (m := m) (by omega)
            have hinner₁ : (m₁.node t).inner = (m.node t).inner := by
              rw [hsame.node t]
            have hne : (m₁.node t).inner ≠ w := by
              rw [hinner₁]
              rintro rfl
              have hle := inner_not_owed ht hkind
              omega
            have hunowned : ∀ k, (m₁.var (m₁.node t).inner).owns k = 0 := by
              intro k
              rw [hsame.var, hinner₁]
              simp [Var.owns, hinner.unset hunset]
            have hborrowed : (m₁.var (m₁.node t).inner).borrowed = false := by
              rw [hsame.var, hinner₁]
              exact hinner.own.1
            intro k
            have hset := hlocals _ (m₁.node t).result (m₁.node t).made true k rfl
            rw [balance_setVar (Mem.setVar (m₁.setNode t _) w _) k
                (by rw [hinner₁]; simpa [hsame.vars] using hinner.lt),
              balance_setVar (m₁.setNode t _) k (by simpa [hsame.vars] using hwlt), hset,
              Mem.var_setVar_of_ne _ _ hne]
            have hw : (m₁.var w).borrowed = false := by simpa using hmovable.2.1
            rw [Mem.var_setNode, Mem.var_setNode, varBalance_moved, varBalance_own hw,
              varBalance_own hw, varBalance_own hborrowed, hunowned]
            simp only [Instr.tokens, stackSum_cons, stackSum_nil, threadSum_nil]
            ring
          · cases h

theorem storeStart_moves {t : ℕ} (hcov : Covered m (.storeStart t))
    (h : Exec.storeStart m t = .next m' push spawned) :
    Moves m (.storeStart t) m' push spawned := by
  have hexec := hcov (.exec t)
  obtain ⟨ht, hphase⟩ :=
    running_exec (i := 0) (x := 0) (by simpa [Instr.tokens] using hexec) le_rfl
  cases h
  intro k
  have harm : armSupply t .forwarding (m.node t).out k = armSupply t .running (m.node t).out k := by
    cases k <;> simp [armSupply]
  rw [balance_setNode m k ht]
  simp only [nodeBalance, hphase, harm, Phase.pending, Phase.rights, Phase.prerequisites,
    lifeSupply, reduceCtorEq, if_false, Instr.tokens, running, stackSum_cons, stackSum_nil,
    threadSum_nil]
  ring

theorem addLife_moves {t : ℕ} (hlive : (m.node t).status = .live)
    (hcov : Covered m (.addLife t)) (h : Exec.addLife m t = .next m' push spawned) :
    Moves m (.addLife t) m' push spawned := by
  have hforward := hcov (.forward t)
  simp only [Instr.tokens, one_self, arms] at hforward
  obtain ⟨ht, hphase, -⟩ := owed_forward (n := t) (m := m) (by omega)
  unfold Exec.addLife at h
  simp only at h
  split at h
  · cases h
  · cases h
    intro k
    rw [balance_newArc, balance_setNode m k ht]
    simp only [nodeBalance, lifeSupply, hlive, hphase, reduceCtorEq, if_true, if_false, arcBalance,
      Arc.carries, Arc.token, Instr.tokens, AddSite.tokens, stackSum_cons, stackSum_nil,
      threadSum_nil, Mem.arcs_setNode, ne_eq, not_true_eq_false]
    ring

theorem forwardFailure_moves {t : ℕ} (h : Exec.forwardFailure m t = .next m' push spawned) :
    Moves m (.forwardFailure t) m' push spawned := by
  unfold Exec.forwardFailure at h
  split at h
  · cases h
  · cases h
    intro k
    split <;> simp [Instr.tokens, counters_of_le]

end Oox
