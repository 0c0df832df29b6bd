import Oox.Forwarding.Consume

/-!
# `var::get` and `wait_and_get`

Both read a var whose task is complete. `get` casts `storage_ptr` to a `result_state` whatever
`is_forwarded` says; `wait_and_get` follows forwarded vars first.
-/

set_option autoImplicit false

namespace Oox

open Library

variable {V : Type} {m : Mem V}

/-- `wait_and_get` never takes a var object for a value. -/
theorem followForwarded_ne_wrongObject (hshaped : Shaped m) {u : Var} (hu : VarShape m u)
    (canThrow : Bool) (fuel : ℕ) :
    followForwarded m canThrow fuel u ≠ .fault .wrongObject := by
  induction fuel generalizing u with
  | zero => simp [followForwarded]
  | succ fuel ih =>
    by_cases hready : varStatus m canThrow u = .ready
    · by_cases hfwd : u.isForwarded = true
      · obtain ⟨o, -, howner, -, -⟩ := hu.forwarded hfwd
        rw [followForwarded_step hu hfwd howner hready]
        exact ih (hshaped.var _)
      · have hplain : u.isForwarded = false := by simpa using hfwd
        have hstorage := hu.plain hplain
        simp only [followForwarded, hready, hplain, Bool.false_eq_true, if_false]
        unfold storageValue
        split
        · simp
        · split
          · simp
          · split <;> simp
        · rename_i w heq
          exact absurd heq (hstorage w)
        · simp
    · rw [followForwarded_failed hready]
      simp

/-- A var that is not forwarded, or whose task failed: both accessors do the same. -/
theorem get_eq_waitAndGet {u : Var}
    (h : u.isForwarded = false ∨ varStatus m u.canThrow u ≠ .ready) :
    get m u = waitAndGet m u := by
  unfold get waitAndGet
  by_cases hready : varStatus m u.canThrow u = .ready
  · have hplain : u.isForwarded = false := h.resolve_right (not_not_intro hready)
    simp [followForwarded, hready, hplain]
  · rw [followForwarded_failed hready]
    cases hstatus : varStatus m u.canThrow u with
    | ready => exact absurd hstatus hready
    | _ => rfl

/-- On a forwarded var that succeeded `get` takes the var object for the value. -/
theorem get_forwarded {u : Var} (hu : VarShape m u) (hfwd : u.isForwarded = true)
    (hready : varStatus m u.canThrow u = .ready) : get m u = .fault .wrongObject := by
  obtain ⟨o, -, -, -, hstorage⟩ := hu.forwarded hfwd
  simp [get, hready, hstorage, storageValue]

variable [Inhabited V]

/-- In every reachable state `get` and `wait_and_get` return the same value or raise the same
failure exactly when the var is not forwarded or its task failed. -/
theorem get_agrees_iff {allowed : State V → Turn → Prop} {locals : ℕ} {ops : List (Op V)}
    {c : State V} (hreach : Reach exec allowed (initial locals ops) c) {v : ℕ} :
    get c.mem (c.mem.var v) = waitAndGet c.mem (c.mem.var v) ↔
      (c.mem.var v).isForwarded = false ∨
        varStatus c.mem (c.mem.var v).canThrow (c.mem.var v) ≠ .ready := by
  have hshape := (shapely_of_reach hreach).mem
  refine ⟨fun heq => ?_, get_eq_waitAndGet⟩
  by_contra hno
  obtain ⟨hfwd, hready⟩ := not_or.mp hno
  rw [get_forwarded (hshape.var v) (by simpa using hfwd) (not_not.mp hready)] at heq
  exact followForwarded_ne_wrongObject hshape (hshape.var v) _ _ heq.symm

/-- The accessors agree on a value var. -/
theorem get_agrees_iff_value : ∃ c : State ℕ,
    Reach exec (fun _ _ => True) (initial 1 [.value 0 true 3]) c ∧
    get c.mem (c.mem.var 0) = .value 3 ∧ waitAndGet c.mem (c.mem.var 0) = .value 3 := by
  obtain ⟨c, hreach, hc⟩ := Reach.exists_of_run exec (initial 1 [.value 0 true 3])
    (rounds [(0, 1)])
    (fun c => decide ((c.mem.var 0).isForwarded = false ∧ get c.mem (c.mem.var 0) = .value 3))
    (by decide)
  obtain ⟨hplain, hget⟩ := of_decide_eq_true hc
  refine ⟨c, hreach, hget, ?_⟩
  rw [← (get_agrees_iff hreach).mpr (.inl hplain), hget]

/-- The accessors differ on a forwarded var of depth one. -/
theorem get_differs_on_forwarded : ∃ c : State ℕ,
    Reach exec (fun _ _ => True) (initial 1 (readForwarded (wrapBody .value sevenBody))) c ∧
    (c.mem.var 0).currentTask = some 0 ∧ (c.mem.node 0).head.isDone = true ∧
    get c.mem (c.mem.var 0) = .fault .wrongObject ∧ waitAndGet c.mem (c.mem.var 0) = .value 7 := by
  obtain ⟨c, hreach, hc⟩ := Reach.exists_of_run exec
    (initial 1 (readForwarded (wrapBody .value sevenBody)))
    (rounds [(0, 5), (1, 7), (2, 16), (1, 21), (0, 2)])
    (fun c => decide ((c.mem.var 0).currentTask = some 0 ∧ (c.mem.node 0).head.isDone = true ∧
      get c.mem (c.mem.var 0) = .fault .wrongObject ∧
      waitAndGet c.mem (c.mem.var 0) = .value 7)) (by decide)
  exact ⟨c, hreach, of_decide_eq_true hc⟩

end Oox
