import Mathlib.Data.Fintype.Card
import Oox.Forwarding.Shape

/-!
# Forwarded vars

A forwarding task returns a var, and the var that `oox::run` returned for it stands for the
returned one. Two functions follow the chain: `consume`, through the one pointer that
`oox_var_args::setup` stored, and `wait_and_get`, var by var. They agree at depth one only.
-/

set_option autoImplicit false

namespace Oox

open Library

variable {V : Type} {m m' : Mem V}

/-- Through `n` forwarding tasks the var object `v` leads to the `result_state` of node `r`. -/
inductive Leads (m : Mem V) : ℕ → ℕ → ℕ → Prop
  | value {v r : ℕ} : (m.var v).isForwarded = false → (m.var v).storage = .result r →
      Leads m 0 v r
  | through {n v o r : ℕ} : (m.var v).isForwarded = true → (m.var v).owner = some o →
      (m.node o).innerSet = true → Leads m n (m.node o).inner r → Leads m (n + 1) v r

/-- Task `o` returned a var, and forwards through `n` tasks, itself included, to the
`result_state` of node `r`. -/
def Forwards (m : Mem V) (n o r : ℕ) : Prop :=
  ∃ k, n = k + 1 ∧ (m.node o).innerSet = true ∧ Leads m k (m.node o).inner r

/-- The chain that starts at a var is determined by the memory. -/
theorem Leads.unique {n n' v r r' : ℕ} (h : Leads m n v r) (h' : Leads m n' v r') :
    n = n' ∧ r = r' := by
  induction h generalizing n' with
  | value hplain hstorage =>
    cases h' with
    | value _ hstorage' =>
      rw [hstorage] at hstorage'
      exact ⟨rfl, StoragePtr.result.inj hstorage'⟩
    | through hfwd =>
      rw [hplain] at hfwd
      cases hfwd
  | through hfwd howner _ _ ih =>
    cases h' with
    | value hplain =>
      rw [hfwd] at hplain
      cases hplain
    | through _ howner' _ hrest =>
      rw [howner] at howner'
      obtain rfl := Option.some.inj howner'
      obtain ⟨rfl, rfl⟩ := ih hrest
      exact ⟨rfl, rfl⟩

/-- Every shorter chain occurs within a chain. -/
theorem Leads.shorter (hshaped : Shaped m) {n v r k : ℕ} (h : Leads m n v r)
    (hv : v < m.vars.size) (hk : k ≤ n) : ∃ w < m.vars.size, Leads m k w r := by
  induction h with
  | value hplain hstorage =>
    obtain rfl : k = 0 := by omega
    exact ⟨_, hv, .value hplain hstorage⟩
  | @through n v o r hfwd howner hset hrest ih =>
    rcases Nat.lt_or_ge k (n + 1) with hlt | hge
    · obtain ⟨o', ho', howner', hkind, -⟩ := (hshaped.var v).forwarded hfwd
      obtain rfl : o' = o := Option.some.inj (howner'.symm.trans howner)
      exact ih (hshaped.inner o' ho' hkind) (by omega)
    · obtain rfl : k = n + 1 := by omega
      exact ⟨v, hv, .through hfwd howner hset hrest⟩

/-- A chain has fewer tasks than there are vars. -/
theorem Leads.lt_size (hshaped : Shaped m) {n v r : ℕ} (h : Leads m n v r)
    (hv : v < m.vars.size) : n < m.vars.size := by
  choose w hw hleads using fun k : Fin (n + 1) => h.shorter hshaped hv (Nat.le_of_lt_succ k.2)
  have hinj : Function.Injective fun k : Fin (n + 1) => (⟨w k, hw k⟩ : Fin m.vars.size) := by
    intro i j hij
    have heq : w i = w j := congrArg Fin.val hij
    have hi := hleads i
    rw [heq] at hi
    exact Fin.ext (hi.unique (hleads j)).1
  have hcard := Fintype.card_le_of_injective _ hinj
  simp only [Fintype.card_fin] at hcard
  omega

/-! ## `consume` -/

/-- What `consume` finds for a forwarded var is the storage of the var object its task keeps. -/
theorem resolve_forwarded {u : Var} {o : ℕ} (hu : VarShape m u) (hf : Frozen m m')
    (hfwd : u.isForwarded = true) (howner : u.owner = some o) :
    Exec.resolve m' (Exec.argPtr u) = (m'.var (m'.node o).inner).storage := by
  obtain ⟨o', ho', howner', -, hstorage⟩ := hu.forwarded hfwd
  obtain rfl : o' = o := Option.some.inj (howner'.symm.trans howner)
  rw [(hf.node o' ho').inner]
  simp [Exec.argPtr, hfwd, hstorage, Exec.resolve]

/-- The storage of a var object is the end of its chain exactly when no task forwards it. -/
theorem Leads.storage_iff (hshaped : Shaped m) {n v r : ℕ} (h : Leads m n v r) :
    (m.var v).storage = .result r ↔ n = 0 := by
  cases h with
  | value _ hstorage => simpa using hstorage
  | through hfwd _ _ _ =>
    obtain ⟨o, -, -, -, hstorage⟩ := (hshaped.var v).forwarded hfwd
    simp [hstorage]

/-! ## `wait_and_get` -/

/-- `wait_and_get` throws what it finds at the first failed task. -/
theorem followForwarded_failed {u : Var} {fuel : ℕ} {canThrow : Bool}
    (hfailed : varStatus m canThrow u ≠ .ready) :
    followForwarded m canThrow (fuel + 1) u = .thrown (varStatus m canThrow u) := by
  unfold followForwarded
  cases hstatus : varStatus m canThrow u with
  | ready => exact absurd hstatus hfailed
  | _ => rfl

/-- `wait_and_get` on a forwarded var goes on with the var object its task keeps. -/
theorem followForwarded_step {u : Var} {o fuel : ℕ} {canThrow : Bool} (hu : VarShape m u)
    (hfwd : u.isForwarded = true) (howner : u.owner = some o)
    (hready : varStatus m canThrow u = .ready) :
    followForwarded m canThrow (fuel + 1) u =
      followForwarded m canThrow fuel (m.var (m.node o).inner) := by
  obtain ⟨o', -, howner', -, hstorage⟩ := hu.forwarded hfwd
  obtain rfl : o' = o := Option.some.inj (howner'.symm.trans howner)
  simp [followForwarded, hready, hfwd, hstorage]

/-- `wait_and_get` reads the value at the end of the chain unless a task of the chain failed. -/
theorem Leads.followForwarded (hshaped : Shaped m) {n v r fuel : ℕ} {canThrow : Bool}
    (h : Leads m n v r) (hfuel : n < fuel) :
    followForwarded m canThrow fuel (m.var v) = storageValue m (.result r) ∨
      ∃ status, followForwarded m canThrow fuel (m.var v) = .thrown status := by
  induction h generalizing fuel with
  | @value v r hplain hstorage =>
    obtain ⟨fuel, rfl⟩ : ∃ k, fuel = k + 1 := ⟨fuel - 1, by omega⟩
    by_cases hready : varStatus m canThrow (m.var v) = .ready
    · exact .inl (by simp [Oox.followForwarded, hready, hplain, hstorage])
    · exact .inr ⟨_, followForwarded_failed hready⟩
  | @through n v o r hfwd howner _ _ ih =>
    obtain ⟨fuel, rfl⟩ : ∃ k, fuel = k + 1 := ⟨fuel - 1, by omega⟩
    by_cases hready : varStatus m canThrow (m.var v) = .ready
    · rw [followForwarded_step (hshaped.var v) hfwd howner hready]
      exact ih (by omega)
    · exact .inr ⟨_, followForwarded_failed hready⟩

/-- `wait_and_get` reaches the value that a forwarding task forwards to. -/
theorem Forwards.waitAndGet (hshaped : Shaped m) {n o r : ℕ} (h : Forwards m n o r) {u : Var}
    (hu : VarShape m u) (hfwd : u.isForwarded = true) (howner : u.owner = some o) :
    waitAndGet m u = storageValue m (.result r) ∨ ∃ status, waitAndGet m u = .thrown status := by
  obtain ⟨k, rfl, _, hleads⟩ := h
  obtain ⟨o', ho', howner', hkind, -⟩ := hu.forwarded hfwd
  obtain rfl : o' = o := Option.some.inj (howner'.symm.trans howner)
  have hk := hleads.lt_size hshaped (hshaped.inner o' ho' hkind)
  unfold Oox.waitAndGet
  by_cases hready : varStatus m u.canThrow u = .ready
  · rw [followForwarded_step hu hfwd howner hready]
    exact hleads.followForwarded hshaped hk
  · exact .inr ⟨_, followForwarded_failed hready⟩

end Oox
