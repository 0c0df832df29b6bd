import Mathlib.Algebra.BigOperators.Group.List.Basic
import Mathlib.Algebra.Order.BigOperators.Group.List
import Mathlib.Algebra.Order.Group.Int
import Mathlib.Tactic.Linarith
import Oox.Library.ControlStacks

/-!
# Ledgers over control stacks

A ledger counts rights. The memory has a balance for every kind of right, and every
instruction on a control stack holds some. When each step moves rights without making or
losing any, the balance of the memory and the holdings of the stacks cancel in every
reachable configuration; so what an instruction holds, nobody else holds, and a fact that
only the holder of a right may change is stable.
-/

set_option autoImplicit false

namespace Library

variable {Mem Instr Fault K : Type}

/-- What a control stack holds. -/
def stackSum (tok : Instr → K → ℤ) (l : List Instr) (k : K) : ℤ :=
  (l.map fun ins => tok ins k).sum

/-- What all control stacks hold. -/
def threadSum (tok : Instr → K → ℤ) (ls : List (List Instr)) (k : K) : ℤ :=
  (ls.map fun l => stackSum tok l k).sum

/-- The balance of the memory and the holdings of the stacks cancel. -/
def Balanced (bal : Mem → K → ℤ) (tok : Instr → K → ℤ) (c : Config Mem Instr) : Prop :=
  ∀ k, bal c.mem k + threadSum tok c.threads k = 0

/-- The memory owes at least what the stacks hold; some rights may have been dropped. -/
def Backed (bal : Mem → K → ℤ) (tok : Instr → K → ℤ) (c : Config Mem Instr) : Prop :=
  ∀ k, bal c.mem k + threadSum tok c.threads k ≤ 0

/-- The instruction at the top of a stack moves rights without making or losing any. -/
def Conserves (bal : Mem → K → ℤ) (tok : Instr → K → ℤ) (m : Mem) (ins : Instr) (m' : Mem)
    (push : List Instr) (spawned : List (List Instr)) : Prop :=
  ∀ k, bal m' k + stackSum tok push k + threadSum tok spawned k = bal m k + tok ins k

/-- The instruction at the top of a stack moves or drops rights, and makes none. -/
def Spends (bal : Mem → K → ℤ) (tok : Instr → K → ℤ) (m : Mem) (ins : Instr) (m' : Mem)
    (push : List Instr) (spawned : List (List Instr)) : Prop :=
  ∀ k, bal m' k + stackSum tok push k + threadSum tok spawned k ≤ bal m k + tok ins k

section Sums

variable (tok : Instr → K → ℤ) (k : K)

@[simp] theorem stackSum_nil : stackSum tok [] k = 0 := rfl

@[simp] theorem stackSum_cons (ins : Instr) (l : List Instr) :
    stackSum tok (ins :: l) k = tok ins k + stackSum tok l k := by
  simp [stackSum]

@[simp] theorem stackSum_append (l₁ l₂ : List Instr) :
    stackSum tok (l₁ ++ l₂) k = stackSum tok l₁ k + stackSum tok l₂ k := by
  simp [stackSum]

@[simp] theorem threadSum_nil : threadSum tok [] k = 0 := rfl

@[simp] theorem threadSum_cons (l : List Instr) (ls : List (List Instr)) :
    threadSum tok (l :: ls) k = stackSum tok l k + threadSum tok ls k := by
  simp [threadSum]

@[simp] theorem threadSum_append (ls₁ ls₂ : List (List Instr)) :
    threadSum tok (ls₁ ++ ls₂) k = threadSum tok ls₁ k + threadSum tok ls₂ k := by
  simp [threadSum]

/-- Replacing one stack changes the total by the difference of the two stacks. -/
theorem threadSum_set (ls : List (List Instr)) (i : ℕ) (l l' : List Instr)
    (hl : ls[i]? = some l) :
    threadSum tok (ls.set i l') k = threadSum tok ls k - stackSum tok l k + stackSum tok l' k := by
  induction ls generalizing i with
  | nil => simp at hl
  | cons a ls ih =>
    cases i with
    | zero =>
      simp only [List.getElem?_cons_zero, Option.some.injEq] at hl
      subst hl
      simp only [List.set_cons_zero, threadSum_cons]
      linarith
    | succ i =>
      simp only [List.getElem?_cons_succ] at hl
      simp only [List.set_cons_succ, threadSum_cons, ih i hl]
      linarith

variable {tok k}

theorem stackSum_nonneg {l : List Instr} (h : ∀ ins ∈ l, 0 ≤ tok ins k) :
    0 ≤ stackSum tok l k := by
  apply List.sum_nonneg
  intro x hx
  obtain ⟨ins, hins, rfl⟩ := List.mem_map.mp hx
  exact h ins hins

theorem le_stackSum {l : List Instr} (h : ∀ ins ∈ l, 0 ≤ tok ins k) {ins : Instr}
    (hins : ins ∈ l) : tok ins k ≤ stackSum tok l k := by
  apply List.single_le_sum
  · intro x hx
    obtain ⟨j, hj, rfl⟩ := List.mem_map.mp hx
    exact h j hj
  · exact List.mem_map.mpr ⟨ins, hins, rfl⟩

theorem threadSum_nonneg {ls : List (List Instr)} (h : ∀ l ∈ ls, ∀ ins ∈ l, 0 ≤ tok ins k) :
    0 ≤ threadSum tok ls k := by
  apply List.sum_nonneg
  intro x hx
  obtain ⟨l, hl, rfl⟩ := List.mem_map.mp hx
  exact stackSum_nonneg (h l hl)

theorem le_threadSum {ls : List (List Instr)} (h : ∀ l ∈ ls, ∀ ins ∈ l, 0 ≤ tok ins k)
    {l : List Instr} (hl : l ∈ ls) : stackSum tok l k ≤ threadSum tok ls k := by
  apply List.single_le_sum
  · intro x hx
    obtain ⟨j, hj, rfl⟩ := List.mem_map.mp hx
    exact stackSum_nonneg (h j hj)
  · exact List.mem_map.mpr ⟨l, hl, rfl⟩

/-- A positive total has a positive summand. -/
theorem exists_pos_of_sum_pos {α : Type} {l : List α} {f : α → ℤ} (h : 0 < (l.map f).sum) :
    ∃ x ∈ l, 0 < f x := by
  obtain ⟨x, hx, hpos⟩ := List.exists_lt_of_sum_lt (fun _ => (0 : ℤ)) f (by simpa using h)
  exact ⟨x, hx, hpos⟩

/-- A positive total names an instruction that holds some of it. -/
theorem exists_pos_of_threadSum_pos {ls : List (List Instr)} (h : 0 < threadSum tok ls k) :
    ∃ l ∈ ls, ∃ ins ∈ l, 0 < tok ins k := by
  obtain ⟨l, hl, hpos⟩ := exists_pos_of_sum_pos h
  obtain ⟨ins, hins, hpos'⟩ := exists_pos_of_sum_pos hpos
  exact ⟨l, hl, ins, hins, hpos'⟩

end Sums

variable {exec : Mem → Bool → Instr → Outcome Mem Instr Fault}
variable {bal : Mem → K → ℤ} {tok : Instr → K → ℤ}

/-- A conserving step keeps the ledger balanced. -/
theorem Balanced.step {c c' : Config Mem Instr} {i : ℕ} {ins : Instr} {rest push : List Instr}
    {spawned : List (List Instr)} (hbal : Balanced bal tok c)
    (htop : c.threads[i]? = some (ins :: rest))
    (hcons : Conserves bal tok c.mem ins c'.mem push spawned)
    (hthreads : c'.threads = c.threads.set i (push ++ rest) ++ spawned) :
    Balanced bal tok c' := by
  intro k
  have hk := hbal k
  have hc := hcons k
  rw [hthreads, threadSum_append, threadSum_set tok k c.threads i _ _ htop, stackSum_cons,
    stackSum_append]
  linarith

theorem Balanced.backed {c : Config Mem Instr} (h : Balanced bal tok c) : Backed bal tok c :=
  fun k => (h k).le

/-- A spending step keeps the ledger backed. -/
theorem Backed.step {c c' : Config Mem Instr} {i : ℕ} {ins : Instr} {rest push : List Instr}
    {spawned : List (List Instr)} (hbal : Backed bal tok c)
    (htop : c.threads[i]? = some (ins :: rest))
    (hspend : Spends bal tok c.mem ins c'.mem push spawned)
    (hthreads : c'.threads = c.threads.set i (push ++ rest) ++ spawned) :
    Backed bal tok c' := by
  intro k
  have hk := hbal k
  have hc := hspend k
  rw [hthreads, threadSum_append, threadSum_set tok k c.threads i _ _ htop, stackSum_cons,
    stackSum_append]
  linarith

/-! ## Facts about control stacks -/

/-- Every instruction of a stack is in order, given what is below it. -/
def StackOk (ok : Mem → Instr → List Instr → Prop) (m : Mem) : List Instr → Prop
  | [] => True
  | ins :: rest => ok m ins rest ∧ StackOk ok m rest

/-- No instruction holds a negative amount. -/
def Holdings (tok : Instr → K → ℤ) (c : Config Mem Instr) : Prop :=
  ∀ l ∈ c.threads, ∀ ins ∈ l, ∀ k, 0 ≤ tok ins k

/-- Two instructions whose rights the memory owes at the same time. -/
def Together (bal : Mem → K → ℤ) (tok : Instr → K → ℤ) (m : Mem) (ins other : Instr) : Prop :=
  ∀ k, tok ins k + tok other k ≤ -bal m k

section Stacks

variable {c : Config Mem Instr}

/-- The memory owes what a whole stack holds. -/
theorem stack_le_owed (hbal : Backed bal tok c) (hpos : Holdings tok c) {l : List Instr}
    (hl : l ∈ c.threads) (k : K) : stackSum tok l k ≤ -bal c.mem k := by
  have hle := le_threadSum (k := k) (fun l hl ins hins => hpos l hl ins hins k) hl
  have hk := hbal k
  omega

/-- The top of one stack and any instruction of another stack hold their rights together. -/
theorem together_of_ne (hbal : Backed bal tok c) (hpos : Holdings tok c) {i j : ℕ}
    {ins other : Instr} {rest l : List Instr} (hi : c.threads[i]? = some (ins :: rest))
    (hj : c.threads[j]? = some l) (hne : i ≠ j) (hother : other ∈ l) :
    Together bal tok c.mem ins other := by
  intro k
  have hpos' : ∀ l ∈ c.threads, ∀ ins ∈ l, 0 ≤ tok ins k :=
    fun l hl ins hins => hpos l hl ins hins k
  have hlmem : l ∈ c.threads := List.mem_of_getElem? hj
  -- take both stacks out of the total, one after the other
  have hset := threadSum_set tok k c.threads i (ins :: rest) [] hi
  have hj' : (c.threads.set i [])[j]? = some l := by
    rw [List.getElem?_set_ne hne]
    exact hj
  have hrest : ∀ l' ∈ c.threads.set i [], ∀ x ∈ l', 0 ≤ tok x k := by
    intro l' hl' x hx
    rcases List.mem_or_eq_of_mem_set hl' with hmem | rfl
    · exact hpos' l' hmem x hx
    · simp at hx
  have hle := le_threadSum hrest (List.mem_of_getElem? hj')
  have hother' := le_stackSum (hpos' l hlmem) hother
  have hins : 0 ≤ stackSum tok rest k := by
    apply stackSum_nonneg
    intro x hx
    exact hpos' _ (List.mem_of_getElem? hi) x (List.mem_cons_of_mem _ hx)
  have hk := hbal k
  simp only [stackSum_cons, stackSum_nil] at hset
  omega

/-- The top of a stack and any instruction below it hold their rights together. -/
theorem together_of_mem (hbal : Backed bal tok c) (hpos : Holdings tok c) {ins other : Instr}
    {rest : List Instr} (hl : ins :: rest ∈ c.threads) (hother : other ∈ rest) :
    Together bal tok c.mem ins other := by
  intro k
  have howed := stack_le_owed hbal hpos hl k
  have hle : tok other k ≤ stackSum tok rest k :=
    le_stackSum (fun x hx => hpos _ hl x (List.mem_cons_of_mem _ hx) k) hother
  simp only [stackSum_cons] at howed
  omega

/-- Facts about a stack pass to another memory when each of them does, given the whole of what
is below. -/
theorem StackOk.imp {ok ok' : Mem → Instr → List Instr → Prop} {m m' : Mem} {l : List Instr}
    (h : StackOk ok m l)
    (himp : ∀ ins rest, ins :: rest <:+ l → ok m ins rest → ok' m' ins rest) :
    StackOk ok' m' l := by
  induction l with
  | nil => trivial
  | cons ins rest ih =>
    refine ⟨himp ins rest List.suffix_rfl h.1, ih h.2 fun x r hx => ?_⟩
    exact himp x r (hx.trans (List.suffix_cons ins rest))

theorem StackOk.exists_rest {ok : Mem → Instr → List Instr → Prop} {m : Mem} {l : List Instr}
    (h : StackOk ok m l) {ins : Instr} (hins : ins ∈ l) :
    ∃ rest, ins :: rest <:+ l ∧ ok m ins rest := by
  induction l with
  | nil => cases hins
  | cons x rest ih =>
    rcases List.mem_cons.mp hins with rfl | hmem
    · exact ⟨rest, List.suffix_rfl, h.1⟩
    · obtain ⟨r, hr, hok⟩ := ih h.2 hmem
      exact ⟨r, hr.trans (List.suffix_cons x rest), hok⟩

/-- A fact that does not depend on what is below holds of a whole stack. -/
theorem stackOk_iff {ok : Mem → Instr → Prop} {m : Mem} {l : List Instr} :
    StackOk (fun m ins _ => ok m ins) m l ↔ ∀ ins ∈ l, ok m ins := by
  induction l with
  | nil => simp [StackOk]
  | cons ins rest ih => simp [StackOk, ih]

/-- A step keeps the stacks in order when it leaves its own pushes in order and disturbs no
instruction that holds its rights together with the one that ran. -/
theorem stacks_step {ok : Mem → Instr → List Instr → Prop} {c' : Config Mem Instr} {i : ℕ}
    {ins : Instr} {rest push : List Instr} {spawned : List (List Instr)}
    (hbal : Backed bal tok c) (hpos : Holdings tok c)
    (hok : ∀ l ∈ c.threads, StackOk ok c.mem l)
    (htop : c.threads[i]? = some (ins :: rest))
    (hthreads : c'.threads = c.threads.set i (push ++ rest) ++ spawned)
    (hstable : ∀ other rest', ok c.mem other rest' →
      (∀ x ∈ other :: rest', Together bal tok c.mem ins x) → ok c'.mem other rest')
    (hpush : StackOk ok c'.mem rest → StackOk ok c'.mem (push ++ rest))
    (hspawned : ∀ l ∈ spawned, StackOk ok c'.mem l) :
    ∀ l ∈ c'.threads, StackOk ok c'.mem l := by
  intro l hl
  rw [hthreads, List.mem_append] at hl
  have hmem : ins :: rest ∈ c.threads := List.mem_of_getElem? htop
  rcases hl with hl | hl
  · obtain ⟨j, hj⟩ := List.getElem?_of_mem hl
    by_cases hji : i = j
    · subst hji
      have hlt : i < c.threads.length := by
        by_contra hge
        rw [List.getElem?_eq_none (by omega)] at htop
        cases htop
      rw [List.getElem?_set_self hlt, Option.some.injEq] at hj
      subst hj
      apply hpush
      exact (hok _ hmem).2.imp fun x r hx hr => hstable x r hr fun y hy =>
        together_of_mem hbal hpos hmem (hx.subset hy)
    · rw [List.getElem?_set_ne hji] at hj
      exact (hok l (List.mem_of_getElem? hj)).imp fun x r hx hr => hstable x r hr fun y hy =>
        together_of_ne hbal hpos htop hj hji (hx.subset hy)
  · exact hspawned l hl

end Stacks

end Library
