import Mathlib.Tactic.Positivity
import Oox.Analysis.Tokens

/-!
# Balances under updates, and what the memory owes

Every update changes the balance of the memory by the difference at one object. In the
other direction, a token can only be owed by the object it is about: all other objects can
only hold it.
-/

set_option autoImplicit false

namespace Oox

open Library

variable {V : Type}

/-! ## Counting tokens -/

@[simp] theorem one_self (t : Token) : one t t = 1 := if_pos rfl

theorem one_of_ne {t k : Token} (h : k ≠ t) : one t k = 0 := if_neg h

theorem one_nonneg (t k : Token) : 0 ≤ one t k := by
  unfold one
  split <;> decide

theorem arms_nonneg (n : ℕ) (i : ℕ) (k : Token) : 0 ≤ arms n i k := by
  unfold arms
  split
  · split <;> decide
  · decide

/-- The slots from `i` on are slot `i` and the slots after it. -/
theorem arms_succ (n : ℕ) (i : ℕ) (k : Token) :
    arms n i k = one (.arm n i) k + arms n (i + 1) k := by
  cases k with
  | arm n' p =>
    simp only [arms, one, Token.arm.injEq]
    by_cases hn : n' = n
    · subst hn
      rcases Nat.lt_trichotomy p i with h | rfl | h
      · simp [show ¬ i ≤ p by omega, show ¬ i + 1 ≤ p by omega, show p ≠ i by omega]
      · simp
      · simp [show i ≤ p by omega, show i + 1 ≤ p by omega, show p ≠ i by omega]
    · simp [hn]
  | _ => simp [arms, one]

@[simp] theorem varTokens_nil (k : Token) : varTokens [] k = 0 := rfl

@[simp] theorem varTokens_append (vs ws : List ℕ) (k : Token) :
    varTokens (vs ++ ws) k = varTokens vs k + varTokens ws k := by
  simp [varTokens]

theorem varTokens_nonneg (vs : List ℕ) (k : Token) : 0 ≤ varTokens vs k := by
  apply List.sum_nonneg
  intro x hx
  obtain ⟨v, -, rfl⟩ := List.mem_map.mp hx
  exact one_nonneg _ _

theorem one_le_varTokens {vs : List ℕ} {v : ℕ} (hv : v ∈ vs) :
    1 ≤ varTokens vs (.var v) := by
  have hle : one (.var v) (.var v) ≤ varTokens vs (.var v) := by
    apply List.single_le_sum
    · intro x hx
      obtain ⟨w, -, rfl⟩ := List.mem_map.mp hx
      exact one_nonneg _ _
    · exact List.mem_map.mpr ⟨v, hv, rfl⟩
  simpa using hle

@[simp] theorem listedTokens_nil (n : ℕ) (k : Token) : listedTokens n [] k = 0 := rfl

@[simp] theorem listedTokens_cons (n : ℕ) (a : ℕ) (l : List ℕ) (k : Token) :
    listedTokens n (a :: l) k = one (.listed a n) k + listedTokens n l k := by
  simp [listedTokens]

theorem listedTokens_nonneg (n : ℕ) (l : List ℕ) (k : Token) :
    0 ≤ listedTokens n l k := by
  apply List.sum_nonneg
  intro x hx
  obtain ⟨a, -, rfl⟩ := List.mem_map.mp hx
  exact one_nonneg _ _

theorem one_le_listedTokens {n : ℕ} {l : List ℕ} {a : ℕ} (ha : a ∈ l) :
    1 ≤ listedTokens n l (.listed a n) := by
  have hle : one (.listed a n) (.listed a n) ≤ listedTokens n l (.listed a n) := by
    apply List.single_le_sum
    · intro x hx
      obtain ⟨b, -, rfl⟩ := List.mem_map.mp hx
      exact one_nonneg _ _
    · exact List.mem_map.mpr ⟨a, ha, rfl⟩
  simpa using hle

/-- The counters from slot `i` on are that of slot `i` and those after it. -/
theorem counters_succ (t : ℕ) {i : ℕ} {count : List ℤ} (hi : i < count.length)
    (k : Token) :
    counters t i count k =
      one (.hand t i) k + (count.getD i 0 - 1) * one (.back t i) k + counters t (i + 1) count k :=
  Finset.sum_eq_sum_Ico_succ_bot hi _

/-- There is no counter past the last slot. -/
theorem counters_of_le (t : ℕ) {i : ℕ} {count : List ℤ} (hi : count.length ≤ i)
    (k : Token) : counters t i count k = 0 := by
  unfold counters
  rw [Finset.Ico_eq_empty (by omega), Finset.sum_empty]

/-- Storing the countdown of the next slot adds its counter. -/
theorem counters_append (t : ℕ) (count : List ℤ) (b : ℤ) (k : Token) :
    counters t 0 (count ++ [b]) k =
      counters t 0 count k + one (.hand t count.length) k +
        (b - 1) * one (.back t count.length) k := by
  unfold counters
  rw [List.length_append, List.length_singleton, Finset.sum_Ico_succ_top (by omega)]
  have hsame : ∀ p ∈ Finset.Ico 0 count.length, (count ++ [b]).getD p 0 = count.getD p 0 := by
    intro p hp
    have hlt := (Finset.mem_Ico.mp hp).2
    simp [List.getD, List.getElem?_append_left hlt]
  rw [Finset.sum_congr rfl fun p hp => by rw [hsame p hp]]
  simp [List.getD]
  ring

/-- Decrementing a counter returns one unit of its slot. -/
theorem counters_modify (t : ℕ) {i j : ℕ} {count : List ℤ} (hij : i ≤ j)
    (hj : j < count.length) (k : Token) :
    counters t i (count.modify j (· - 1)) k = counters t i count k - one (.back t j) k := by
  unfold counters
  have hmem : j ∈ Finset.Ico i count.length := Finset.mem_Ico.mpr ⟨hij, hj⟩
  rw [List.length_modify, ← Finset.add_sum_erase _ _ hmem,
    ← Finset.add_sum_erase (Finset.Ico i count.length) _ hmem]
  have hrest : ∀ p ∈ (Finset.Ico i count.length).erase j,
      (count.modify j (· - 1)).getD p 0 = count.getD p 0 := by
    intro p hp
    have hne : j ≠ p := (Finset.ne_of_mem_erase hp).symm
    simp [List.getD, hne]
  rw [Finset.sum_congr rfl fun p hp => by rw [hrest p hp]]
  have hself : (count.modify j (· - 1)).getD j 0 = count.getD j 0 - 1 := by
    simp [List.getD, hj]
  rw [hself]
  ring

/-! ## The balance after an update -/

section Updates

variable (m : Mem V) (k : Token)

theorem balance_setNode {n : ℕ} (hn : n < m.nodes.size) (x : Node V) :
    balance (m.setNode n x) k = balance m k + (nodeBalance n x k - nodeBalance n (m.node n) k) := by
  have h := Heap.sum_set m.nodes hn x fun n x => nodeBalance n x k
  unfold balance Mem.setNode Mem.node
  rw [h]
  ring

theorem balance_newNode (x : Node V) :
    balance (m.newNode x) k = balance m k + nodeBalance m.nodes.size x k := by
  have h := Heap.sum_push m.nodes x fun n x => nodeBalance n x k
  unfold balance Mem.newNode
  rw [h]
  ring

theorem balance_setArc {a : ℕ} (ha : a < m.arcs.size) (x : Arc) :
    balance (m.setArc a x) k = balance m k + (arcBalance a x k - arcBalance a (m.arc a) k) := by
  have h := Heap.sum_set m.arcs ha x fun a x => arcBalance a x k
  unfold balance Mem.setArc Mem.arc
  rw [h]
  ring

theorem balance_newArc (x : Arc) :
    balance (m.newArc x) k = balance m k + arcBalance m.arcs.size x k := by
  have h := Heap.sum_push m.arcs x fun a x => arcBalance a x k
  unfold balance Mem.newArc
  rw [h]
  ring

theorem balance_setVar {v : ℕ} (hv : v < m.vars.size) (u : Var) :
    balance (m.setVar v u) k = balance m k + (varBalance v u k - varBalance v (m.var v) k) := by
  have h := Heap.sum_set m.vars hv u fun v u => varBalance v u k
  unfold balance Mem.setVar Mem.var
  rw [h]
  ring

theorem balance_newVar (u : Var) :
    balance (m.newVar u) k = balance m k + varBalance m.vars.size u k := by
  have h := Heap.sum_push m.vars u fun v u => varBalance v u k
  unfold balance Mem.newVar
  rw [h]
  ring

theorem balance_setControl {c : ℕ} (hc : c < m.controls.size) (x : Control) :
    balance (m.setControl c x) k =
      balance m k + (controlBalance c x k - controlBalance c (m.control c) k) := by
  have h := Heap.sum_set m.controls hc x fun c x => controlBalance c x k
  unfold balance Mem.setControl Mem.control
  rw [h]
  ring

theorem balance_newControl (x : Control) :
    balance (m.newControl x) k = balance m k + controlBalance m.controls.size x k := by
  have h := Heap.sum_push m.controls x fun c x => controlBalance c x k
  unfold balance Mem.newControl
  rw [h]
  ring

/-- New vars are owed to whoever gets their names. -/
theorem balance_newVars (j : ℕ) :
    balance (m.newVars j) k = balance m k - varTokens (List.range' m.vars.size j) k := by
  induction j generalizing m with
  | zero => simp [Mem.newVars]
  | succ j ih =>
    rw [Mem.newVars, ih, balance_newVar, List.range'_succ]
    simp [varBalance, Var.owns, varTokens]
    ring

/-- The armed part of one slot. -/
def slotArm (n : ℕ) (phase : Phase) (p : ℕ) (o : OutputNode) (k : Token) : ℤ :=
  if phase ≠ .finished ∧ o.armed = false then one (.arm n p) k else 0

theorem armSupply_update (n : ℕ) (phase : Phase) (out : ℕ → OutputNode) (p : ℕ)
    (o : OutputNode) :
    armSupply n phase (fun q => if q = p then o else out q) k =
      armSupply n phase out k - slotArm n phase p (out p) k + slotArm n phase p o k := by
  cases k with
  | arm n' q =>
    simp only [armSupply, slotArm, one, Token.arm.injEq]
    by_cases hn : n' = n
    · by_cases hq : q = p
      · subst hq
        simp [hn]
      · simp [hn, hq]
    · simp [hn]
  | _ => simp [armSupply, slotArm, one]

/-- Overwriting a slot changes the balance by the difference at that slot. -/
theorem balance_setOut {n : ℕ} {p : ℕ} (hn : n < m.nodes.size)
    (hp : p < (m.node n).slots) (o : OutputNode) :
    balance (m.setOut n p o) k = balance m k +
      (slotBalance n p o k - slotBalance n p ((m.node n).out p) k) -
      (slotArm n (m.node n).phase p o k - slotArm n (m.node n).phase p ((m.node n).out p) k) := by
  have hmem : p ∈ Finset.range (m.node n).slots := Finset.mem_range.mpr hp
  have hsum : ∑ q ∈ Finset.range (m.node n).slots,
      slotBalance n q (if q = p then o else (m.node n).out q) k =
      ∑ q ∈ Finset.range (m.node n).slots, slotBalance n q ((m.node n).out q) k +
        (slotBalance n p o k - slotBalance n p ((m.node n).out p) k) := by
    rw [← Finset.add_sum_erase _ _ hmem,
      ← Finset.add_sum_erase (Finset.range (m.node n).slots)
        (fun q => slotBalance n q ((m.node n).out q) k) hmem]
    rw [Finset.sum_congr rfl fun q hq => by rw [if_neg (Finset.ne_of_mem_erase hq)]]
    simp
    ring
  rw [Mem.setOut, balance_setNode m k hn]
  simp only [nodeBalance, armSupply_update, hsum]
  ring

end Updates

/-! ## What the memory owes -/

/-- The node a token is about. -/
def Token.node? : Token → Option ℕ
  | .life n => some n
  | .pre n => some n
  | .back n _ => some n
  | .arm n _ => some n
  | .hand n _ => some n
  | .fire n _ => some n
  | .cap n _ => some n
  | .setup n => some n
  | .exec n => some n
  | .forward n => some n
  | .del n => some n
  | _ => none

/-- The arc a token is about. -/
def Token.arc? : Token → Option ℕ
  | .arc a _ => some a
  | .payload a _ => some a
  | .descriptor a _ => some a
  | .offer a _ => some a
  | .listed a _ => some a
  | .spent a => some a
  | _ => none

/-- The var a token is about. -/
def Token.var? : Token → Option ℕ
  | .var v => some v
  | _ => none

/-- The exception payload a token is about. -/
def Token.control? : Token → Option ℕ
  | .control c => some c
  | _ => none

theorem NextWriter.tokens_nonneg (d : NextWriter) (k : Token) : 0 ≤ d.tokens k := by
  cases d <;> simp [NextWriter.tokens, one_nonneg]

theorem Head.tokens_nonneg (n : ℕ) (h : Head) (k : Token) : 0 ≤ h.tokens n k := by
  cases h <;> simp [Head.tokens, one_nonneg, listedTokens_nonneg]

theorem Var.owns_nonneg (u : Var) (k : Token) : 0 ≤ u.owns k := by
  unfold Var.owns
  split
  · rfl
  · have := one_nonneg
    split
    · exact add_nonneg (this _ _) (this _ _)
    · exact add_nonneg (this _ _) le_rfl

/-- A var that names a slot holds the right to set its next writer. -/
theorem Var.one_le_owns {u : Var} {n : ℕ} (htask : u.currentTask = some n) :
    1 ≤ u.owns (.cap n u.currentPort) := by
  simp only [Var.owns, htask, one_self]
  cases u.owner with
  | none => exact le_rfl
  | some o =>
    have hlife := one_nonneg (.life o) (.cap n u.currentPort)
    show 1 ≤ 1 + one (.life o) (.cap n u.currentPort)
    omega

theorem Arc.carries_nonneg (x : Arc) (k : Token) : 0 ≤ x.carries k := by
  unfold Arc.carries
  split <;> simp [one_nonneg]

/-- A slot only holds what is not about its node. -/
theorem slotBalance_nonneg {n : ℕ} {k : Token} (hk : k.node? ≠ some n) (p : ℕ)
    (o : OutputNode) : 0 ≤ slotBalance n p o k := by
  have hback : one (.back n p) k = 0 := one_of_ne (by rintro rfl; exact hk rfl)
  have hhand : one (.hand n p) k = 0 := one_of_ne (by rintro rfl; exact hk rfl)
  have hfire : one (.fire n p) k = 0 := one_of_ne (by rintro rfl; exact hk rfl)
  have hcap : one (.cap n p) k = 0 := one_of_ne (by rintro rfl; exact hk rfl)
  have hlife := one_nonneg (.life n) k
  have hnext := o.nextWriter.tokens_nonneg k
  simp only [slotBalance, hback, hhand, hfire, hcap, mul_zero, ite_self, sub_zero, add_zero]
  split <;> omega

/-- A node only holds what is not about it. -/
theorem nodeBalance_nonneg {n : ℕ} {k : Token} (hk : k.node? ≠ some n) (x : Node V) :
    0 ≤ nodeBalance n x k := by
  have hlife : one (.life n) k = 0 := one_of_ne (by rintro rfl; exact hk rfl)
  have hpre : one (.pre n) k = 0 := one_of_ne (by rintro rfl; exact hk rfl)
  have hexec : one (.exec n) k = 0 := one_of_ne (by rintro rfl; exact hk rfl)
  have hsetup : one (.setup n) k = 0 := one_of_ne (by rintro rfl; exact hk rfl)
  have hforward : one (.forward n) k = 0 := one_of_ne (by rintro rfl; exact hk rfl)
  have hdel : one (.del n) k = 0 := one_of_ne (by rintro rfl; exact hk rfl)
  have harms : arms n 0 k = 0 := by
    cases k with
    | arm n' p => exact if_neg fun h => hk (by rw [h.1]; rfl)
    | _ => rfl
  have harm : armSupply n x.phase x.out k = 0 := by
    cases k with
    | arm n' p => exact if_neg fun h => hk (by rw [h.1]; rfl)
    | _ => rfl
  have hpending : x.phase.pending n k = 0 := by
    cases x.phase <;> simp [Phase.pending, hlife, hexec, harms]
  have hrights : x.phase.rights n k = 0 := by
    cases x.phase <;> simp [Phase.rights, hexec, hsetup, hforward]
  have hhead : 0 ≤ if x.status = .dead then 0 else x.head.tokens n k := by
    split
    · rfl
    · exact Head.tokens_nonneg _ _ _
  have hinner : 0 ≤ if x.kind = .task then one (.var x.inner) k else 0 := by
    split
    · exact one_nonneg _ _
    · rfl
  have hslots : 0 ≤ ∑ p ∈ Finset.range x.slots, slotBalance n p (x.out p) k :=
    Finset.sum_nonneg fun p _ => slotBalance_nonneg hk p _
  have hlocals := varTokens_nonneg x.locals k
  simp only [nodeBalance, hpending, hrights, harm, hpre, hlife, hdel, mul_zero, ite_self]
  omega

/-- An arc only holds what is not about it. -/
theorem arcBalance_nonneg {a : ℕ} {k : Token} (hk : k.arc? ≠ some a) (x : Arc) :
    0 ≤ arcBalance a x k := by
  have htoken : one (x.token a) k = 0 := by
    apply one_of_ne
    rintro rfl
    apply hk
    unfold Arc.token
    split
    · rfl
    · cases x.role <;> rfl
  have hcarries := x.carries_nonneg k
  have hcontrol : 0 ≤ if x.kind = .exceptionSignal then one (.control x.control) k else 0 := by
    split
    · exact one_nonneg _ _
    · rfl
  simp only [arcBalance, htoken, sub_zero]
  split <;> omega

/-- A var only holds what is not about it. -/
theorem varBalance_nonneg {v : ℕ} {k : Token} (hk : k.var? ≠ some v) (u : Var) :
    0 ≤ varBalance v u k := by
  have hvar : one (.var v) k = 0 := one_of_ne (by rintro rfl; exact hk rfl)
  have howns := u.owns_nonneg k
  simp only [varBalance, hvar, sub_zero]
  split <;> omega

/-- A payload only holds what is not about it. -/
theorem controlBalance_nonneg {c : ℕ} {k : Token} (hk : k.control? ≠ some c)
    (x : Control) : 0 ≤ controlBalance c x k := by
  have hcontrol : one (.control c) k = 0 := one_of_ne (by rintro rfl; exact hk rfl)
  simp [controlBalance, hcontrol]

section Owed

variable {m : Mem V} {k : Token}

theorem arcs_nonneg (hk : k.arc? = none) : 0 ≤ m.arcs.sum fun a x => arcBalance a x k :=
  Heap.sum_nonneg _ _ fun _ _ => arcBalance_nonneg (by rw [hk]; exact nofun) _

theorem vars_nonneg (hk : k.var? = none) : 0 ≤ m.vars.sum fun v u => varBalance v u k :=
  Heap.sum_nonneg _ _ fun _ _ => varBalance_nonneg (by rw [hk]; exact nofun) _

theorem controls_nonneg (hk : k.control? = none) :
    0 ≤ m.controls.sum fun c x => controlBalance c x k :=
  Heap.sum_nonneg _ _ fun _ _ => controlBalance_nonneg (by rw [hk]; exact nofun) _

theorem nodes_nonneg (hk : k.node? = none) : 0 ≤ m.nodes.sum fun n x => nodeBalance n x k :=
  Heap.sum_nonneg _ _ fun _ _ => nodeBalance_nonneg (by rw [hk]; exact nofun) _

/-- At a token about a node every other object has a nonnegative balance. -/
theorem others_nonneg {n : ℕ} (hk : k.node? = some n) :
    0 ≤ (m.arcs.sum fun a x => arcBalance a x k) + (m.vars.sum fun v u => varBalance v u k) +
      (m.controls.sum fun c x => controlBalance c x k) + varTokens m.left k ∧
    ∀ j, j ≠ n → 0 ≤ nodeBalance j (m.nodes.cell j) k := by
  have harcs : 0 ≤ m.arcs.sum fun a x => arcBalance a x k :=
    arcs_nonneg (by cases k <;> simp_all [Token.node?, Token.arc?])
  have hvars : 0 ≤ m.vars.sum fun v u => varBalance v u k :=
    vars_nonneg (by cases k <;> simp_all [Token.node?, Token.var?])
  have hcontrols : 0 ≤ m.controls.sum fun c x => controlBalance c x k :=
    controls_nonneg (by cases k <;> simp_all [Token.node?, Token.control?])
  have hleft := varTokens_nonneg m.left k
  exact ⟨by omega, fun j hj => nodeBalance_nonneg (by rw [hk]; simpa using Ne.symm hj) _⟩

/-- The balance of the memory at a token about a node is at least that of the node. -/
theorem nodeBalance_le {n : ℕ} (hk : k.node? = some n) (hn : n < m.nodes.size) :
    nodeBalance n (m.node n) k ≤ balance m k := by
  obtain ⟨hrest, hother⟩ := others_nonneg (m := m) hk
  have hle := Heap.le_sum hn (f := fun j x => nodeBalance j x k) fun j _ hj => hother j hj
  unfold balance Mem.node
  omega

/-- A token about a node is owed by that node only. -/
theorem owed_node {n : ℕ} (hk : k.node? = some n) {c : ℤ} (hc : 0 < c)
    (howed : c ≤ -balance m k) : n < m.nodes.size ∧ c ≤ -nodeBalance n (m.node n) k := by
  by_cases hn : n < m.nodes.size
  · have hle := nodeBalance_le hk hn
    exact ⟨hn, by omega⟩
  · obtain ⟨hrest, hother⟩ := others_nonneg (m := m) hk
    have hnodes : 0 ≤ m.nodes.sum fun j x => nodeBalance j x k :=
      Heap.sum_nonneg _ _ fun j hj => hother j (by rintro rfl; exact hn hj)
    unfold balance at howed
    omega

/-- Only the arc a token is about can owe it. -/
theorem arc_of_sum_neg {a : ℕ} (hk : k.arc? = some a)
    (hneg : (m.arcs.sum fun b x => arcBalance b x k) < 0) :
    a < m.arcs.size ∧ (m.arc a).alive = true ∧ k = (m.arc a).token a := by
  by_contra hno
  have harcs : 0 ≤ m.arcs.sum fun b x => arcBalance b x k := by
    apply Heap.sum_nonneg
    intro b hb
    by_cases hba : b = a
    · subst hba
      unfold arcBalance
      split
      · rename_i halive
        have hne : k ≠ (m.arcs.cell b).token b := fun heq => hno ⟨hb, halive, heq⟩
        have hcarries := (m.arcs.cell b).carries_nonneg k
        rw [one_of_ne hne]
        split
        · have := one_nonneg (.control (m.arcs.cell b).control) k
          omega
        · omega
      · rfl
    · exact arcBalance_nonneg (by rw [hk]; simpa using Ne.symm hba) _
  omega

/-- A token about an arc is owed by that arc only. -/
theorem owed_arc {a : ℕ} (hk : k.arc? = some a) (howed : 0 < -balance m k) :
    a < m.arcs.size ∧ (m.arc a).alive = true ∧ k = (m.arc a).token a := by
  have hnodes : 0 ≤ m.nodes.sum fun n x => nodeBalance n x k :=
    nodes_nonneg (by cases k <;> simp_all [Token.node?, Token.arc?])
  have hvars : 0 ≤ m.vars.sum fun v u => varBalance v u k :=
    vars_nonneg (by cases k <;> simp_all [Token.arc?, Token.var?])
  have hcontrols : 0 ≤ m.controls.sum fun c x => controlBalance c x k :=
    controls_nonneg (by cases k <;> simp_all [Token.arc?, Token.control?])
  have hleft := varTokens_nonneg m.left k
  unfold balance at howed
  exact arc_of_sum_neg hk (by omega)

/-- An arc in the head of a node is alive, and nobody else has it. -/
theorem arc_of_head {a n : ℕ} (hk : k.arc? = some a) (hn : n < m.nodes.size)
    (hstatus : (m.node n).status ≠ .dead) (hhead : 1 ≤ (m.node n).head.tokens n k)
    (hbal : balance m k ≤ 0) :
    a < m.arcs.size ∧ (m.arc a).alive = true ∧ k = (m.arc a).token a := by
  have hnode : k.node? = none := by cases k <;> simp_all [Token.node?, Token.arc?]
  have hvars : 0 ≤ m.vars.sum fun v u => varBalance v u k :=
    vars_nonneg (by cases k <;> simp_all [Token.arc?, Token.var?])
  have hcontrols : 0 ≤ m.controls.sum fun c x => controlBalance c x k :=
    controls_nonneg (by cases k <;> simp_all [Token.arc?, Token.control?])
  have hleft := varTokens_nonneg m.left k
  have hself : 1 ≤ nodeBalance n (m.node n) k := by
    -- a node whose head is empty would still have a nonnegative balance
    have hrest := nodeBalance_nonneg (n := n) (k := k) (by rw [hnode]; exact nofun)
      { m.node n with head := .done }
    have hdone : Head.tokens n .done k = 0 := rfl
    simp only [nodeBalance, hdone, if_neg hstatus] at hrest ⊢
    omega
  have hle := Heap.le_sum hn (f := fun j x => nodeBalance j x k) fun j _ _ =>
    nodeBalance_nonneg (by rw [hnode]; exact nofun) _
  unfold balance at hbal
  unfold Mem.node at hself
  exact arc_of_sum_neg hk (by omega)

/-- A var is owed once, and only after it was allocated. -/
theorem vars_var (v : ℕ) : (-1 ≤ m.vars.sum fun j u => varBalance j u (.var v)) ∧
    (¬ v < m.vars.size → 0 ≤ m.vars.sum fun j u => varBalance j u (.var v)) := by
  have hother : ∀ j, j ≠ v → 0 ≤ varBalance j (m.vars.cell j) (.var v) :=
    fun j hj => varBalance_nonneg (by simpa [Token.var?] using Ne.symm hj) _
  by_cases hv : v < m.vars.size
  · have hself : -1 ≤ varBalance v (m.vars.cell v) (.var v) := by
      have howns := (m.vars.cell v).owns_nonneg (.var v)
      simp only [varBalance, one_self]
      split <;> omega
    have hle := Heap.le_sum hv (f := fun j u => varBalance j u (.var v)) fun j _ hj => hother j hj
    exact ⟨by omega, fun hno => absurd hv hno⟩
  · have hvars : 0 ≤ m.vars.sum fun j u => varBalance j u (.var v) :=
      Heap.sum_nonneg _ _ fun j hj => hother j (by rintro rfl; exact hv hj)
    exact ⟨by omega, fun _ => hvars⟩

/-- What the nodes hold of a var is at most what the memory owes of it, and one. -/
theorem nodes_le_var (v : ℕ) :
    (m.nodes.sum fun n x => nodeBalance n x (.var v)) ≤ balance m (.var v) + 1 := by
  have harcs : 0 ≤ m.arcs.sum fun a x => arcBalance a x (.var v) := arcs_nonneg rfl
  have hcontrols : 0 ≤ m.controls.sum fun c x => controlBalance c x (.var v) :=
    controls_nonneg rfl
  have hleft := varTokens_nonneg m.left (.var v)
  have hvars := (vars_var (m := m) v).1
  unfold balance
  omega

/-- A var token is owed once, for an allocated var that no task keeps. -/
theorem owed_var {v : ℕ} (howed : 0 < -balance m (.var v)) :
    v < m.vars.size ∧ -balance m (.var v) ≤ 1 := by
  have hnodes : 0 ≤ m.nodes.sum fun n x => nodeBalance n x (.var v) := nodes_nonneg rfl
  have hle := nodes_le_var (m := m) v
  refine ⟨?_, by omega⟩
  by_contra hv
  have hvars := (vars_var (m := m) v).2 hv
  have harcs : 0 ≤ m.arcs.sum fun a x => arcBalance a x (.var v) := arcs_nonneg rfl
  have hcontrols : 0 ≤ m.controls.sum fun c x => controlBalance c x (.var v) :=
    controls_nonneg rfl
  have hleft := varTokens_nonneg m.left (.var v)
  unfold balance at howed
  omega

/-- The var a task keeps for its result is held by the task. -/
theorem inner_held {n : ℕ} (hkind : (m.node n).kind = .task) :
    1 ≤ nodeBalance n (m.node n) (.var (m.node n).inner) := by
  have hrest := nodeBalance_nonneg (n := n) (k := .var (m.node n).inner) (by simp [Token.node?])
    { m.node n with kind := .storage }
  simp only [nodeBalance, hkind, if_true, one_self, reduceCtorEq, if_false] at hrest ⊢
  omega

/-- A reference on a payload is owed by a payload that is alive. -/
theorem owed_control {c : ℕ} (howed : 0 < -balance m (.control c)) :
    c < m.controls.size ∧ (m.control c).alive = true := by
  have hnodes : 0 ≤ m.nodes.sum fun n x => nodeBalance n x (.control c) := nodes_nonneg rfl
  have harcs : 0 ≤ m.arcs.sum fun a x => arcBalance a x (.control c) := arcs_nonneg rfl
  have hvars : 0 ≤ m.vars.sum fun v u => varBalance v u (.control c) := vars_nonneg rfl
  have hleft := varTokens_nonneg m.left (.control c)
  unfold balance at howed
  by_contra hno
  have hcontrols : 0 ≤ m.controls.sum fun d x => controlBalance d x (.control c) := by
    apply Heap.sum_nonneg
    intro d hd
    by_cases hdc : d = c
    · subst hdc
      have hdead : (m.controls.cell d).alive = false := by
        by_contra halive
        exact hno ⟨hd, by simpa [Mem.control] using halive⟩
      simp [controlBalance, hdead]
    · exact controlBalance_nonneg (by simpa [Token.control?] using Ne.symm hdc) _
  omega

end Owed

end Oox
