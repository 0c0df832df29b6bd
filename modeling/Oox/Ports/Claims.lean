import Oox.Analysis.IssueChanges
import Oox.Library.Ledger

/-!
# Claims on arcs and ports

An arc object is on one list, is one redirect descriptor, or is in the hands of one thread; a
port of a node is named by one var, or still to be given away by the call of `run` that made the
node. A claim stands for such a right. No step makes a second one, but a step may drop it: this
ledger is an inequality, and needs no assumption on the program.
-/

set_option autoImplicit false

namespace Oox

open Library

variable {V : Type}

/-- What has one holder at most. -/
inductive Claim where
  /-- to change arc `a` and to put it on a list. -/
  | arc (a : ℕ)
  /-- to name port `p` of node `n`. -/
  | port (n p : ℕ)
  deriving DecidableEq

/-! ## What objects hold -/

/-- The arcs of a list. -/
def listClaims (l : List ℕ) : Claim → ℤ
  | .arc a => l.count a
  | .port _ _ => 0

/-- All ports of node `n`. -/
def nodeClaims (n : ℕ) : Claim → ℤ
  | .arc _ => 0
  | .port n' _ => (n' == n).toNat

/-- An open list holds its arcs and a redirected one its descriptor; the payload of a terminal
head is never changed or listed again. -/
def Head.claims (h : Head) (k : Claim) : ℤ :=
  match h with
  | .list l => listClaims l k
  | .redirect d => listClaims [d] k
  | .done => 0
  | .terminal _ => 0

/-- A var holds the port it names; a copy of another thread's var holds nothing. -/
def Var.claims (u : Var) : Claim → ℤ
  | .arc _ => 0
  | .port n p => (!u.borrowed && u.currentTask == some n && u.currentPort == p).toNat

/-- A call of `run` holds the port of its result and those of the arguments to come. -/
def Frame.claims (f : Frame V) : Claim → ℤ
  | .arc _ => 0
  | .port n p => (n == f.task && (p == 0 || f.port.ble p)).toNat

def AddSite.claims (site : AddSite V) (k : Claim) : ℤ :=
  match site with
  | .assign f _ => f.claims k
  | .assignTo f _ => f.claims k
  | .ownBack f => f.claims k
  | _ => 0

/-- What an instruction holds while it is on a stack. -/
def Instr.claims (ins : Instr V) (k : Claim) : ℤ :=
  match ins with
  | .addArc _ a site => listClaims [a] k + site.claims k
  | .addArcCas _ a _ site => listClaims [a] k + site.claims k
  | .loadFailureFlag _ r _ => listClaims r k
  | .notifyArcs _ _ _ r _ => listClaims r k
  | .setup f => f.claims k
  | .assignHead f _ _ a => listClaims [a] k + f.claims k
  | .assignFailure f _ _ a => listClaims [a] k + f.claims k
  | .assignIncrement f _ _ a => listClaims [a] k + f.claims k
  | .redirect _ _ _ _ a => listClaims [a] k
  | .moveArcs _ _ _ _ r => listClaims r k
  | .bind f => f.claims k
  | .moveResult _ r => r.claims k
  | _ => 0

/-- What the lists and the vars hold, less one of each claim that exists. -/
def claimBalance (m : Mem V) (k : Claim) : ℤ :=
  (m.nodes.sum fun _ x => x.head.claims k) + (m.vars.sum fun _ u => u.claims k) -
    match k with
    | .arc a => ((min 1 (m.arcs.size - a) : ℕ) : ℤ)
    | .port n _ => ((min 1 (m.nodes.size - n) : ℕ) : ℤ)

/-! ## Nothing is negative -/

theorem listClaims_nonneg (l : List ℕ) (k : Claim) : 0 ≤ listClaims l k := by
  cases k <;> exact Int.natCast_nonneg _

@[simp] theorem listClaims_nil (k : Claim) : listClaims [] k = 0 := by
  cases k <;> rfl

theorem listClaims_cons (a : ℕ) (l : List ℕ) (k : Claim) :
    listClaims (a :: l) k = listClaims [a] k + listClaims l k := by
  cases k with
  | arc b =>
    simp only [listClaims, List.count_cons, List.count_nil]
    omega
  | port n p => rfl

@[simp] theorem Head.claims_list (l : List ℕ) (k : Claim) :
    (Head.list l).claims k = listClaims l k := rfl

@[simp] theorem Head.claims_redirect (d : ℕ) (k : Claim) :
    (Head.redirect d).claims k = listClaims [d] k := rfl

@[simp] theorem Head.claims_closed (terminal : Option ℕ) (k : Claim) :
    (Exec.closedHead terminal).claims k = 0 := by
  cases terminal <;> rfl

theorem Head.claims_nonneg (h : Head) (k : Claim) : 0 ≤ h.claims k := by
  cases h <;> first | exact listClaims_nonneg _ k | exact le_rfl

theorem Var.claims_nonneg (u : Var) (k : Claim) : 0 ≤ u.claims k := by
  cases k <;> exact Int.natCast_nonneg _

theorem Frame.claims_nonneg (f : Frame V) (k : Claim) : 0 ≤ f.claims k := by
  cases k <;> exact Int.natCast_nonneg _

theorem AddSite.claims_nonneg (site : AddSite V) (k : Claim) : 0 ≤ site.claims k := by
  cases site <;> first | exact Frame.claims_nonneg _ k | exact le_rfl

theorem Instr.claims_nonneg (ins : Instr V) (k : Claim) : 0 ≤ ins.claims k := by
  cases ins with
  | addArc n a site => exact add_nonneg (listClaims_nonneg _ k) (site.claims_nonneg k)
  | addArcCas n a seen site => exact add_nonneg (listClaims_nonneg _ k) (site.claims_nonneg k)
  | loadFailureFlag t r count => exact listClaims_nonneg _ k
  | notifyArcs t canThrow failed r count => exact listClaims_nonneg _ k
  | setup f => exact f.claims_nonneg k
  | assignHead f n p a => exact add_nonneg (listClaims_nonneg _ k) (f.claims_nonneg k)
  | assignFailure f n p a => exact add_nonneg (listClaims_nonneg _ k) (f.claims_nonneg k)
  | assignIncrement f n p a => exact add_nonneg (listClaims_nonneg _ k) (f.claims_nonneg k)
  | redirect n q t p a => exact listClaims_nonneg _ k
  | moveArcs n q t p r => exact listClaims_nonneg _ k
  | bind f => exact f.claims_nonneg k
  | moveResult f r => exact r.claims_nonneg k
  | _ => exact le_rfl

/-! ## Vars and frames -/

@[simp] theorem Var.claims_empty {u : Var} (h : u.currentTask = none) (k : Claim) :
    u.claims k = 0 := by
  cases k <;> simp [Var.claims, h]

theorem Var.claims_borrowed {u : Var} (h : u.borrowed = true) (k : Claim) : u.claims k = 0 := by
  cases k <;> simp [Var.claims, h]

theorem Var.claims_congr {u u' : Var} (hborrowed : u'.borrowed = u.borrowed)
    (htask : u'.currentTask = u.currentTask) (hport : u'.currentPort = u.currentPort)
    (k : Claim) : u'.claims k = u.claims k := by
  cases k <;> simp [Var.claims, hborrowed, htask, hport]

/-- A var holds one port of its node. -/
theorem Var.claims_le {u : Var} {n : ℕ} (htask : u.currentTask = some n) (k : Claim) :
    u.claims k ≤ nodeClaims n k := by
  cases k with
  | arc a => exact le_rfl
  | port n' p =>
    simp only [Var.claims, nodeClaims, htask]
    by_cases hn : n' = n
    · subst hn
      rw [beq_self_eq_true n']
      exact Int.ofNat_le.mpr (Bool.toNat_le _)
    · have hne : (some n == some n') = false := by simpa using Ne.symm hn
      rw [hne, Bool.and_false, Bool.false_and]
      exact Int.natCast_nonneg _

/-- A new call holds every port of its task. -/
theorem Frame.claims_le (f : Frame V) (k : Claim) : f.claims k ≤ nodeClaims f.task k := by
  cases k with
  | arc a => exact le_rfl
  | port n p =>
    simp only [Frame.claims, nodeClaims]
    by_cases hn : n = f.task
    · subst hn
      rw [beq_self_eq_true f.task]
      exact Int.ofNat_le.mpr (Bool.toNat_le _)
    · have hne : (n == f.task) = false := by simpa using hn
      rw [hne, Bool.false_and]

theorem Frame.claims_congr {f f' : Frame V} (htask : f'.task = f.task) (hport : f'.port = f.port)
    (k : Claim) : f'.claims k = f.claims k := by
  cases k <;> simp [Frame.claims, htask, hport]

theorem ble_eq_false {p q : ℕ} (h : q < p) : p.ble q = false := by
  rw [Bool.eq_false_iff, Ne, Nat.ble_eq]
  omega

/-- A var argument that is written takes the next port; the call goes on with the others. -/
theorem Frame.claims_next {f f' : Frame V} {u : Var} (htask : f'.task = f.task)
    (hport : f'.port = f.port + 1) (hpos : 1 ≤ f.port) (hnode : u.currentTask = some f.task)
    (hnamed : u.currentPort = f.port) (k : Claim) : u.claims k + f'.claims k ≤ f.claims k := by
  cases k with
  | arc a => exact le_rfl
  | port n p =>
    simp only [Var.claims, Frame.claims, htask, hport, hnode, hnamed]
    by_cases hn : n = f.task
    · subst hn
      rcases Nat.lt_trichotomy p f.port with hlt | rfl | hgt
      · have h₁ : (f.port == p) = false := by simp; omega
        have h₂ : f.port.ble p = false := ble_eq_false hlt
        have h₃ : (f.port + 1).ble p = false := ble_eq_false (by omega)
        simp [h₁, h₂, h₃]
      · have h₁ : (f.port == 0) = false := by simp; omega
        have h₂ : f.port.ble f.port = true := Nat.ble_eq.mpr le_rfl
        have h₃ : (f.port + 1).ble f.port = false := ble_eq_false (Nat.lt_succ_self _)
        cases u.borrowed <;> simp [h₁, h₂, h₃]
      · have h₁ : (f.port == p) = false := by simp; omega
        have h₂ : f.port.ble p = true := Nat.ble_eq.mpr (by omega)
        have h₃ : (f.port + 1).ble p = true := Nat.ble_eq.mpr (by omega)
        simp [h₁, h₂, h₃]
    · have h₁ : (n == f.task) = false := by simpa using hn
      have h₂ : (some f.task == some n) = false := by simpa using Ne.symm hn
      simp [h₁, h₂]

/-- The result of a call names port 0. -/
theorem Frame.claims_result {f : Frame V} {u : Var} (hnode : u.currentTask = some f.task)
    (hnamed : u.currentPort = 0) (k : Claim) : u.claims k ≤ f.claims k := by
  cases k with
  | arc a => exact le_rfl
  | port n p =>
    simp only [Var.claims, Frame.claims, hnode, hnamed]
    by_cases hn : n = f.task
    · subst hn
      cases p <;> cases u.borrowed <;> simp
    · have h₂ : (some f.task == some n) = false := by simpa using Ne.symm hn
      simp [h₂]

/-! ## What an update changes -/

section Updates

variable (m : Mem V) (k : Claim)

@[simp] theorem claimBalance_setArc (a : ℕ) (x : Arc) :
    claimBalance (m.setArc a x) k = claimBalance m k := by
  cases k <;> rfl

@[simp] theorem claimBalance_spend (a : ℕ) : claimBalance (m.spend a) k = claimBalance m k :=
  claimBalance_setArc m k a _

@[simp] theorem claimBalance_setControl (c : ℕ) (x : Control) :
    claimBalance (m.setControl c x) k = claimBalance m k := by
  cases k <;> rfl

@[simp] theorem claimBalance_newControl (x : Control) :
    claimBalance (m.newControl x) k = claimBalance m k := by
  cases k <;> rfl

/-- A new arc may be held once. -/
@[simp] theorem claimBalance_newArc (x : Arc) :
    claimBalance (m.newArc x) k = claimBalance m k - listClaims [m.arcs.size] k := by
  cases k with
  | arc a =>
    simp only [claimBalance, Mem.arcs_newArc_size, Mem.nodes_newArc, Mem.vars_newArc, listClaims,
      List.count_singleton]
    rcases Nat.lt_trichotomy a m.arcs.size with hlt | rfl | hgt
    · have hne : (m.arcs.size == a) = false := by simp; omega
      rw [hne]
      simp only [Bool.false_eq_true, if_false]
      omega
    · simp
    · have hne : (m.arcs.size == a) = false := by simp; omega
      rw [hne]
      simp only [Bool.false_eq_true, if_false]
      omega
  | port n p => simp [claimBalance, listClaims]

/-- A new node brings its ports and what its list holds. -/
theorem claimBalance_newNode (x : Node V) : claimBalance (m.newNode x) k =
    claimBalance m k + x.head.claims k - nodeClaims m.nodes.size k := by
  have hsum : (m.newNode x).nodes.sum (fun _ y => y.head.claims k) =
      m.nodes.sum (fun _ y => y.head.claims k) + x.head.claims k := Heap.sum_push _ _ _
  cases k with
  | arc a =>
    simp only [claimBalance, hsum, Mem.arcs_newNode, Mem.vars_newNode, nodeClaims]
    omega
  | port n p =>
    simp only [claimBalance, hsum, Mem.nodes_newNode_size, Mem.vars_newNode, nodeClaims]
    rcases Nat.lt_trichotomy n m.nodes.size with hlt | rfl | hgt
    · have hne : (n == m.nodes.size) = false := by simp; omega
      rw [hne]
      simp only [Bool.toNat_false]
      omega
    · simp only [beq_self_eq_true, Bool.toNat_true]
      omega
    · have hne : (n == m.nodes.size) = false := by simp; omega
      rw [hne]
      simp only [Bool.toNat_false]
      omega

theorem claimBalance_setNode {n : ℕ} (hn : n < m.nodes.size) (x : Node V) :
    claimBalance (m.setNode n x) k =
      claimBalance m k + (x.head.claims k - (m.node n).head.claims k) := by
  have hsum : (m.setNode n x).nodes.sum (fun _ y => y.head.claims k) =
      m.nodes.sum (fun _ y => y.head.claims k) + (x.head.claims k - (m.node n).head.claims k) :=
    Heap.sum_set _ hn _ _
  cases k <;> simp only [claimBalance, hsum, Mem.nodes_setNode_size, Mem.arcs_setNode,
    Mem.vars_setNode] <;> omega

/-- A node that keeps its head, allocated or not. -/
theorem claimBalance_setNode_head {n : ℕ} {x : Node V} (hhead : x.head = (m.node n).head) :
    claimBalance (m.setNode n x) k = claimBalance m k := by
  by_cases hn : n < m.nodes.size
  · rw [claimBalance_setNode m k hn, hhead]
    omega
  · have hsum : (m.setNode n x).nodes.sum (fun _ y => y.head.claims k) =
        m.nodes.sum (fun _ y => y.head.claims k) := by
      apply Finset.sum_congr rfl
      intro j hj
      have hne : j ≠ n := by
        have := Finset.mem_range.mp hj
        rw [Mem.nodes_setNode_size] at this
        omega
      exact congrArg (fun y => Head.claims (Node.head y) k) (Heap.cell_set_of_ne _ _ hne)
    cases k <;> simp only [claimBalance, hsum, Mem.nodes_setNode_size, Mem.arcs_setNode,
      Mem.vars_setNode]

@[simp] theorem claimBalance_setOut (n p : ℕ) (o : OutputNode) :
    claimBalance (m.setOut n p o) k = claimBalance m k :=
  claimBalance_setNode_head m k rfl

theorem claimBalance_setVar {v : ℕ} (hv : v < m.vars.size) (u : Var) :
    claimBalance (m.setVar v u) k = claimBalance m k + (u.claims k - (m.var v).claims k) := by
  have hsum : (m.setVar v u).vars.sum (fun _ w => w.claims k) =
      m.vars.sum (fun _ w => w.claims k) + (u.claims k - (m.var v).claims k) :=
    Heap.sum_set _ hv _ _
  cases k <;> simp only [claimBalance, hsum, Mem.nodes_setVar, Mem.arcs_setVar] <;> omega

theorem claimBalance_setVar_of_ge {v : ℕ} (hv : ¬ v < m.vars.size) (u : Var) :
    claimBalance (m.setVar v u) k = claimBalance m k := by
  have hsum : (m.setVar v u).vars.sum (fun _ w => w.claims k) =
      m.vars.sum (fun _ w => w.claims k) := by
    apply Finset.sum_congr rfl
    intro j hj
    have hne : j ≠ v := by
      have := Finset.mem_range.mp hj
      rw [Mem.vars_setVar_size] at this
      omega
    exact congrArg (fun w => Var.claims w k) (Heap.cell_set_of_ne _ _ hne)
  cases k <;> simp only [claimBalance, hsum, Mem.nodes_setVar, Mem.arcs_setVar]

/-- A var that holds no more than before, allocated or not. -/
theorem claimBalance_setVar_le {v : ℕ} {u : Var} (hle : u.claims k ≤ (m.var v).claims k) :
    claimBalance (m.setVar v u) k ≤ claimBalance m k := by
  by_cases hv : v < m.vars.size
  · rw [claimBalance_setVar m k hv]
    omega
  · exact (claimBalance_setVar_of_ge m k hv u).le

theorem claimBalance_setVar_empty {v : ℕ} {u : Var} (hu : u.currentTask = none) :
    claimBalance (m.setVar v u) k ≤ claimBalance m k := by
  apply claimBalance_setVar_le
  rw [Var.claims_empty hu]
  exact Var.claims_nonneg _ k

/-- A value written over a var object leaves the claims alone. -/
theorem claimBalance_clobber (v : ℕ) : claimBalance (m.clobber v) k ≤ claimBalance m k :=
  claimBalance_setVar_le m k (by cases k <;> exact le_rfl)

/-- A var holds at most what it holds now on top of what all held before. -/
theorem claimBalance_setVar_add (v : ℕ) (u : Var) :
    claimBalance (m.setVar v u) k ≤ claimBalance m k + u.claims k := by
  have hold := (m.var v).claims_nonneg k
  have hnew := u.claims_nonneg k
  by_cases hv : v < m.vars.size
  · rw [claimBalance_setVar m k hv]
    omega
  · rw [claimBalance_setVar_of_ge m k hv]
    omega

theorem claimBalance_newVar (u : Var) :
    claimBalance (m.newVar u) k = claimBalance m k + u.claims k := by
  have hsum : (m.newVar u).vars.sum (fun _ w => w.claims k) =
      m.vars.sum (fun _ w => w.claims k) + u.claims k := Heap.sum_push _ _ _
  cases k <;> simp only [claimBalance, hsum, Mem.nodes_newVar, Mem.arcs_newVar] <;> omega

@[simp] theorem claimBalance_newVars (j : ℕ) :
    claimBalance (m.newVars j) k = claimBalance m k := by
  induction j generalizing m with
  | zero => rfl
  | succ j ih =>
    show claimBalance ((m.newVar {}).newVars j) k = _
    rw [ih, claimBalance_newVar, Var.claims_empty rfl]
    omega

end Updates

end Oox
