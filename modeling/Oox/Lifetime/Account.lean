import Oox.Preservation.Sound

/-!
# The account of a node's references

`bind_to` takes all references of a task at once (oox.h:1325-1332, 1789-1814): one for the
pending execute, one for each output slot, one for the owner of the storage. They are given back
from the execute guard, the slots, the end markers, the vars, and the calls of `release` that are
on their way. The law of the ledger, read at the references of one node, says that what is still
to be given back is what the node counts.
-/

set_option autoImplicit false

namespace Oox

open Library

variable {V : Type}

/-! ## Who has references -/

/-- The references on `n` that a var has: the owner of the storage, when the var is not empty. -/
def Var.references (u : Var) (n : ℕ) : ℤ :=
  if u.currentTask.isSome ∧ u.owner = some n then 1 else 0

/-- The references on `n` that slot `o` of node `q` has until its next writer is notified: that
of the slot itself, and that of an owner in the end marker. -/
def OutputNode.references (o : OutputNode) (q n : ℕ) : ℤ :=
  if o.notified = 0 then
    (if q = n then 1 else 0) + (if o.nextWriter = .owner n then 1 else 0)
  else 0

/-- A task that is not dispatched yet keeps the reference of its execute; a suspended one that
of its resumption. -/
def Phase.references : Phase → ℤ
  | .setup => 1
  | .waiting => 1
  | .suspended => 1
  | _ => 0

/-- The references on `n` that node `q` has. -/
def Node.references (x : Node V) (q n : ℕ) : ℤ :=
  (if q = n then x.phase.references else 0) +
    ∑ p ∈ Finset.range x.slots, (x.out p).references q n

/-- The references on `n` that an operation is about to give back, or to hand on. -/
def Instr.references (n : ℕ) : Instr V → ℤ
  | .release q k => if q = n then k else 0
  | .releaseSub q k => if q = n then k else 0
  | .addArc _ _ (.forward t) => if t = n then 1 else 0
  | .addArcCas _ _ _ (.forward t) => if t = n then 1 else 0
  | .setNextWriter _ _ d => if d = .owner n then 1 else 0
  | .outLoad t _ _ refs => if t = n then refs else 0
  | .outCas t _ _ refs => if t = n then refs else 0
  | .outSub t _ _ refs => if t = n then refs else 0
  | .outNotify t _ _ refs => if t = n then refs else 0
  | .wakeup t refs => if t = n then refs else 0
  | .spawn t => if t = n then 1 else 0
  | .moveResult _ r => r.references n
  | _ => 0

/-- All references on `n` that are still to be given back. -/
def unreleased (c : State V) (n : ℕ) : ℤ :=
  c.mem.nodes.sum (fun q x => x.references q n) +
  c.mem.vars.sum (fun _ u => if u.borrowed then 0 else u.references n) +
  threadSum (fun ins (n : ℕ) => Instr.references n ins) c.threads n

/-- The references a node counts: `life_count`, for a task in its set-up what `bind_to` will
store less the owner's, and none for a node that is being destroyed or gone. -/
def Node.counts (x : Node V) : ℤ := lifeSupply x.status x.phase x.slots x.lifeCount

/-! ## The account is the ledger at one kind of token -/

theorem one_life (q n : ℕ) : one (.life q) (.life n) = if q = n then 1 else 0 := by
  by_cases hq : q = n
  · simp [hq]
  · rw [if_neg hq, one_of_ne (by simpa using Ne.symm hq)]

theorem Var.owns_life (u : Var) (n : ℕ) : u.owns (.life n) = u.references n := by
  unfold Var.owns Var.references
  cases u.currentTask with
  | none => simp
  | some q =>
    have hcap : one (.cap q u.currentPort) (.life n) = 0 := one_of_ne (by simp)
    cases u.owner <;> simp [one_life, hcap]

theorem slotBalance_life (q p n : ℕ) (o : OutputNode) :
    slotBalance q p o (.life n) = o.references q n := by
  have hback : one (.back q p) (.life n) = 0 := one_of_ne (by simp)
  have hhand : one (.hand q p) (.life n) = 0 := one_of_ne (by simp)
  have hfire : one (.fire q p) (.life n) = 0 := one_of_ne (by simp)
  have hcap : one (.cap q p) (.life n) = 0 := one_of_ne (by simp)
  have hnext : o.nextWriter.tokens (.life n) = if o.nextWriter = .owner n then 1 else 0 := by
    cases o.nextWriter with
    | owner a => simp [NextWriter.tokens, one_life]
    | node d => simp [NextWriter.tokens, one]
    | _ => rfl
  simp only [slotBalance, OutputNode.references, one_life, hback, hhand, hfire, hcap, hnext,
    mul_zero, ite_self, sub_zero, add_zero]

theorem nodeBalance_life (q n : ℕ) (x : Node V) :
    nodeBalance q x (.life n) = x.references q n - if q = n then x.counts else 0 := by
  have hexec : one (.exec q) (.life n) = 0 := one_of_ne (by simp)
  have hpending : x.phase.pending q (.life n) = if q = n then x.phase.references else 0 := by
    cases x.phase <;> simp [Phase.pending, Phase.references, one_life, hexec, arms]
  have hrights : x.phase.rights q (.life n) = 0 := by
    cases x.phase <;> simp [Phase.rights, one]
  have hslots : ∑ p ∈ Finset.range x.slots, slotBalance q p (x.out p) (.life n) =
      ∑ p ∈ Finset.range x.slots, (x.out p).references q n :=
    Finset.sum_congr rfl fun p _ => slotBalance_life q p n (x.out p)
  have hpre : one (.pre q) (.life n) = 0 := one_of_ne (by simp)
  have hdel : one (.del q) (.life n) = 0 := one_of_ne (by simp)
  have hvar : one (.var x.inner) (.life n) = 0 := one_of_ne (by simp)
  have hself : lifeSupply x.status x.phase x.slots x.lifeCount * one (.life q) (.life n) =
      if q = n then x.counts else 0 := by
    rw [one_life, mul_ite, mul_one, mul_zero]
    rfl
  simp only [nodeBalance, hpending, hrights, hslots, hself, hpre, hdel, hvar, armSupply,
    Node.references, Head.tokens_eq_zero (k := .life n) rfl,
    varTokens_eq_zero (k := .life n) rfl, ite_self]
  ring

theorem frame_life (f : Frame V) (c n : ℕ) : f.tokens c (.life n) = 0 := by
  have hafter : f.after.tokens (.life n) = 0 := by
    cases f.after <;> simp [After.tokens, running, one, arms]
  simp [Frame.tokens, one, hafter, varTokens_eq_zero (k := .life n) rfl]

theorem counters_life (t i n : ℕ) (count : List ℤ) : counters t i count (.life n) = 0 := by
  simp [counters, one]

theorem Instr.tokens_life (ins : Instr V) (n : ℕ) : ins.tokens (.life n) = ins.references n := by
  have hlisted : ∀ q l, listedTokens q l (.life n) = 0 := fun q l => listedTokens_eq_zero rfl
  have hvars : ∀ vs, varTokens vs (.life n) = 0 := fun vs => varTokens_eq_zero rfl
  have hafter : ∀ after : After V, after.tokens (.life n) = 0 := by
    intro after
    cases after <;> simp [After.tokens, running, one, arms]
  have hother : ∀ t : Token, (∀ q, t ≠ .life q) → one t (.life n) = 0 :=
    fun t ht => one_of_ne fun h => ht n h.symm
  cases ins with
  | addArc q a site =>
    cases site <;> simp [Instr.tokens, AddSite.tokens, Instr.references, frame_life, one_life,
      hother, arms]
  | addArcCas q a seen site =>
    cases site <;> simp [Instr.tokens, AddSite.tokens, Instr.references, frame_life, one_life,
      hother, arms]
  | setNextWriter q p d =>
    cases d <;> simp [Instr.tokens, Instr.references, NextWriter.tokens, one_life, hother]
  | closeList t canThrow terminal count =>
    cases terminal <;>
      simp [Instr.tokens, Instr.references, running, counters_life, hother, arms]
  | moveResult f r =>
    simp [Instr.tokens, Instr.references, Var.owns_life, hvars, hafter]
  | _ =>
    simp [Instr.tokens, Instr.references, running, counters_life, frame_life, hlisted, hvars,
      hafter, one_life, hother, arms]

theorem varBalance_life (v n : ℕ) (u : Var) :
    varBalance v u (.life n) = if u.borrowed then 0 else u.references n := by
  simp only [varBalance, Var.owns_life, one_of_ne (t := .var v) (k := .life n) (by simp), sub_zero]

/-- The references of the memory on `n` against what `n` counts. -/
theorem balance_life (m : Mem V) (n : ℕ) :
    balance m (.life n) = m.nodes.sum (fun q x => x.references q n) +
      m.vars.sum (fun _ u => if u.borrowed then 0 else u.references n) -
      if n < m.nodes.size then (m.node n).counts else 0 := by
  have hnodes : m.nodes.sum (fun q x => nodeBalance q x (.life n)) =
      m.nodes.sum (fun q x => x.references q n) -
        if n < m.nodes.size then (m.node n).counts else 0 := by
    simp only [nodeBalance_life, Heap.sum, Finset.sum_sub_distrib]
    rw [Finset.sum_ite_eq' (Finset.range m.nodes.size) n]
    simp only [Finset.mem_range]
    rfl
  have harcs : m.arcs.sum (fun a x => arcBalance a x (.life n)) = 0 := by
    refine Finset.sum_eq_zero fun a _ => ?_
    have hcarries : ∀ x : Arc, x.carries (.life n) = 0 := by
      intro x
      unfold Arc.carries
      split <;> simp [one]
    have htoken : ∀ x : Arc, one (x.token a) (.life n) = 0 := by
      intro x
      unfold Arc.token
      split_ifs
      · simp [one]
      · split <;> simp [one]
    simp [arcBalance, hcarries, htoken, one_of_ne (t := .control _) (k := .life n)]
  have hcontrols : m.controls.sum (fun c x => controlBalance c x (.life n)) = 0 :=
    Finset.sum_eq_zero fun c _ => by simp [controlBalance, one]
  simp only [balance, hnodes, harcs, hcontrols, varBalance_life,
    varTokens_eq_zero (k := .life n) rfl]
  ring

theorem balanced_life (c : State V) (n : ℕ) :
    balance c.mem (.life n) + threadSum Instr.tokens c.threads (.life n) =
      unreleased c n - if n < c.mem.nodes.size then (c.mem.node n).counts else 0 := by
  have hthreads : threadSum Instr.tokens c.threads (.life n) =
      threadSum (fun ins (n : ℕ) => Instr.references n ins) c.threads n := by
    simp only [threadSum, stackSum, Instr.tokens_life]
  rw [balance_life, hthreads]
  unfold unreleased
  ring

/-- Every node counts what is still to be given back. -/
def Accounted (c : State V) : Prop := ∀ n, (c.mem.node n).counts = unreleased c n

/-- While the law of the ledger holds, the references add up. -/
theorem Law.accounted {c : State V} (h : Law c)
    (hlt : ∀ n, (c.mem.node n).status ≠ .dead → n < c.mem.nodes.size) : Accounted c := by
  intro n
  have hlaw := h (.life n)
  rw [balanced_life] at hlaw
  split_ifs at hlaw with hn
  · omega
  · have hdead : (c.mem.node n).status = .dead := by
      by_contra hne
      exact hn (hlt n hne)
    have hcounts : (c.mem.node n).counts = 0 := by
      simp [Node.counts, lifeSupply, hdead]
    omega

end Oox
