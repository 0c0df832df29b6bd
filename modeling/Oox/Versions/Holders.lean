import Oox.Versions.StorePushes

/-!
# Who may set the next writer of a version

The right to set the next writer of a slot is never lost: while the next writer is not set, a
var names the version, or an instruction on a stack is about to set it, or the call that makes
the task has not got as far as the slot. The ledger says so.
-/

set_option autoImplicit false

namespace Oox

open Library

variable {V : Type}

/-- Var `u` names version `(n, p)`. -/
def Var.names (u : Var) (n p : ℕ) : ℤ :=
  if u.currentTask = some n ∧ u.currentPort = p then 1 else 0

/-- The next writer of a slot can still be set. -/
def OutputNode.Open (o : OutputNode) : Prop := o.nextWriter = .null ∨ o.nextWriter = .ready

instance (o : OutputNode) : Decidable o.Open := inferInstanceAs (Decidable (_ ∨ _))

section Balance

theorem one_cap (n p q i : ℕ) : one (.cap q i) (.cap n p) = if q = n ∧ i = p then 1 else 0 := by
  by_cases h : q = n ∧ i = p
  · rw [if_pos h, h.1, h.2, one_self]
  · rw [if_neg h, one_of_ne]
    intro heq
    injection heq with hq hi
    exact h ⟨hq.symm, hi.symm⟩

theorem varBalance_cap (v n p : ℕ) (u : Var) :
    varBalance v u (.cap n p) = if u.borrowed then 0 else u.names n p := by
  have hvar : one (.var v) (.cap n p) = 0 := one_of_ne (by simp)
  have howns : u.owns (.cap n p) = u.names n p := by
    unfold Var.owns Var.names
    cases u.currentTask with
    | none => simp
    | some q =>
      have hlife : ∀ o, one (.life o) (.cap n p) = 0 := fun o => one_of_ne (by simp)
      cases u.owner <;> simp [one_cap, hlife]
  simp only [varBalance, hvar, howns, sub_zero]

theorem nodeBalance_cap (q n p : ℕ) (x : Node V) :
    nodeBalance q x (.cap n p) = if q = n then
      if p < x.slots ∧ (x.out p).Open then -1 else 0 else 0 := by
  rw [nodeBalance_slot rfl]
  by_cases hp : p < x.slots
  · by_cases hq : q = n
    · subst hq
      rw [if_pos hp, if_pos rfl]
      by_cases hopen : (x.out p).Open
      · rw [if_pos ⟨hp, hopen⟩]
        rcases hopen with hw | hw <;> simp [slotBalance, NextWriter.tokens, one, hw]
      · rw [if_neg fun h => hopen h.2]
        unfold OutputNode.Open at hopen
        cases hw : (x.out p).nextWriter <;> simp_all [slotBalance, NextWriter.tokens, one]
    · cases hw : (x.out p).nextWriter <;>
        simp [hq, slotBalance, NextWriter.tokens, one, hw, Ne.symm hq]
  · simp [hp]

/-- The vars that name a version against the slot whose next writer is to be set. -/
theorem balance_cap (m : Mem V) (n p : ℕ) :
    balance m (.cap n p) = m.vars.sum (fun _ u => if u.borrowed then 0 else u.names n p) +
      if n < m.nodes.size then
        if p < (m.node n).slots ∧ ((m.node n).out p).Open then -1 else 0
      else 0 := by
  have hnodes : m.nodes.sum (fun q x => nodeBalance q x (.cap n p)) =
      if n < m.nodes.size then
        if p < (m.node n).slots ∧ ((m.node n).out p).Open then -1 else 0
      else 0 := by
    simp only [nodeBalance_cap, Heap.sum]
    rw [Finset.sum_ite_eq' (Finset.range m.nodes.size) n]
    simp only [Finset.mem_range]
    rfl
  have harcs : m.arcs.sum (fun a x => arcBalance a x (.cap n p)) = 0 := by
    refine Finset.sum_eq_zero fun a _ => ?_
    have hcarries : ∀ x : Arc, x.carries (.cap n p) = 0 := by
      intro x
      unfold Arc.carries
      split <;> simp [one]
    have htoken : ∀ x : Arc, one (x.token a) (.cap n p) = 0 := by
      intro x
      unfold Arc.token
      split_ifs
      · simp [one]
      · split <;> simp [one]
    simp [arcBalance, hcarries, htoken, one_of_ne (t := .control _) (k := .cap n p)]
  have hcontrols : m.controls.sum (fun c x => controlBalance c x (.cap n p)) = 0 :=
    Finset.sum_eq_zero fun c _ => by simp [controlBalance, one]
  simp only [balance, hnodes, harcs, hcontrols, varBalance_cap,
    varTokens_eq_zero (k := .cap n p) rfl]
  ring

end Balance

/-! ## Instructions that hold the right -/

/-- The call of `run` an instruction belongs to. -/
def AddSite.frame? : AddSite V → Option (Frame V)
  | .assign f _ => some f
  | .assignTo f _ => some f
  | .ownBack f => some f
  | _ => none

def Instr.frame? : Instr V → Option (Frame V)
  | .addArc _ _ site => site.frame?
  | .addArcCas _ _ _ site => site.frame?
  | .setup f => some f
  | .assignHead f _ _ _ => some f
  | .assignFailure f _ _ _ => some f
  | .assignIncrement f _ _ _ => some f
  | .bind f => some f
  | _ => none

theorem Instr.frame_stored {m : Mem V} {ins : Instr V} {rest : List (Instr V)} {f : Frame V}
    (hframe : ins.frame? = some f) (h : ins.Stored m rest) : f.Stored m := by
  have hsite : ∀ {site : AddSite V}, site.frame? = some f → site.Stored m → f.Stored m := by
    intro site hs hstored
    cases site with
    | assign g p =>
      cases hs
      exact hstored
    | assignTo g p =>
      cases hs
      exact hstored
    | ownBack g =>
      cases hs
      exact hstored
    | _ => cases hs
  cases ins with
  | addArc n a site => exact hsite hframe h
  | addArcCas n a seen site => exact hsite hframe h
  | setup g =>
    cases hframe
    exact h
  | assignHead g n p a =>
    cases hframe
    exact h
  | assignFailure g n p a =>
    cases hframe
    exact h
  | assignIncrement g n p a =>
    cases hframe
    exact h
  | bind g =>
    cases hframe
    exact h
  | _ => cases hframe

/-- What an instruction of a call holds, the call holds, and an arc besides. -/
theorem Instr.frame_tokens {ins : Instr V} {f : Frame V} (hframe : ins.frame? = some f) :
    ∃ c, (∀ k, f.tokens c k ≤ ins.tokens k) ∧
      ∀ k : Token, k.arc? = none → ins.tokens k = f.tokens c k := by
  have harc : ∀ {k : Token} {a n : ℕ}, k.arc? = none → one (.arc a n) k = 0 :=
    fun hk => one_of_ne (by rintro rfl; cases hk)
  have hadd : ∀ {ins : Instr V} {a n : ℕ} {c : ℕ},
      (∀ k, ins.tokens k = one (.arc a n) k + f.tokens c k) →
      ∃ c, (∀ k, f.tokens c k ≤ ins.tokens k) ∧
        ∀ k : Token, k.arc? = none → ins.tokens k = f.tokens c k := by
    intro ins a n c heq
    refine ⟨c, fun k => ?_, fun k hk => ?_⟩
    · have hone := one_nonneg (.arc a n) k
      have hk := heq k
      omega
    · rw [heq, harc hk, zero_add]
  cases ins with
  | addArc n a site =>
    cases site with
    | assign g p =>
      cases hframe
      exact hadd fun k => rfl
    | assignTo g p =>
      cases hframe
      exact hadd fun k => rfl
    | ownBack g =>
      cases hframe
      exact hadd fun k => rfl
    | _ => cases hframe
  | addArcCas n a seen site =>
    cases site with
    | assign g p =>
      cases hframe
      exact hadd fun k => rfl
    | assignTo g p =>
      cases hframe
      exact hadd fun k => rfl
    | ownBack g =>
      cases hframe
      exact hadd fun k => rfl
    | _ => cases hframe
  | setup g =>
    cases hframe
    exact ⟨f.count, fun k => le_rfl, fun k _ => rfl⟩
  | bind g =>
    cases hframe
    exact ⟨f.count, fun k => le_rfl, fun k _ => rfl⟩
  | assignHead g n p a =>
    cases hframe
    exact hadd fun k => rfl
  | assignFailure g n p a =>
    cases hframe
    exact hadd fun k => rfl
  | assignIncrement g n p a =>
    cases hframe
    exact hadd fun k => rfl
  | _ => cases hframe

/-- A call holds the right to the slots of its task that it has not set up yet. -/
theorem Frame.cap_cases {f : Frame V} {c n p : ℕ} (h : 0 < f.tokens c (.cap n p)) :
    f.task = n ∧ (p = 0 ∨ f.port ≤ p) := by
  have hafter : f.after.tokens (.cap n p) = 0 := by
    cases f.after <;> simp [After.tokens, running, one, arms]
  have hsetup : one (.setup f.task) (.cap n p) = 0 := one_of_ne (by simp)
  have hpre : one (.pre f.task) (.cap n p) = 0 := one_of_ne (by simp)
  simp only [Frame.tokens, hafter, hsetup, hpre, varTokens_eq_zero (k := .cap n p) rfl, one_cap,
    mul_zero, add_zero, zero_add] at h
  by_contra hno
  rw [if_neg (fun heq => hno ⟨heq.1, .inl heq.2.symm⟩), zero_add] at h
  rw [Finset.sum_eq_zero] at h
  · exact lt_irrefl _ h
  · intro q hq
    apply if_neg
    rintro ⟨htask, rfl⟩
    exact hno ⟨htask, .inr (Finset.mem_Ico.mp hq).1⟩

/-- The instructions that may set the next writer of a version, now or later. -/
theorem Instr.cap_cases {ins : Instr V} {n p : ℕ} (h : 0 < ins.tokens (.cap n p)) :
    (∃ d, ins = .setNextWriter n p d) ∨ (∃ t i a, ins = .redirect n p t i a) ∨
      (∃ t i r, ins = .moveArcs n p t i r) ∨
      (∃ f r, ins = .moveResult f r ∧ r.currentTask = some n ∧ r.currentPort = p) ∨
      ∃ f, ins.frame? = some f ∧ f.task = n ∧ (p = 0 ∨ f.port ≤ p) := by
  by_cases hframe : ∃ f, ins.frame? = some f
  · obtain ⟨f, hf⟩ := hframe
    obtain ⟨c, -, heq⟩ := Instr.frame_tokens hf
    rw [heq _ rfl] at h
    exact .inr (.inr (.inr (.inr ⟨f, hf, Frame.cap_cases h⟩)))
  · have hafter : ∀ after : After V, after.tokens (.cap n p) = 0 := by
      intro after
      cases after <;> simp [After.tokens, running, one, arms]
    have hcount : ∀ t i count, counters t i count (.cap n p) = 0 := fun t i count => by
      simp [counters, one]
    have hlisted : ∀ t r, listedTokens t r (.cap n p) = 0 := fun t r => listedTokens_eq_zero rfl
    have hvars : ∀ vs, varTokens vs (.cap n p) = 0 := fun vs => varTokens_eq_zero rfl
    cases ins with
    | setNextWriter q i d =>
      have hnext : d.tokens (.cap n p) = 0 := by cases d <;> simp [NextWriter.tokens, one]
      simp only [Instr.tokens, hnext, one_cap, add_zero] at h
      split at h
      · rename_i heq
        obtain ⟨rfl, rfl⟩ := heq
        exact .inl ⟨d, rfl⟩
      · exact absurd h (lt_irrefl _)
    | redirect q i t j a =>
      simp only [Instr.tokens, one_cap, one_of_ne (t := .descriptor a q) (k := .cap n p) (by simp),
        one_of_ne (t := .pre t) (k := .cap n p) (by simp), zero_add, add_zero] at h
      split at h
      · rename_i heq
        obtain ⟨rfl, rfl⟩ := heq
        exact .inr (.inl ⟨t, j, a, rfl⟩)
      · exact absurd h (lt_irrefl _)
    | moveArcs q i t j r =>
      simp only [Instr.tokens, one_cap, hlisted,
        one_of_ne (t := .pre t) (k := .cap n p) (by simp), zero_add, add_zero] at h
      split at h
      · rename_i heq
        obtain ⟨rfl, rfl⟩ := heq
        exact .inr (.inr (.inl ⟨t, j, r, rfl⟩))
      · exact absurd h (lt_irrefl _)
    | moveResult f r =>
      have howns : r.owns (.cap n p) = r.names n p := by
        have hcap := varBalance_cap 0 n p { r with borrowed := false }
        simpa [varBalance, one, Var.owns, Var.names] using hcap
      simp only [Instr.tokens, howns, hvars, hafter, add_zero] at h
      unfold Var.names at h
      split at h
      · rename_i heq
        exact .inr (.inr (.inr (.inl ⟨f, r, rfl, heq.1, heq.2⟩)))
      · exact absurd h (lt_irrefl _)
    | addArc q a site =>
      cases site with
      | assign f i => exact absurd ⟨f, rfl⟩ hframe
      | assignTo f i => exact absurd ⟨f, rfl⟩ hframe
      | ownBack f => exact absurd ⟨f, rfl⟩ hframe
      | _ => simp [Instr.tokens, AddSite.tokens, one, arms] at h
    | addArcCas q a seen site =>
      cases site with
      | assign f i => exact absurd ⟨f, rfl⟩ hframe
      | assignTo f i => exact absurd ⟨f, rfl⟩ hframe
      | ownBack f => exact absurd ⟨f, rfl⟩ hframe
      | _ => simp [Instr.tokens, AddSite.tokens, one, arms] at h
    | setup f => exact absurd ⟨f, rfl⟩ hframe
    | bind f => exact absurd ⟨f, rfl⟩ hframe
    | assignHead f q i a => exact absurd ⟨f, rfl⟩ hframe
    | assignFailure f q i a => exact absurd ⟨f, rfl⟩ hframe
    | assignIncrement f q i a => exact absurd ⟨f, rfl⟩ hframe
    | closeList t canThrow terminal count =>
      cases terminal <;> simp [Instr.tokens, running, hcount, one, arms] at h
    | _ => simp [Instr.tokens, running, hcount, hlisted, hvars, hafter, one, arms] at h

/-- Somebody has the right to set the next writer that is not set. -/
theorem Law.cap_holder {c : State V} (h : Law c) {n p : ℕ} (hn : n < c.mem.nodes.size)
    (hp : p < (c.mem.node n).slots) (hopen : ((c.mem.node n).out p).Open) :
    (∃ v < c.mem.vars.size, (c.mem.var v).borrowed = false ∧
      (c.mem.var v).currentTask = some n ∧ (c.mem.var v).currentPort = p) ∨
    ∃ l ∈ c.threads, ∃ ins ∈ l, 0 < ins.tokens (.cap n p) := by
  have hlaw := h (.cap n p)
  rw [balance_cap, if_pos hn, if_pos ⟨hp, hopen⟩] at hlaw
  by_cases hvars : 0 < c.mem.vars.sum fun _ u => if u.borrowed then 0 else u.names n p
  · left
    obtain ⟨v, hv, hpos⟩ := Finset.exists_lt_of_sum_lt (s := Finset.range c.mem.vars.size)
      (f := fun _ => (0 : ℤ)) (by simpa [Heap.sum] using hvars)
    refine ⟨v, Finset.mem_range.mp hv, ?_⟩
    split at hpos
    · exact absurd hpos (lt_irrefl _)
    · rename_i hborrowed
      unfold Var.names at hpos
      split at hpos
      · rename_i hnames
        exact ⟨eq_false_of_ne_true hborrowed, hnames.1, hnames.2⟩
      · exact absurd hpos (lt_irrefl _)
  · right
    exact exists_pos_of_threadSum_pos (by omega)

end Oox
