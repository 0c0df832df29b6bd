import Oox.Analysis.IssueChanges

/-!
# Steps that hold their tokens

The setting of every preservation proof: a well-formed memory that owes what the instruction
holds. What other instructions hold at the same time, the step does not touch.
-/

set_option autoImplicit false

namespace Oox

open Library

variable {V : Type}

/-- No admitted instruction holds a negative amount. -/
theorem Instr.tokens_nonneg {m : Mem V} (hbound : Bounded m) {ins : Instr V} (hok : ins.Ok m)
    (k : Token) : 0 ≤ ins.tokens k := by
  have hone := one_nonneg
  have harms := arms_nonneg
  have hvars := varTokens_nonneg
  have hlisted := listedTokens_nonneg
  have hcount : ∀ {t i : ℕ} {count : List ℤ}, CountersOk m t i count →
      0 ≤ counters t i count k := fun hc =>
    counters_nonneg (fun p hp hlt => by
      have := hc.two_le hbound hp hlt
      omega) k
  have hrunning : ∀ t i, 0 ≤ running t i k := fun t i => add_nonneg (hone _ _) (harms _ _ _)
  have hframe : ∀ {f : Frame V} {c : ℕ}, f.Ok m c → 0 ≤ f.tokens c k := fun hf =>
    Frame.tokens_nonneg (by have := hf.1; omega) k
  have hsite : ∀ (n a : ℕ) (site : AddSite V), site.Ok m n a → 0 ≤ site.tokens n a k := by
    intro n a site hs
    cases site with
    | assign f p => exact add_nonneg (hone _ _) (hframe hs.frame)
    | assignTo f p => exact hs.elim
    | ownBack f => exact add_nonneg (hone _ _) (hframe hs.2)
    | forward t =>
      exact add_nonneg (add_nonneg (add_nonneg (hone _ _) (hone _ _)) (hone _ _)) (harms _ _ _)
    | _ => exact hone _ _
  have hscaled : ∀ (c : ℕ) (t : Token), 0 ≤ (c : ℤ) * one t k := fun c t =>
    mul_nonneg (by omega) (hone _ _)
  cases ins with
  | release n c => exact hscaled _ _
  | releaseSub n c => exact hscaled _ _
  | addArc n a site => exact hsite n a site hok
  | addArcCas n a seen site => exact hsite n a site hok
  | setNextWriter n p d =>
    refine add_nonneg (hone _ _) ?_
    cases d <;> first | exact le_rfl | exact hone _ _
  | storeCountdown t canThrow count => exact add_nonneg (hrunning _ _) (hcount hok.2)
  | loadException t count => exact add_nonneg (hrunning _ _) (hcount hok.2)
  | findTerminal t count => exact add_nonneg (hrunning _ _) (hcount hok.2)
  | retainTerminal t c count => exact add_nonneg (hrunning _ _) (hcount hok.2)
  | closeList t canThrow terminal count =>
    refine add_nonneg (add_nonneg (hrunning _ _) (hcount hok.2)) ?_
    cases terminal <;> first | exact le_rfl | exact hone _ _
  | loadFailureFlag t r count => exact add_nonneg (hlisted _ _ _) (hcount hok.2.1)
  | notifyArcs t canThrow failed r count => exact add_nonneg (hlisted _ _ _) (hcount hok.2.1)
  | outLoad t i count refs => exact add_nonneg (hcount hok.2.1) (hscaled _ _)
  | outCas t i count refs => exact add_nonneg (hcount hok.2.1) (hscaled _ _)
  | outSub t i count refs =>
    obtain ⟨-, hrest, -, hi, hbias, -⟩ := hok
    have hle := counted_le_readers m t i
    have hreaders := hbound t i
    refine add_nonneg ?_ (hscaled _ _)
    rw [counters_succ t hi]
    exact add_nonneg (add_nonneg (hone _ _) (mul_nonneg (by omega) (hone _ _))) (hcount hrest)
  | outNotify t i count refs =>
    exact add_nonneg (add_nonneg (hone _ _) (hcount hok.2.1)) (hscaled _ _)
  | wakeup t refs => exact hscaled _ _
  | removePrerequisite n c => exact hscaled _ _
  | spawn n => exact add_nonneg (hone _ _) (hrunning _ _)
  | execute t => exact hrunning _ _
  | invoke t => exact hrunning _ _
  | finish t env vals cells => exact add_nonneg (hrunning _ _) (hvars _ _)
  | storeStart t => exact hrunning _ _
  | addLife t => exact add_nonneg (hone _ _) (harms _ _ _)
  | forwardFailure t => exact hrunning _ _
  | setup f => exact hframe hok
  | assignHead f n p a => exact add_nonneg (hone _ _) (hframe hok.1.frame)
  | assignFailure f n p a => exact add_nonneg (hone _ _) (hframe hok.1.frame)
  | assignIncrement f n p a => exact add_nonneg (hone _ _) (hframe hok.1.frame)
  | redirect n q t p a => exact add_nonneg (add_nonneg (hone _ _) (hone _ _)) (hone _ _)
  | moveArcs n q t p r => exact add_nonneg (add_nonneg (hlisted _ _ _) (hone _ _)) (hone _ _)
  | bind f => exact hframe hok.2
  | moveResult f r =>
    exact add_nonneg (add_nonneg (r.owns_nonneg k) (hvars _ _)) (f.after.tokens_nonneg k)
  | runOps env ops after => exact add_nonneg (hvars _ _) (after.tokens_nonneg k)
  | destroy n => exact hone _ _
  | freeNode n => exact hone _ _
  | deleteArc a => exact hone _ _
  | releaseControl c => exact hone _ _
  | removeBackArc n p => exact hone _ _
  | notifyNextWriter n p => exact hone _ _
  | _ => exact le_rfl

/-! ## Arcs are owed once -/

theorem owed_arc_le {m : Mem V} {k : Token} {a : ℕ} (hk : k.arc? = some a)
    (hpos : 0 < -balance m k) : -balance m k ≤ 1 := by
  have ha := (owed_arc hk hpos).1
  have hnodes : 0 ≤ m.nodes.sum fun n x => nodeBalance n x k :=
    nodes_nonneg (by cases k <;> simp_all [Token.node?, Token.arc?])
  have hvars : 0 ≤ m.vars.sum fun v u => varBalance v u k :=
    vars_nonneg (by cases k <;> simp_all [Token.arc?, Token.var?])
  have hcontrols : 0 ≤ m.controls.sum fun c x => controlBalance c x k :=
    controls_nonneg (by cases k <;> simp_all [Token.arc?, Token.control?])
  have hleft := varTokens_nonneg m.left k
  have hself : -1 ≤ arcBalance a (m.arcs.cell a) k := by
    have hcarries := (m.arcs.cell a).carries_nonneg k
    have hone : one ((m.arcs.cell a).token a) k ≤ 1 := by
      unfold one
      split <;> decide
    have hcontrol := one_nonneg (.control (m.arcs.cell a).control) k
    unfold arcBalance
    split
    · split <;> omega
    · omega
  have hle := Heap.le_sum ha (f := fun b x => arcBalance b x k) fun b _ hb =>
    arcBalance_nonneg (by rw [hk]; simpa using Ne.symm hb) _
  unfold balance
  omega

/-- Nothing in memory holds a token that is owed to instructions. -/
theorem not_head_of_owed {m : Mem V} {k k' : Token} {a n : ℕ} (hk : k.arc? = some a)
    (hk' : k'.arc? = some a) (hn : n < m.nodes.size) (hstatus : (m.node n).status ≠ .dead)
    (hhead : 1 ≤ (m.node n).head.tokens n k) (hbal : balance m k ≤ 0)
    (howed : 0 < -balance m k') : False := by
  obtain ⟨ha, halive, htoken⟩ := arc_of_head hk hn hstatus hhead hbal
  obtain ⟨-, -, htoken'⟩ := owed_arc hk' howed
  obtain rfl : k = k' := htoken.trans htoken'.symm
  have hself : -1 ≤ arcBalance a (m.arcs.cell a) k := by
    have hcarries := (m.arcs.cell a).carries_nonneg k
    have hone : one ((m.arcs.cell a).token a) k ≤ 1 := by
      unfold one
      split <;> decide
    have hcontrol := one_nonneg (.control (m.arcs.cell a).control) k
    unfold arcBalance
    split
    · split <;> omega
    · omega
  have hnodek : k.node? = none := by cases k <;> simp_all [Token.node?, Token.arc?]
  have hnode : 1 ≤ nodeBalance n (m.node n) k := by
    have hrest := nodeBalance_nonneg (n := n) (k := k) (by rw [hnodek]; simp)
      { m.node n with head := .done }
    have hdone : Head.tokens n .done k = 0 := rfl
    simp only [nodeBalance, hdone, if_neg hstatus] at hrest ⊢
    omega
  have hnodes := Heap.le_sum hn (f := fun j x => nodeBalance j x k) fun j _ _ =>
    nodeBalance_nonneg (by rw [hnodek]; simp) _
  have harcs := Heap.le_sum ha (f := fun b x => arcBalance b x k) fun b _ hb =>
    arcBalance_nonneg (by rw [hk]; simpa using Ne.symm hb) _
  have hvars : 0 ≤ m.vars.sum fun v u => varBalance v u k :=
    vars_nonneg (by cases k <;> simp_all [Token.arc?, Token.var?])
  have hcontrols : 0 ≤ m.controls.sum fun c x => controlBalance c x k :=
    controls_nonneg (by cases k <;> simp_all [Token.arc?, Token.control?])
  have hleft := varTokens_nonneg m.left k
  unfold balance at howed
  unfold Mem.node at hnode
  omega

/-! ## The setting -/

variable [Inhabited V]

/-- A step of an admitted instruction, in a memory that owes what the instruction holds. -/
structure Legal (m : Mem V) (spurious : Bool) (ins : Instr V) (m' : Mem V)
    (push : List (Instr V)) (spawned : List (List (Instr V))) : Prop where
  mem : MemOk m
  bounded : Bounded m
  covered : Covered m ins
  ok : ins.Ok m
  tame : ins.Tame m
  step : exec m spurious ins = .next m' push spawned

/-- An instruction that holds its tokens at the same time as `ins`. -/
abbrev With (m : Mem V) (ins j : Instr V) : Prop := Together balance Instr.tokens m ins j

namespace Legal

variable {m m' : Mem V} {spurious : Bool} {ins : Instr V} {push : List (Instr V)}
variable {spawned : List (List (Instr V))}

theorem frozen (h : Legal m spurious ins m' push spawned) : Frozen m m' :=
  (exec_frozen spurious ins).of_next h.step

theorem changes (h : Legal m spurious ins m' push spawned) : Changes ins m m' :=
  (exec_changes spurious ins).of_next h.step

theorem nonneg (h : Legal m spurious ins m' push spawned) (k : Token) : 0 ≤ ins.tokens k :=
  Instr.tokens_nonneg h.bounded h.ok k

theorem balance_le (h : Legal m spurious ins m' push spawned) (k : Token) : balance m k ≤ 0 := by
  have hcov := h.covered k
  have hpos := h.nonneg k
  omega

theorem inLifetime (h : Legal m spurious ins m' push spawned) : inLifetime m ins = true :=
  inLifetime_iff.mpr (sees_of_exec h.step)

/-- The nodes an operation uses are live. -/
theorem live (h : Legal m spurious ins m' push spawned) {n : ℕ} (hn : n ∈ touches m ins) :
    (m.node n).status = .live :=
  (sees_of_exec h.step).live n hn

/-- The arcs an operation uses are alive. -/
theorem alive (h : Legal m spurious ins m' push spawned) {a : ℕ} (ha : a ∈ touchesArcs m ins) :
    (m.arc a).alive = true :=
  (sees_of_exec h.step).alive a ha

/-- Whoever else holds a token of an arc keeps the step from changing the arc. -/
theorem arc_same (h : Legal m spurious ins m' push spawned) {j : Instr V} (hwith : With m ins j)
    {a : ℕ} {k : Token} (hk : k.arc? = some a) (hj : 1 ≤ j.tokens k) : m'.arc a = m.arc a := by
  have howed : 0 < -balance m k := by
    have hk := hwith k
    have hpos := h.nonneg k
    omega
  have hle := owed_arc_le hk howed
  obtain ⟨ha, -, htoken⟩ := owed_arc hk howed
  -- no token of the same arc is left for the instruction that runs
  have hno : ∀ k', k'.arc? = some a → ¬ 1 ≤ ins.tokens k' := by
    intro k' hk' hins
    have hcov := h.covered k'
    obtain ⟨-, -, htoken'⟩ := owed_arc (m := m) hk' (by omega)
    obtain rfl : k = k' := htoken.trans htoken'.symm
    have hsum := hwith k
    omega
  rcases h.changes.arc a ha with heq | hchange
  · exact heq
  · exfalso
    cases ins with
    | addArc n b site =>
      obtain ⟨rfl, -⟩ := hchange
      exact hno (site.arcToken n a) (by cases site <;> rfl) (site.tokens_arc n a).ge
    | addArcCas n b seen site =>
      obtain ⟨rfl, -⟩ := hchange
      exact hno (site.arcToken n a) (by cases site <;> rfl) (site.tokens_arc n a).ge
    | freeNode n =>
      have hdel := h.covered (.del n)
      simp only [Instr.tokens, one_self] at hdel
      obtain ⟨hn, hstatus, -⟩ := owed_del (n := n) (m := m) (by omega)
      have hdead : (m.node n).status ≠ .dead := by simp [hstatus]
      rcases hchange.1 with hhead | hhead
      · exact not_head_of_owed (k := .payload a n) rfl hk hn hdead
          (by rw [hhead]; simp [Head.tokens]) (h.balance_le _) howed
      · exact not_head_of_owed (k := .descriptor a n) rfl hk hn hdead
          (by rw [hhead]; simp [Head.tokens]) (h.balance_le _) howed
    | deleteArc b =>
      obtain ⟨rfl, -⟩ := hchange
      exact hno (.spent a) rfl (by simp [Instr.tokens])
    | notifyArcs t canThrow failed r count =>
      have hmem : a ∈ r := List.mem_of_mem_head? hchange.1
      have hlisted := one_le_listedTokens (n := t) hmem
      have hcount : counters t 0 count (.listed a t) = 0 := counters_eq_zero (by simp) (by simp)
      refine hno (.listed a t) rfl ?_
      simp only [Instr.tokens]
      omega
    | assignHead f n p b =>
      obtain ⟨rfl, -⟩ := hchange
      refine hno (.arc a n) rfl ?_
      simp [Instr.tokens, Frame.tokens_eq_zero, Token.arc?]
    | assignIncrement f n p b =>
      obtain ⟨rfl, -⟩ := hchange
      refine hno (.arc a n) rfl ?_
      simp [Instr.tokens, Frame.tokens_eq_zero, Token.arc?]
    | moveArcs n q t p r =>
      have hmem : a ∈ r := List.mem_of_mem_head? hchange.1
      have hlisted := one_le_listedTokens (n := n) hmem
      have hcap := one_nonneg (.cap n q) (.listed a n)
      have hpre := one_nonneg (.pre t) (.listed a n)
      refine hno (.listed a n) rfl ?_
      simp only [Instr.tokens]
      omega
    | _ => exact hchange

end Legal

end Oox
