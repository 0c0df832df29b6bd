import Oox.Lifetime.Pins

/-!
# Who keeps the nodes that an instruction uses

Most instructions hold a right that pins every node they use. The others rely on the caller:
`publish_failure_from` on the prerequisite that is removed after it, a wait on the var of the
thread, the last steps of a completion on the guard that `execute` holds. The caller's
instructions are below on the same stack, so a fact about each stack says it all: what an
instruction needs, something below it keeps.
-/

set_option autoImplicit false

namespace Oox

open Library

variable {V : Type}

/-! ## What is needed -/

/-- The task whose body a caller returns to. -/
def After.task : After V → List ℕ
  | .exit => []
  | .body t _ _ => [t]

def AddSite.needs (n : ℕ) : AddSite V → List ℕ
  | .assign f _ => f.after.task
  | .assignTo f _ => f.after.task
  | .ownBack f => f.after.task
  | .forward t => [t]
  | _ => [n]

/-- The nodes that what is below an instruction has to keep: those it has no right to, and for
a step of a task the task, which is guarded until `execute` returns. -/
def Instr.needs : Instr V → List ℕ
  | .release n k => if k = 0 then [n] else []
  | .releaseSub n k => if k = 0 then [n] else []
  | .addArc n _ site => site.needs n
  | .addArcCas n _ _ site => site.needs n
  | .storeCountdown t _ _ => [t]
  | .loadException t _ => [t]
  | .findTerminal t _ => [t]
  | .retainTerminal t _ _ => [t]
  | .closeList t _ _ _ => [t]
  | .loadFailureFlag t _ _ => [t]
  | .notifyArcs t _ _ _ _ => [t]
  | .outLoad t _ _ _ => [t]
  | .outCas t _ _ _ => [t]
  | .outSub t _ _ _ => [t]
  | .outNotify t _ _ _ => [t]
  | .wakeup t _ => [t]
  | .publish n source _ => [n, source]
  | .publishControl n source => [n, source]
  | .retainSignal n _ => [n]
  | .mark n _ => [n]
  | .markLoad n _ => [n]
  | .markCheck n _ _ => [n]
  | .markCas n _ _ => [n]
  | .execute t => [t]
  | .invoke t => [t]
  | .finish t _ _ _ => [t]
  | .storeStart t => [t]
  | .addLife t => [t]
  | .forwardFailure t => [t]
  | .setup f => f.after.task
  | .assignHead f _ _ _ => f.after.task
  | .assignFailure f _ _ _ => f.after.task
  | .assignIncrement f _ _ _ => f.after.task
  | .bind f => f.after.task
  | .moveResult f _ => f.after.task
  | .runOps _ _ after => after.task
  | .waitHead n => [n]
  | .waitBlock n => [n]
  | .waitDone n => [n]
  | _ => []

/-! ## What keeps a node -/

/-- Instruction `x` keeps node `n`: by a right of its own, by a var it may use, or by the var
that its task is about to return. -/
def Keeps (m : Mem V) (n : ℕ) (x : Instr V) : Prop :=
  (∃ k, Token.Pins n k ∧ 0 < x.tokens k) ∨
  (∃ v, 0 < x.tokens (.var v) ∧ (m.var v).currentTask = some n) ∨
  ∃ t, (0 < x.tokens (.exec t) ∨ 0 < x.tokens (.forward t)) ∧
    (m.var (m.node t).inner).currentTask = some n

/-- Something on the stack keeps node `n`. -/
def Kept (m : Mem V) (n : ℕ) (l : List (Instr V)) : Prop := ∃ x ∈ l, Keeps m n x

section Kept

variable {m : Mem V} {n : ℕ} {x : Instr V} {l l' : List (Instr V)}

theorem Kept.head (h : Keeps m n x) : Kept m n (x :: l) := ⟨x, List.mem_cons_self, h⟩

theorem Kept.below (h : Kept m n l) : Kept m n (x :: l) := by
  obtain ⟨y, hy, hkeeps⟩ := h
  exact ⟨y, List.mem_cons_of_mem _ hy, hkeeps⟩

theorem Kept.append (h : Kept m n l) : Kept m n (l' ++ l) := by
  obtain ⟨y, hy, hkeeps⟩ := h
  exact ⟨y, List.mem_append_right _ hy, hkeeps⟩

theorem Keeps.of_pin {k : Token} (hk : k.Pins n) (hx : 0 < x.tokens k) : Keeps m n x :=
  .inl ⟨k, hk, hx⟩

theorem Keeps.of_var {v : ℕ} (hx : 0 < x.tokens (.var v)) (hv : (m.var v).currentTask = some n) :
    Keeps m n x :=
  .inr (.inl ⟨v, hx, hv⟩)

theorem Keeps.of_inner {t : ℕ} (hx : 0 < x.tokens (.exec t) ∨ 0 < x.tokens (.forward t))
    (ht : (m.var (m.node t).inner).currentTask = some n) : Keeps m n x :=
  .inr (.inr ⟨t, hx, ht⟩)

end Kept

/-! ## What an instruction aims at -/

/-- Something on the stack has the right `k`. -/
def Held (k : Token) (l : List (Instr V)) : Prop := ∃ x ∈ l, 0 < x.tokens k

theorem Held.append {k : Token} {l l' : List (Instr V)} (h : Held k l) : Held k (l' ++ l) := by
  obtain ⟨x, hx, hpos⟩ := h
  exact ⟨x, List.mem_append_right _ hx, hpos⟩

/-- An arc goes to a task that still has a prerequisite, or from a forwarding task to the var it
returns. -/
def AddSite.Aims (m : Mem V) (rest : List (Instr V)) (n : ℕ) : AddSite V → Prop
  | .forward t => (m.var (m.node t).inner).currentTask = some n
  | .back => Held (.pre n) rest
  | .moved => Held (.pre n) rest
  | _ => True

/-- A node whose list is no longer open. -/
structure Mem.Closed (m : Mem V) (n : ℕ) : Prop where
  lt : n < m.nodes.size
  head : ∀ l, (m.node n).head ≠ .list l

/-- A node whose list carries a done or a terminal marker. -/
structure Mem.Completed (m : Mem V) (n : ℕ) : Prop where
  lt : n < m.nodes.size
  done : (m.node n).head.isDone = true

theorem Mem.Completed.closed {m : Mem V} {n : ℕ} (h : m.Completed n) : m.Closed n := by
  refine ⟨h.lt, fun l hl => ?_⟩
  have hdone := h.done
  rw [hl] at hdone
  cases hdone

/-- What an instruction found out about the objects it works on: a completing task about its
list, a forwarding task about the var it returns, a failure about its source, and a reference
that is about to be taken about the payload. -/
def Instr.Aims (m : Mem V) (rest : List (Instr V)) : Instr V → Prop
  | .addArc n _ site => site.Aims m rest n
  | .addArcCas n _ _ site => site.Aims m rest n
  | .retainTerminal t c _ => ∃ l a, (m.node t).head = .list l ∧ a ∈ l ∧
      (m.arc a).kind = .exceptionSignal ∧ (m.arc a).control = c
  | .loadFailureFlag t _ _ => m.Completed t
  | .notifyArcs t _ _ _ _ => m.Completed t
  | .outLoad t _ _ _ => m.Completed t
  | .outCas t _ _ _ => m.Completed t
  | .outSub t _ _ _ => m.Completed t
  | .outNotify t _ _ _ => m.Completed t
  | .wakeup t _ => m.Completed t
  | .publish _ source _ => m.Closed source
  | .publishControl _ source => m.Closed source
  | .retainSignal _ c => ∃ source a, Kept m source rest ∧ source < m.nodes.size ∧
      (m.node source).head = .terminal a ∧ (m.arc a).control = c
  | .storeStart t => ∃ n, (m.var (m.node t).inner).currentTask = some n
  | .addLife t => ∃ n, (m.var (m.node t).inner).currentTask = some n
  | .forwardFailure t => ∃ n, (m.var (m.node t).inner).currentTask = some n ∧ m.Closed n
  | .waitDone n => m.Completed n
  | _ => True

/-- What an instruction needs is kept below it, and what it aims at is there. -/
structure Anchored (m : Mem V) (ins : Instr V) (rest : List (Instr V)) : Prop where
  kept : ∀ n ∈ ins.needs, Kept m n rest
  aims : ins.Aims m rest

/-! ## What is kept is live -/

namespace MemOk

variable {m : Mem V}

/-- The var a task returns is the task's own. -/
theorem inner_var (hok : MemOk m) {t : ℕ}
    (hphase : (m.node t).phase = .running ∨ (m.node t).phase = .forwarding)
    (ht : t < m.nodes.size) : (m.node t).kind = .task ∧ (m.node t).inner < m.vars.size := by
  have hkind := (hok.node t ht).task (by rcases hphase with h | h <;> simp [h])
  exact ⟨hkind, (hok.inner t ht hkind).lt⟩

/-- An instruction that may run keeps its nodes alive. -/
theorem live_of_keeps (hok : MemOk m) (hbal : ∀ k, balance m k ≤ 0) {n : ℕ} {x : Instr V}
    (hcov : Covered m x) (h : Keeps m n x) : (m.node n).status = .live := by
  rcases h with ⟨k, hk, hx⟩ | ⟨v, hx, htask⟩ | ⟨t, hx, htask⟩
  · exact hok.live_of_pin (hbal _) hk (hx.trans_le (hcov k))
  · have hv := (owed_var (hx.trans_le (hcov _))).1
    exact hok.live_of_var hbal hv htask
  · have hphase : t < m.nodes.size ∧
        ((m.node t).phase = .running ∨ (m.node t).phase = .forwarding) := by
      rcases hx with hexec | hforward
      · obtain ⟨ht, hphase, -⟩ := owed_exec (hexec.trans_le (hcov _))
        exact ⟨ht, .inl hphase⟩
      · obtain ⟨ht, hphase, -⟩ := owed_forward (hforward.trans_le (hcov _))
        exact ⟨ht, .inr hphase⟩
    exact hok.live_of_var hbal (hok.inner_var hphase.2 hphase.1).2 htask

end MemOk

/-! ## What stays kept -/

variable [Inhabited V]

namespace Legal

variable {m m' : Mem V} {spurious : Bool} {ins j : Instr V} {push : List (Instr V)}
variable {spawned : List (List (Instr V))}

/-- Nobody else changes the var that a running task returns. -/
theorem inner_same (h : Legal m spurious ins m' push spawned) (hwith : With m ins j) {t : ℕ}
    (hj : 0 < j.tokens (.exec t) ∨ 0 < j.tokens (.forward t)) :
    t < m.nodes.size ∧ (m'.node t).inner = (m.node t).inner ∧
      m'.var (m.node t).inner = m.var (m.node t).inner := by
  have howed : ∀ k, 0 < j.tokens k → 0 < -balance m k := by
    intro k hk
    have hsum := hwith k
    have hpos := h.nonneg k
    omega
  have hphase : t < m.nodes.size ∧
      ((m.node t).phase = .running ∨ (m.node t).phase = .forwarding) := by
    rcases hj with hexec | hforward
    · obtain ⟨ht, hphase, -⟩ := owed_exec (howed _ hexec)
      exact ⟨ht, .inl hphase⟩
    · obtain ⟨ht, hphase, -⟩ := owed_forward (howed _ hforward)
      exact ⟨ht, .inr hphase⟩
  obtain ⟨ht, hphase⟩ := hphase
  obtain ⟨hkind, hlt⟩ := h.mem.inner_var hphase ht
  have hlive : (m.node t).status = .live := by
    apply h.mem.live_of_phase (h.balance_le _) ht
    rcases hphase with hrun | hforward
    · simp [hrun]
    · simp [hforward]
  have hnone := h.inner_not_held ht hkind
  refine ⟨ht, (h.frozen.node t ht).inner, ?_⟩
  by_contra hne
  rcases h.changes.var _ hlt with heq | hchange
  · exact hne heq
  · cases ins with
    | destroy n =>
      obtain ⟨hinner, hset, -⟩ := hchange
      obtain ⟨hn, hkind'⟩ := h.destroys hset
      obtain rfl := inner_inj hn ht hkind' hkind (h.balance_le _) hinner
      obtain ⟨-, hstatus, -⟩ := owed_del (h.owed (k := .del t) (by simp [Instr.tokens]))
      rw [hlive] at hstatus
      cases hstatus
    | invoke t' => exact hne (h.invoke_var_same hlt)
    | finish t' env vals cells =>
      obtain ⟨ht', hrun, hkind'⟩ := h.runs finish_exec
      rcases hchange with ⟨w, hcell⟩ | ⟨hinner, -⟩ | ⟨hmem, -⟩
      · exact h.ok.2 w hcell
      · obtain rfl := inner_inj ht' ht hkind' hkind (h.balance_le _) hinner
        rcases hj with hexec | hforward
        · have hzero := h.not_held hwith hexec fun hpos => (owed_exec hpos).2.2
          have hpos : 0 < (Instr.finish t env vals cells).tokens (.exec t) := finish_exec
          omega
        · have hphase' := (owed_forward (howed _ hforward)).2.1
          rw [hrun] at hphase'
          cases hphase'
      · have hone := one_le_varTokens hmem
        simp [Instr.tokens, running, one, arms] at hnone
        omega
    | setup f =>
      have hone := f.le_tokens_var (c := f.count) hchange.1
      simp only [Instr.tokens] at hnone
      omega
    | moveResult f r =>
      have hone := one_le_varTokens (h.ok.1 _ hchange.1)
      have howns := r.owns_nonneg (.var (m.node t).inner)
      have hafter := f.after.tokens_nonneg (.var (m.node t).inner)
      simp only [Instr.tokens] at hnone
      omega
    | runOps env ops after =>
      have hone := one_le_varTokens hchange.1
      have hafter := after.tokens_nonneg (.var (m.node t).inner)
      simp only [Instr.tokens] at hnone
      omega
    | _ => exact hchange.elim

/-- What an instruction keeps, it keeps over the steps of others. -/
theorem keeps_stable (h : Legal m spurious ins m' push spawned) (hwith : With m ins j) {n : ℕ}
    (hkeeps : Keeps m n j) : Keeps m' n j := by
  rcases hkeeps with hpin | ⟨v, hv, htask⟩ | ⟨t, ht, htask⟩
  · exact .inl hpin
  · refine .of_var hv ?_
    rw [h.var_same hwith hv]
    exact htask
  · obtain ⟨-, hinner, hvar⟩ := h.inner_same hwith ht
    refine .of_inner ht ?_
    rw [hinner, hvar]
    exact htask

theorem kept_stable (h : Legal m spurious ins m' push spawned) {l : List (Instr V)}
    (hwith : ∀ x ∈ l, With m ins x) {n : ℕ} (hkept : Kept m n l) : Kept m' n l := by
  obtain ⟨x, hx, hkeeps⟩ := hkept
  exact ⟨x, hx, h.keeps_stable (hwith x hx) hkeeps⟩

/-- The list of a node that was closed stays closed. -/
theorem closed_stable (h : Legal m spurious ins m' push spawned) {n : ℕ} (hn : m.Closed n) :
    m'.Closed n :=
  ⟨hn.lt.trans_le h.frozen.nodes_le, by rw [h.head_same hn.lt hn.head]; exact hn.head⟩

/-- A completed node stays completed. -/
theorem completed_stable (h : Legal m spurious ins m' push spawned) {n : ℕ}
    (hn : m.Completed n) : m'.Completed n :=
  ⟨hn.lt.trans_le h.frozen.nodes_le, by rw [h.head_same hn.lt hn.closed.head]; exact hn.done⟩

/-- The payload an arc carries never changes. -/
theorem control_same (h : Legal m spurious ins m' push spawned) {a : ℕ} (ha : a < m.arcs.size) :
    (m'.arc a).control = (m.arc a).control := by
  rcases h.changes.arc a ha with heq | hchange
  · rw [heq]
  · cases ins with
    | notifyArcs t canThrow failed r count =>
      rcases hchange.2 with ⟨hx, -⟩ | ⟨-, hx⟩ <;> rw [hx]
    | assignHead f n p b =>
      obtain ⟨-, d, -, hx⟩ := hchange
      rw [hx]
    | moveArcs n q t p r => rw [hchange.2]
    | addArc n b site => rw [hchange.2]
    | addArcCas n b seen site => rw [hchange.2]
    | freeNode n => rw [hchange.2]
    | deleteArc b => rw [hchange.2]
    | assignIncrement f n p b => rw [hchange.2]
    | _ => exact hchange.elim

/-- An arc that carries a payload stays one. -/
theorem signal_same (h : Legal m spurious ins m' push spawned) {a : ℕ} (ha : a < m.arcs.size)
    (hkind : (m.arc a).kind = .exceptionSignal) : (m'.arc a).kind = .exceptionSignal := by
  rcases h.changes.arc a ha with heq | hchange
  · rw [heq, hkind]
  · cases ins with
    | notifyArcs t canThrow failed r count =>
      rcases hchange.2 with ⟨hx, -⟩ | ⟨hflow, -⟩
      · rw [hx]
        exact hkind
      · rw [hkind] at hflow
        cases hflow
    | assignHead f n p b =>
      obtain ⟨-, d, -, hx⟩ := hchange
      rw [hx]
      exact hkind
    | assignIncrement f n p b =>
      obtain ⟨rfl, -⟩ := hchange
      have hflow := h.ok.1.kind
      rw [hkind] at hflow
      cases hflow
    | moveArcs n q t p r =>
      rw [hchange.2]
      exact hkind
    | addArc n b site =>
      rw [hchange.2]
      exact hkind
    | addArcCas n b seen site =>
      rw [hchange.2]
      exact hkind
    | freeNode n =>
      rw [hchange.2]
      exact hkind
    | deleteArc b =>
      rw [hchange.2]
      exact hkind
    | _ => exact hchange.elim

/-- Others only add arcs to the open list of a running task. -/
theorem list_grows (h : Legal m spurious ins m' push spawned) (hwith : With m ins j) {t : ℕ}
    (hj : 0 < j.tokens (.exec t)) {l : List ℕ} (hlist : (m.node t).head = .list l) :
    ∃ l', (m'.node t).head = .list l' ∧ ∀ a ∈ l, a ∈ l' := by
  have howed : 0 < -balance m (.exec t) := by
    have hsum := hwith (.exec t)
    have hpos := h.nonneg (.exec t)
    omega
  obtain ⟨ht, hphase, -⟩ := owed_exec howed
  rcases (h.changes.node t ht).head with heq | hchange
  · exact ⟨l, heq.trans hlist, fun a ha => ha⟩
  · cases ins with
    | addArcCas n a seen site =>
      obtain ⟨-, hseen, hnew⟩ := hchange
      obtain rfl : l = seen := Head.list.inj (hlist.symm.trans hseen)
      exact ⟨a :: l, hnew, fun b hb => List.mem_cons_of_mem _ hb⟩
    | closeList t' canThrow terminal count =>
      obtain ⟨rfl, -⟩ := hchange
      have hzero := h.not_held hwith hj fun hpos => (owed_exec hpos).2.2
      have hpos : 0 < (Instr.closeList t canThrow terminal count : Instr V).tokens (.exec t) :=
        closeList_exec
      omega
    | redirect n q t' p a =>
      obtain ⟨rfl, -⟩ := hchange
      have hkind := (h.mem.node t ht).task (by simp [hphase])
      rw [h.ok.1] at hkind
      cases hkind
    | _ => exact hchange.elim

/-- An arc in an open list is allocated. -/
theorem lt_of_list (h : Legal m spurious ins m' push spawned) {t a : ℕ} {l : List ℕ}
    (ht : t < m.nodes.size) (hlive : (m.node t).status = .live) (hlist : (m.node t).head = .list l)
    (ha : a ∈ l) : a < m.arcs.size := by
  have hhead : 1 ≤ (m.node t).head.tokens t (.listed a t) := by
    rw [hlist]
    exact one_le_listedTokens ha
  exact (arc_of_head (k := .listed a t) rfl ht (by simp [hlive]) hhead (h.balance_le _)).1

/-- The terminal arc of a node is allocated. -/
theorem lt_of_terminal (h : Legal m spurious ins m' push spawned) {n a : ℕ}
    (hn : n < m.nodes.size) (hlive : (m.node n).status = .live)
    (hhead : (m.node n).head = .terminal a) : a < m.arcs.size := by
  have htoken : 1 ≤ (m.node n).head.tokens n (.payload a n) := by
    rw [hhead]
    simp [Head.tokens]
  exact (arc_of_head (k := .payload a n) rfl hn (by simp [hlive]) htoken (h.balance_le _)).1

/-- What an instruction aims at stays there. -/
theorem aims_stable (h : Legal m spurious ins m' push spawned) {rest : List (Instr V)}
    (hwith : ∀ x ∈ j :: rest, With m ins x) (haims : j.Aims m rest) : j.Aims m' rest := by
  have hself : With m ins j := hwith j List.mem_cons_self
  have hbelow : ∀ x ∈ rest, With m ins x := fun x hx => hwith x (List.mem_cons_of_mem _ hx)
  have hinner : ∀ {t n : ℕ}, (0 < j.tokens (.exec t) ∨ 0 < j.tokens (.forward t)) →
      (m.var (m.node t).inner).currentTask = some n →
      (m'.var (m'.node t).inner).currentTask = some n := by
    intro t n ht htask
    obtain ⟨-, hsame, hvar⟩ := h.inner_same hself ht
    rw [hsame, hvar, htask]
  have hsite : ∀ (n a : ℕ) (site : AddSite V), (∀ k, site.tokens n a k ≤ j.tokens k) →
      site.Aims m rest n → site.Aims m' rest n := by
    intro n a site hle hsite
    cases site with
    | forward t =>
      refine hinner (.inr ?_) hsite
      have hforward := hle (.forward t)
      simp only [AddSite.tokens, one_self, arms, one_of_ne (t := .offer a n) (k := .forward t)
        (by simp), one_of_ne (t := .life t) (k := .forward t) (by simp)] at hforward
      omega
    | back => exact hsite
    | moved => exact hsite
    | _ => trivial
  cases j with
  | addArc n a site => exact hsite n a site (fun _ => le_rfl) haims
  | addArcCas n a seen site => exact hsite n a site (fun _ => le_rfl) haims
  | retainTerminal t c count =>
    obtain ⟨l, a, hlist, ha, hkind, hcontrol⟩ := haims
    have hexec : 0 < (Instr.retainTerminal t c count : Instr V).tokens (.exec t) := by
      have hone : completing t count (.exec t) = 1 := completing_exec
      unfold completing at hone
      simp [Instr.tokens, hone]
    have howed : 0 < -balance m (.exec t) := by
      have hsum := hself (.exec t)
      have hpos := h.nonneg (.exec t)
      omega
    obtain ⟨ht, hphase, -⟩ := owed_exec howed
    have hlive := h.mem.live_of_phase (h.balance_le _) ht (by simp [hphase])
    obtain ⟨l', hlist', hmem⟩ := h.list_grows hself hexec hlist
    have hlt := h.lt_of_list ht hlive hlist ha
    exact ⟨l', a, hlist', hmem a ha, h.signal_same hlt hkind,
      (h.control_same hlt).trans hcontrol⟩
  | loadFailureFlag t r count => exact h.completed_stable haims
  | notifyArcs t canThrow failed r count => exact h.completed_stable haims
  | outLoad t i count refs => exact h.completed_stable haims
  | outCas t i count refs => exact h.completed_stable haims
  | outSub t i count refs => exact h.completed_stable haims
  | outNotify t i count refs => exact h.completed_stable haims
  | wakeup t refs => exact h.completed_stable haims
  | waitDone n => exact h.completed_stable haims
  | publish n source p => exact h.closed_stable haims
  | publishControl n source => exact h.closed_stable haims
  | retainSignal n c =>
    obtain ⟨source, a, hkept, hlt, hhead, hcontrol⟩ := haims
    obtain ⟨x, hx, hkeeps⟩ := hkept
    have hcov : Covered m x := by
      intro k
      have hsum := hbelow x hx k
      have hpos := h.nonneg k
      omega
    have hlive := h.mem.live_of_keeps h.balance_le hcov hkeeps
    have ha := h.lt_of_terminal hlt hlive hhead
    refine ⟨source, a, h.kept_stable hbelow ⟨x, hx, hkeeps⟩, hlt.trans_le h.frozen.nodes_le, ?_,
      (h.control_same ha).trans hcontrol⟩
    rw [h.head_same hlt (by simp [hhead]), hhead]
  | storeStart t =>
    obtain ⟨n, htask⟩ := haims
    exact ⟨n, hinner (.inl (by simp [Instr.tokens, running, one, arms])) htask⟩
  | addLife t =>
    obtain ⟨n, htask⟩ := haims
    exact ⟨n, hinner (.inr (by simp [Instr.tokens, one, arms])) htask⟩
  | forwardFailure t =>
    obtain ⟨n, htask, hclosed⟩ := haims
    exact ⟨n, hinner (.inl (by simp [Instr.tokens, running, one, arms])) htask,
      h.closed_stable hclosed⟩
  | _ => trivial

theorem anchored_stable (h : Legal m spurious ins m' push spawned) {rest : List (Instr V)}
    (hwith : ∀ x ∈ j :: rest, With m ins x) (hok : Anchored m j rest) : Anchored m' j rest where
  kept n hn := h.kept_stable (fun x hx => hwith x (List.mem_cons_of_mem _ hx)) (hok.kept n hn)
  aims := h.aims_stable hwith hok.aims

end Legal

end Oox
