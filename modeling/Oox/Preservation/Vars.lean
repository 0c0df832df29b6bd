import Oox.Preservation.Arcs

/-!
# Vars after a step

A var names a slot of an allocated node that has no other writer. The var a task keeps for
its result changes only when the body returns and when the task is destroyed, and a var that
other threads read does not change at all.
-/

set_option autoImplicit false

namespace Oox

open Library

variable {V : Type}

/-- A var that its thread owns and that names the same slot as a well-formed one. -/
theorem VarOk.own {m : Mem V} {u u' : Var} (h : VarOk m u) (hborrowed : u'.borrowed = false)
    (htask : u'.currentTask = none ∨ u'.currentTask = u.currentTask)
    (hport : u'.currentPort = u.currentPort) (hdeferred : u'.isDeferred = u.isDeferred) :
    VarOk m u' := by
  have hsame : ∀ n, u'.currentTask = some n → u.currentTask = some n := by
    intro n hn
    rcases htask with hnone | heq
    · rw [hnone] at hn
      cases hn
    · rw [← heq, hn]
  refine ⟨fun n hn => ?_, fun n hn => ?_, fun n hn => h.fresh n (hsame n hn), fun hb => ?_⟩
  · rw [hport]
    exact h.slot n (hsame n hn)
  · rw [hdeferred]
    exact h.deferred n (hsame n hn)
  · rw [hborrowed] at hb
    cases hb

/-- A var that names no task. -/
theorem VarOk.none {m : Mem V} {u : Var} (htask : u.currentTask = none)
    (hborrowed : u.borrowed = false) : VarOk m u where
  slot n hn := by simp [htask] at hn
  deferred n hn := by simp [htask] at hn
  fresh n hn := by simp [htask] at hn
  borrowed hb := by simp [hborrowed] at hb

/-- Two tasks keep different vars for their results. -/
theorem inner_inj {m : Mem V} {n t : ℕ} (hn : n < m.nodes.size) (ht : t < m.nodes.size)
    (hkind : (m.node n).kind = .task) (hkind' : (m.node t).kind = .task)
    (hbal : balance m (.var (m.node n).inner) ≤ 0) (hinner : (m.node t).inner = (m.node n).inner) :
    t = n := by
  by_contra hne
  have hheld := inner_held hkind
  have hheld' := inner_held hkind'
  rw [hinner] at hheld'
  have hpair : ({n, t} : Finset ℕ) ⊆ Finset.range m.nodes.size := by
    intro j hj
    rcases Finset.mem_insert.mp hj with rfl | hj
    · exact Finset.mem_range.mpr hn
    · rw [Finset.mem_singleton.mp hj]
      exact Finset.mem_range.mpr ht
  -- both tasks hold the var, and it is owed only once
  have hle : nodeBalance n (m.node n) (.var (m.node n).inner) +
      nodeBalance t (m.node t) (.var (m.node n).inner) ≤
      m.nodes.sum fun j x => nodeBalance j x (.var (m.node n).inner) := by
    rw [← Finset.sum_pair (f := fun j => nodeBalance j (m.node j) (.var (m.node n).inner))
      (Ne.symm hne)]
    exact Finset.sum_le_sum_of_subset_of_nonneg hpair
      fun j _ _ => nodeBalance_nonneg (by simp [Token.node?]) _
  have hvar := nodes_le_var (m := m) (m.node n).inner
  omega

variable [Inhabited V]

namespace Legal

variable {m m' : Mem V} {spurious : Bool} {ins : Instr V} {push : List (Instr V)}
variable {spawned : List (List (Instr V))}

/-! ## Vars that nobody may change -/

/-- The var of another task's result is not the instruction's to change. -/
theorem inner_not_held (h : Legal m spurious ins m' push spawned) {n : ℕ}
    (hn : n < m.nodes.size) (hkind : (m.node n).kind = .task) :
    ins.tokens (.var (m.node n).inner) = 0 := by
  have hle := inner_not_owed hn hkind
  have hcov := h.covered (.var (m.node n).inner)
  have hpos := h.nonneg (.var (m.node n).inner)
  omega

/-- A destructor runs on an allocated task when it has a var to release. -/
theorem destroys {n : ℕ} (h : Legal m spurious (.destroy n) m' push spawned)
    (hset : (m.node n).innerSet = true) : n < m.nodes.size ∧ (m.node n).kind = .task := by
  obtain ⟨hn, -, -⟩ := owed_del (h.owed (k := .del n) (by simp [Instr.tokens]))
  exact ⟨hn, (h.mem.node n hn).inner hset⟩

theorem invoke_var_same {t : ℕ} (h : Legal m spurious (.invoke t) m' push spawned) {v : ℕ}
    (hv : v < m.vars.size) : m'.var v = m.var v := by
  have hstep := h.step
  rw [exec, if_pos h.inLifetime] at hstep
  exact invoke_var h.tame hstep hv

/-- A var that other threads read does not change. -/
theorem shared_same (h : Legal m spurious ins m' push spawned) {w : ℕ} (hw : w < m.vars.size)
    (hshared : (m.var w).shared = true) (hborrowed : (m.var w).borrowed = false) :
    m'.var w = m.var w := by
  have hown : ¬ (m.var w).Own := fun hown => by simp [hown.shared] at hshared
  have hinner : ∀ n < m.nodes.size, (m.node n).kind = .task → w ≠ (m.node n).inner := by
    rintro n hn hkind rfl
    simp [(h.mem.inner n hn hkind).own.2] at hshared
  rcases h.changes.var w hw with heq | hchange
  · exact heq
  · cases ins with
    | destroy n =>
      obtain ⟨hv, hset, -⟩ := hchange
      obtain ⟨hn, hkind⟩ := h.destroys hset
      exact absurd hv (hinner n hn hkind)
    | invoke t => exact h.invoke_var_same hw
    | finish t env vals cells =>
      obtain ⟨ht, -, hkind⟩ := h.runs finish_exec
      rcases hchange with ⟨u, hcell⟩ | ⟨hv, -⟩ | ⟨-, hu, -⟩
      · exact absurd hcell (h.ok.2 u)
      · exact absurd hv (hinner t ht hkind)
      · exact absurd hu hown
    | setup f => exact absurd hchange.2.1 hown
    | moveResult f r => exact absurd hchange.2.1 hown
    | runOps env ops after =>
      obtain ⟨-, hwrite⟩ := hchange
      rcases ops with _ | ⟨op, ops⟩
      · exact hwrite.elim
      · cases op with
        | fork xs locals ops' =>
          have hflag : (!(m.var w).borrowed) = (m.var w).shared := by
            rw [hborrowed, hshared]
            rfl
          rw [show m'.var w = _ from hwrite, hflag]
        | empty x canThrow => exact absurd hwrite.1 hown
        | value x canThrow v => exact absurd hwrite.1 hown
        | deferred x canThrow => exact absurd hwrite.1 hown
        | move dst src => exact absurd hwrite.1 hown
        | destroy x => exact absurd hwrite.1 hown
        | toNode dst src => exact absurd hwrite.1 hown
        | moveNode dst src => exact absurd hwrite.1 hown
        | _ => exact hwrite.elim
    | _ => exact hchange.elim

/-! ## Vars that stay -/

/-- Only `set_next_writer` on a deferred var redirects a list. -/
theorem redirect_of_head (h : Legal m spurious ins m' push spawned) {n d : ℕ}
    (hn : n < m.nodes.size) (hfresh : ∀ d, (m.node n).head ≠ .redirect d)
    (hd : (m'.node n).head = .redirect d) :
    (m.node n).kind = .deferred ∧ 0 < ins.tokens (.cap n 0) := by
  by_contra hno
  rcases (h.changes.node n hn).head with heq | hhead
  · exact hfresh d (heq ▸ hd)
  · rcases h.head_change hhead with ⟨l, hl⟩ | ⟨-, -, -, hredirect⟩ | ⟨hkind, -⟩
    · simp [hl] at hd
    · exact hredirect d hd
    · have hpos := h.nonneg (.cap n 0)
      exact h.not_redirected hn hfresh (by_contra fun hne => hno ⟨hkind, by omega⟩) d hd

/-- The slot a var of the memory names keeps its list. -/
theorem fresh_kept (h : Legal m spurious ins m' push spawned) {v n : ℕ} (hv : v < m.vars.size)
    (hborrowed : (m.var v).borrowed = false) (htask : (m.var v).currentTask = some n) (d : ℕ) :
    (m'.node n).head ≠ .redirect d := by
  intro hd
  have hok := h.mem.var v hv
  obtain ⟨hn, hp⟩ := hok.slot n htask
  obtain ⟨hkind, hcap⟩ := h.redirect_of_head hn (hok.fresh n htask) hd
  have hzero : (m.var v).currentPort = 0 := by
    have hslots := (h.mem.node n hn).slots.2 (by simp [hkind])
    omega
  have hheld := cap_not_owed hv hborrowed htask
  have hcov := h.covered (.cap n 0)
  rw [hzero] at hheld
  omega

/-- A var that did not change is well formed after the step. -/
theorem var_kept (h : Legal m spurious ins m' push spawned) {v : ℕ} (hv : v < m.vars.size) :
    VarOk m' (m.var v) := by
  have hok := h.mem.var v hv
  refine ⟨fun n hn => ?_, fun n hn => ?_, fun n hn => ?_, fun hborrowed => ?_⟩
  · obtain ⟨hlt, hp⟩ := hok.slot n hn
    exact ⟨hlt.trans_le h.frozen.nodes_le, hp.trans_eq (h.frozen.node n hlt).slots.symm⟩
  · rw [(h.frozen.node n (hok.slot n hn).1).kind]
    exact hok.deferred n hn
  · cases hborrowed : (m.var v).borrowed with
    | false => exact h.fresh_kept hv hborrowed hn
    | true =>
      -- the original names the same slot
      obtain ⟨w, hw, -, hown, hcopy⟩ := hok.borrowed hborrowed
      have htask : (m.var w).currentTask = some n := by
        rw [hcopy] at hn
        exact hn
      exact h.fresh_kept hw hown htask
  · obtain ⟨w, hw, hshared, hown, hcopy⟩ := hok.borrowed hborrowed
    have hsame := h.shared_same hw hshared hown
    refine ⟨w, hw.trans_le h.frozen.vars_le, ?_⟩
    rw [hsame]
    exact ⟨hshared, hown, hcopy⟩

/-! ## Vars that change -/

omit [Inhabited V] in
theorem assignVar_nodes {m₁ : Mem V} {v : ℕ} {r : Var} {next : List (Instr V)}
    (h : Exec.assignVar m₁ v r next = .next m' push spawned) : m'.nodes = m₁.nodes := by
  unfold Exec.assignVar at h
  dsimp only at h
  split at h
  · cases h
  · cases h
    rfl

/-- An empty argument gets a new storage node. -/
theorem setup_allocates {f : Frame V} (h : Exec.setup m f = .next m' push spawned) {v : ℕ}
    (hempty : (m.var v).currentTask = none) (hne : m'.var v ≠ m.var v) :
    m.nodes.size < m'.nodes.size := by
  unfold Exec.setup at h
  split at h
  · cases h
    exact absurd rfl hne
  · cases h
    exact absurd rfl hne
  · split at h
    · cases h
    · rename_i w henv
      dsimp only at h
      split at h
      · split at h
        · cases h
        · cases h
          exact Nat.lt_succ_self _
      · rename_i n htask
        have hother : v ≠ w := by
          rintro rfl
          rw [hempty] at htask
          cases htask
        repeat' split at h
        all_goals
          cases h
          try exact absurd (Mem.var_setVar_of_ne _ _ hother) hne
          try exact absurd rfl hne

omit [Inhabited V] in
/-- The var of a new storage node is well formed. -/
theorem storageVar_ok {n : ℕ} (hlt : n < m'.nodes.size) {isDeferred canThrow : Bool}
    (hslots : (m'.node n).slots = 1)
    (hkind : (m'.node n).kind = if isDeferred then .deferred else .storage)
    (hhead : ∀ d, (m'.node n).head ≠ .redirect d) : VarOk m' (storageVar n isDeferred canThrow) where
  slot j hj := by
    cases hj
    exact ⟨hlt, by rw [hslots]; exact Nat.one_pos⟩
  deferred j hj := by
    cases hj
    rw [hkind]
    cases isDeferred <;> simp [storageVar]
  fresh j hj := by
    cases hj
    exact hhead
  borrowed hb := by cases hb

omit [Inhabited V] in
/-- The var a task is bound to is well formed. -/
theorem VarOk.task {u : Var} {t : ℕ} (ht : t < m'.nodes.size) (hok : NodeOk (m'.node t))
    (hkind : (m'.node t).kind = .task) (htask : ∀ n, u.currentTask = some n → n = t)
    (hport : u.currentPort < (m'.node t).slots) (hdeferred : u.isDeferred = false)
    (hborrowed : u.borrowed = false) : VarOk m' u where
  slot n hn := by
    obtain rfl := htask n hn
    exact ⟨ht, hport⟩
  deferred n hn := by
    obtain rfl := htask n hn
    simp [hkind, hdeferred]
  fresh n hn := by
    obtain rfl := htask n hn
    exact hok.noRedirect hkind
  borrowed hb := by simp [hborrowed] at hb

theorem setup_var {f : Frame V} (h : Legal m spurious (.setup f) m' push spawned) {v : ℕ}
    (hv : v < m.vars.size) : VarOk m' (m'.var v) := by
  by_cases heq : m'.var v = m.var v
  · rw [heq]
    exact h.var_kept hv
  · obtain ⟨-, hown, ⟨hempty, hu⟩ | ⟨hwrites, hu⟩⟩ := (h.changes.var v hv).resolve_left heq
    · have hstep := h.step
      rw [exec, if_pos h.inLifetime] at hstep
      have hlt := setup_allocates hstep hempty heq
      have hnode : m'.node m.nodes.size = storageNode default :=
        (h.changes.newNode m.nodes.size le_rfl hlt).2
      rw [hu]
      exact storageVar_ok hlt (by rw [hnode]; rfl) (by rw [hnode]; rfl)
        fun d hd => by rw [hnode] at hd; cases hd
    · obtain ⟨ht, -, hkind⟩ := h.sets_up (f := f) fun _ => le_rfl
      have hsame := h.frozen.node f.task ht
      rw [hu]
      refine VarOk.task (ht.trans_le h.frozen.nodes_le) (h.node_ok ht) (hsame.kind.trans hkind)
        (fun n hn => ?_) ?_ rfl hown.borrowed
      · cases hn
        rfl
      · rw [hsame.slots]
        exact h.slot_of_writes hwrites

theorem moveResult_var {f : Frame V} {r : Var}
    (h : Legal m spurious (.moveResult f r) m' push spawned) : VarOk m' r := by
  obtain ⟨-, -, hborrowed, -, hdeferred, hkind⟩ := h.ok
  cases htask : r.currentTask with
  | none => exact .none htask hborrowed
  | some n =>
    have hcap := Var.one_le_owns htask
    have hvars := varTokens_nonneg f.env (.cap n r.currentPort)
    have hafter := f.after.tokens_nonneg (.cap n r.currentPort)
    obtain ⟨hn, hp, -⟩ := owed_cap (h.owed (k := .cap n r.currentPort)
      (by simp only [Instr.tokens]; omega))
    have hsame := h.frozen.node n hn
    refine VarOk.task (hn.trans_le h.frozen.nodes_le) (h.node_ok hn)
      (hsame.kind.trans (hkind n htask)) (fun j hj => ?_) ?_ hdeferred hborrowed
    · rw [htask] at hj
      cases hj
      rfl
    · rw [hsame.slots]
      exact hp

/-- What an operation of a thread leaves in a var of the thread. -/
theorem runOps_var {env : List ℕ} {ops : List (Op V)} {after : After V}
    (h : Legal m spurious (.runOps env ops after) m' push spawned) {v : ℕ}
    (hv : v < m.vars.size) : VarOk m' (m'.var v) := by
  have hkept := h.var_kept hv
  have hstep := h.step
  rw [exec, if_pos h.inLifetime] at hstep
  rcases h.changes.var v hv with heq | ⟨-, hwrite⟩
  · rw [heq]
    exact hkept
  · rcases ops with _ | ⟨op, ops⟩
    · exact hwrite.elim
    · cases op with
      | empty x canThrow =>
        rw [hwrite.2]
        exact .none rfl rfl
      | value x canThrow w =>
        simp only [Exec.runOps] at hstep
        split at hstep
        · cases hstep
        · have hlt : m.nodes.size < m'.nodes.size := by
            rw [assignVar_nodes hstep]
            exact Nat.lt_succ_self _
          have hnode : m'.node m.nodes.size = storageNode w :=
            (h.changes.newNode m.nodes.size le_rfl hlt).2
          rw [hwrite.2]
          exact storageVar_ok hlt (by rw [hnode]; rfl) (by rw [hnode]; rfl)
            fun d hd => by rw [hnode] at hd; cases hd
      | deferred x canThrow =>
        simp only [Exec.runOps] at hstep
        split at hstep
        · cases hstep
        · have hlt : m.nodes.size < m'.nodes.size := by
            rw [assignVar_nodes hstep]
            exact Nat.lt_succ_self _
          have hnode : m'.node m.nodes.size = deferredNode :=
            (h.changes.newNode m.nodes.size le_rfl hlt).2
          rw [hwrite.2]
          exact storageVar_ok hlt (by rw [hnode]; rfl) (by rw [hnode]; rfl)
            fun d hd => by rw [hnode] at hd; cases hd
      | move dst src =>
        obtain ⟨hown, hu | ⟨s, hs, hsown, hu⟩⟩ := hwrite
        · rw [hu]
          exact hkept.own hown.borrowed (.inl rfl) rfl rfl
        · obtain ⟨hlt, -⟩ := h.var_of_env (e := env) (fun w hw => by
            have hone := one_le_varTokens hw
            have hafter := after.tokens_nonneg (.var w)
            simp only [Instr.tokens]
            omega) (List.mem_of_getElem? hs)
          rw [hu]
          exact h.var_kept hlt
      | destroy x =>
        rw [hwrite.2]
        exact hkept.own hwrite.1.borrowed (.inl rfl) rfl rfl
      | fork xs locals ops' =>
        rw [show m'.var v = _ from hwrite]
        by_cases hborrowed : (m.var v).borrowed = true
        · obtain ⟨w, -, -, -, hcopy⟩ := hkept.borrowed hborrowed
          have hflag : (!(m.var v).borrowed) = (m.var v).shared := by
            rw [hborrowed, hcopy]
            rfl
          rw [hflag]
          exact hkept
        · exact hkept.own (by simpa using hborrowed) (.inr rfl) rfl rfl
      | toNode dst src => exact h.tame.elim
      | moveNode dst src => exact h.tame.elim
      | _ => exact hwrite.elim

/-- The vars of the memory stay well formed. -/
theorem var_ok (h : Legal m spurious ins m' push spawned) {v : ℕ} (hv : v < m.vars.size) :
    VarOk m' (m'.var v) := by
  have hkept := h.var_kept hv
  rcases h.changes.var v hv with heq | hchange
  · rw [heq]
    exact hkept
  · cases ins with
    | destroy n =>
      obtain ⟨rfl, hset, hu⟩ := hchange
      obtain ⟨hn, hkind⟩ := h.destroys hset
      rw [hu]
      exact hkept.own (h.mem.inner n hn hkind).own.1 (.inl rfl) rfl rfl
    | invoke t =>
      rw [h.invoke_var_same hv]
      exact hkept
    | finish t env vals cells =>
      rcases hchange with ⟨w, hcell⟩ | ⟨rfl, w, hw, -, hu⟩ | ⟨-, hown, hu⟩
      · exact absurd hcell (h.ok.2 w)
      · obtain ⟨hlt, -⟩ := h.var_of_env (e := env) (fun w hw => by
          have hone := one_le_varTokens hw
          simp only [Instr.tokens, running, one_of_ne (t := .exec t) (k := .var w) (by simp), arms]
          omega) hw
        rw [hu]
        exact h.var_kept hlt
      · rw [hu]
        exact hkept.own hown.borrowed (.inl rfl) rfl rfl
    | setup f => exact h.setup_var hv
    | moveResult f r =>
      rw [hchange.2.2]
      exact h.moveResult_var
    | runOps env ops after => exact h.runOps_var hv
    | _ => exact hchange.elim

/-! ## New vars -/

omit [Inhabited V] in
theorem assignVar_size {m₁ : Mem V} {v : ℕ} {r : Var} {next : List (Instr V)}
    (h : Exec.assignVar m₁ v r next = .next m' push spawned) : m'.vars.size = m₁.vars.size := by
  unfold Exec.assignVar at h
  dsimp only at h
  split at h
  · cases h
  · cases h
    rfl

/-- Only a body that starts and an operation of a thread allocate vars. -/
theorem vars_size (h : Legal m spurious ins m' push spawned) (hinvoke : ∀ t, ins ≠ .invoke t)
    (hops : ∀ env ops after, ins ≠ .runOps env ops after) : m'.vars.size = m.vars.size := by
  by_cases hquiet : ins.quiet = true
  · exact congrArg Heap.size ((exec_quiet spurious hquiet).of_next h.step).vars
  · have hstep := h.step
    unfold exec at hstep
    rw [if_pos h.inLifetime] at hstep
    cases ins with
    | destroy n =>
      simp only [Exec.destroy] at hstep
      split at hstep <;> cases hstep <;> rfl
    | finish t env vals cells =>
      have hwritten := writeCells_written (m := m) (cells.zip ((m.node t).body.writes vals))
      simp only [Exec.finish] at hstep
      repeat' split at hstep
      all_goals
        cases hstep
        try exact hwritten.vars_size
    | setup f =>
      simp only [Exec.setup] at hstep
      repeat' split at hstep
      all_goals
        cases hstep
        try rfl
    | moveResult f r =>
      simp only [Exec.moveResult] at hstep
      repeat' split at hstep
      all_goals
        cases hstep
        try rfl
    | invoke t => exact absurd rfl (hinvoke t)
    | runOps env ops after => exact absurd rfl (hops env ops after)
    | _ => exact absurd rfl hquiet

omit [Inhabited V] in
/-- The copies a forked thread gets, and the flags of the originals. -/
theorem borrowVars_copies {vs : List ℕ} (hvs : ∀ v ∈ vs, v < m.vars.size) :
    (∀ w < m.vars.size, (Exec.borrowVars m vs).var w = m.var w ∧ w ∉ vs ∨
      (Exec.borrowVars m vs).var w = { m.var w with shared := !(m.var w).borrowed }) ∧
    ∀ v, m.vars.size ≤ v → v < (Exec.borrowVars m vs).vars.size → ∃ w ∈ vs,
      (Exec.borrowVars m vs).var v = { m.var w with borrowed := true, shared := false } := by
  induction vs generalizing m with
  | nil =>
    refine ⟨fun w _ => .inl ⟨rfl, List.not_mem_nil⟩, fun v hge hlt => ?_⟩
    exact absurd hlt (by simp [Exec.borrowVars]; omega)
  | cons x vs ih =>
    have hx := hvs x List.mem_cons_self
    let m₁ := (m.setVar x { m.var x with shared := !(m.var x).borrowed }).newVar
      { m.var x with borrowed := true, shared := false }
    have hsize : m₁.vars.size = m.vars.size + 1 := rfl
    obtain ⟨hold, hnew⟩ := ih (m := m₁) fun w hw =>
      (hvs w (List.mem_cons_of_mem _ hw)).trans_le (by rw [hsize]; omega)
    have hsame : ∀ w < m.vars.size, m₁.var w =
        if w = x then { m.var x with shared := !(m.var x).borrowed } else m.var w := by
      intro w hw
      show ((m.setVar x _).newVar _).var w = _
      rw [Mem.var_newVar, Mem.vars_setVar_size, if_neg (by omega), Mem.var_setVar]
    refine ⟨fun w hw => ?_, fun v hge hlt => ?_⟩
    · have hw' := hold w (by omega)
      rw [hsame w hw] at hw'
      by_cases hwx : w = x
      · subst hwx
        rw [if_pos rfl] at hw'
        exact .inr (hw'.elim (·.1) id)
      · rw [if_neg hwx] at hw'
        refine hw'.imp (fun hno => ⟨hno.1, ?_⟩) id
        simp [hwx, hno.2]
    · by_cases hv : v = m.vars.size
      · subst hv
        refine ⟨x, List.mem_cons_self, ?_⟩
        have hcopy : m₁.var m.vars.size = { m.var x with borrowed := true, shared := false } := by
          show ((m.setVar x _).newVar _).var m.vars.size = _
          rw [Mem.var_newVar, Mem.vars_setVar_size, if_pos rfl]
        have hw' := hold m.vars.size (by omega)
        rw [hcopy] at hw'
        exact hw'.elim (·.1) id
      · obtain ⟨w, hw, hcopy⟩ := hnew v (by omega) hlt
        refine ⟨w, List.mem_cons_of_mem _ hw, ?_⟩
        show (Exec.borrowVars m₁ vs).var v = _
        rw [hcopy, hsame w (hvs w (List.mem_cons_of_mem _ hw))]
        split
        · rename_i heq
          rw [heq]
        · rfl

/-- The copy of a var that another thread gets. -/
theorem copy_ok (h : Legal m spurious ins m' push spawned) {w : ℕ} (hw : w < m.vars.size)
    (hshare : m'.var w = { m.var w with shared := !(m.var w).borrowed }) :
    VarOk m' { m.var w with borrowed := true, shared := false } := by
  have hkept := h.var_kept hw
  by_cases hborrowed : (m.var w).borrowed = true
  · obtain ⟨u, -, -, -, hcopy⟩ := hkept.borrowed hborrowed
    have hsame : ({ m.var w with borrowed := true, shared := false } : Var) = m.var w := by
      rw [hcopy]
    rw [hsame]
    exact hkept
  · have hown : (m.var w).borrowed = false := by simpa using hborrowed
    refine ⟨hkept.slot, hkept.deferred, hkept.fresh, fun _ => ?_⟩
    refine ⟨w, hw.trans_le h.frozen.vars_le, ?_⟩
    rw [hshare, hown]
    exact ⟨rfl, rfl, rfl⟩

/-- The operations of a thread but `run` and `fork` allocate no var. -/
theorem runOps_size {env : List ℕ} {op : Op V} {ops : List (Op V)} {after : After V}
    (hstep : Exec.runOps m env (op :: ops) after = .next m' push spawned)
    (hrun : ∀ dst args canThrow kind code, op ≠ .run dst args canThrow kind code)
    (hfork : ∀ xs locals ops', op ≠ .fork xs locals ops') : m'.vars.size = m.vars.size := by
  cases op with
  | run dst args canThrow kind code => exact absurd rfl (hrun _ _ _ _ _)
  | fork xs locals ops' => exact absurd rfl (hfork _ _ _)
  | _ =>
    simp only [Exec.runOps] at hstep
    repeat' split at hstep
    all_goals first
      | exact (assignVar_size hstep).trans rfl
      | (cases hstep; done)
      | (cases hstep; rfl)

theorem var_new (h : Legal m spurious ins m' push spawned) {v : ℕ} (hge : m.vars.size ≤ v)
    (hv : v < m'.vars.size) : VarOk m' (m'.var v) := by
  have hempty : m'.var v = {} → VarOk m' (m'.var v) := by
    intro heq
    rw [heq]
    exact .none rfl rfl
  have hstep := h.step
  unfold exec at hstep
  rw [if_pos h.inLifetime] at hstep
  cases ins with
  | invoke t =>
    simp only [Exec.invoke] at hstep
    split at hstep
    · cases hstep
    · rename_i m₁ vals hconsume
      have hsize := (consumeAll_consumed hconsume).vars_size
      cases hstep
      simp only [Mem.vars_newVars_size, Mem.vars_setNode] at hv
      apply hempty
      rw [Mem.var_newVars, if_pos (by simp only [Mem.vars_setNode]; omega)]
  | runOps env ops after =>
    rcases ops with _ | ⟨op, ops⟩
    · cases after <;> cases hstep <;> exact absurd hv (by show ¬ v < m.vars.size; omega)
    · by_cases hrun : ∃ dst args canThrow kind code, op = .run dst args canThrow kind code
      · obtain ⟨dst, args, canThrow, kind, code, rfl⟩ := hrun
        cases hstep
        simp only [Mem.vars_newVar_size, Mem.vars_newNode] at hv
        apply hempty
        rw [Mem.var_newVar, if_pos (by simp only [Mem.vars_newNode]; omega)]
      · by_cases hfork : ∃ xs locals ops', op = .fork xs locals ops'
        · obtain ⟨xs, locals, ops', rfl⟩ := hfork
          cases hstep
          have henv : ∀ w ∈ xs.filterMap fun x => env[x]?, w < m.vars.size := by
            intro w hw
            obtain ⟨x, -, hx⟩ := List.mem_filterMap.mp hw
            refine (h.var_of_env (e := env) (fun u hu => ?_) (List.mem_of_getElem? hx)).1
            have hone := one_le_varTokens hu
            have hafter := after.tokens_nonneg (.var u)
            simp only [Instr.tokens]
            omega
          obtain ⟨hold, hnew⟩ := borrowVars_copies henv
          by_cases hlt : v < (Exec.borrowVars m (xs.filterMap fun x => env[x]?)).vars.size
          · obtain ⟨w, hw, hcopy⟩ := hnew v hge hlt
            rw [Mem.var_newVars, if_neg (by omega), hcopy]
            apply h.copy_ok (henv w hw)
            have hsize := borrowVars_size m (xs.filterMap fun x => env[x]?)
            have hw' := henv w hw
            rw [Mem.var_newVars, if_neg (by omega)]
            exact (hold w hw').resolve_left fun hno => hno.2 hw
          · rw [Mem.vars_newVars_size] at hv
            apply hempty
            rw [Mem.var_newVars, if_pos (by omega)]
        · have hsize := runOps_size hstep (fun _ _ _ _ _ hop => hrun ⟨_, _, _, _, _, hop⟩)
            fun _ _ _ hop => hfork ⟨_, _, _, hop⟩
          omega
  | _ =>
    have hsize := h.vars_size (fun _ h' => by cases h') fun _ _ _ h' => by cases h'
    omega

/-! ## The vars that tasks keep -/

theorem destroy_clears {n : ℕ} (h : Legal m spurious (.destroy n) m' push spawned)
    (hset : (m.node n).innerSet = true) : (m'.var (m.node n).inner).currentTask = none := by
  have hstep := h.step
  rw [exec, if_pos h.inLifetime] at hstep
  simp only [Exec.destroy, hset, if_true] at hstep
  cases hstep
  rw [Mem.var_setVar_self]

/-- A body that returned a var is marked. -/
theorem finish_inner {t : ℕ} {env : List ℕ} {vals : List V} {cells : List StoragePtr}
    (h : Legal m spurious (.finish t env vals cells) m' push spawned) :
    m'.var (m.node t).inner = m.var (m.node t).inner ∨ (m'.node t).innerSet = true := by
  have hstep := h.step
  rw [exec, if_pos h.inLifetime] at hstep
  have hsame : ∀ v, (Exec.writeCells m (cells.zip ((m.node t).body.writes vals))).var v =
      m.var v := fun v =>
    ((writeCells_written (m := m) _).var v).resolve_right fun hmem =>
      h.ok.2 v (mem_of_mem_zip_fst hmem)
  simp only [Exec.finish] at hstep
  repeat' split at hstep
  all_goals first
    | (cases hstep; done)
    | (cases hstep; exact .inl (hsame _))
    | (cases hstep
       right
       show ((Mem.setNode _ t _).node t).innerSet = true
       rw [Mem.node_setNode_self])

theorem inner_ok (h : Legal m spurious ins m' push spawned) {n : ℕ} (hn : n < m.nodes.size)
    (hkind : (m.node n).kind = .task) : InnerOk m' (m'.node n) := by
  have hok := h.mem.inner n hn hkind
  have hheld := h.inner_not_held hn hkind
  have hinj : ∀ t < m.nodes.size, (m.node t).kind = .task →
      (m.node n).inner = (m.node t).inner → t = n := fun t ht hkind' heq =>
    inner_inj hn ht hkind hkind' (h.balance_le _) heq.symm
  have hbefore : (m'.node n).innerSet = false → (m.node n).innerSet = true →
      (m'.var (m.node n).inner).currentTask = none := by
    intro hunset hset
    rcases (h.changes.node n hn).innerSet with heq | hchange
    · rw [heq, hset] at hunset
      cases hunset
    · cases ins with
      | finish t env vals cells =>
        rw [hchange.2.1] at hunset
        cases hunset
      | destroy n' =>
        obtain ⟨rfl, -⟩ := hchange
        exact h.destroy_clears hset
      | _ => exact hchange.elim
  have hunchanged : m'.var (m.node n).inner = m.var (m.node n).inner → InnerOk m' (m'.node n) := by
    intro heq
    refine ⟨?_, ?_, fun hunset => ?_⟩
    · rw [(h.frozen.node n hn).inner]
      exact hok.lt.trans_le h.frozen.vars_le
    · rw [(h.frozen.node n hn).inner, heq]
      exact hok.own
    · rw [(h.frozen.node n hn).inner]
      by_cases hset : (m.node n).innerSet = true
      · exact hbefore hunset hset
      · rw [heq]
        exact hok.unset (by simpa using hset)
  rcases h.changes.var _ hok.lt with heq | hchange
  · exact hunchanged heq
  · cases ins with
    | destroy n' =>
      obtain ⟨hinner, hset, hu⟩ := hchange
      refine ⟨?_, ?_, fun _ => ?_⟩
      · rw [(h.frozen.node n hn).inner]
        exact hok.lt.trans_le h.frozen.vars_le
      · rw [(h.frozen.node n hn).inner, hu]
        exact hok.own
      · rw [(h.frozen.node n hn).inner, hu]
    | invoke t => exact hunchanged (h.invoke_var_same hok.lt)
    | finish t env vals cells =>
      obtain ⟨ht, -, hkind'⟩ := h.runs finish_exec
      rcases hchange with ⟨w, hcell⟩ | ⟨hinner, w, hw, hown, hu⟩ | ⟨henv, -⟩
      · exact absurd hcell (h.ok.2 w)
      · obtain rfl := hinj t ht hkind' hinner
        rcases h.finish_inner with heq | hset
        · exact hunchanged heq
        · refine ⟨?_, ?_, fun hunset => by rw [hset] at hunset; cases hunset⟩
          · rw [(h.frozen.node t hn).inner]
            exact hok.lt.trans_le h.frozen.vars_le
          · rw [(h.frozen.node t hn).inner, hu]
            exact ⟨hown.borrowed, hown.shared⟩
      · have hone := one_le_varTokens henv
        simp [Instr.tokens, running, one, arms] at hheld
        omega
    | setup f =>
      have hone := f.le_tokens_var (c := f.count) hchange.1
      simp only [Instr.tokens] at hheld
      omega
    | moveResult f r =>
      have hone := one_le_varTokens (h.ok.1 _ hchange.1)
      have howns := r.owns_nonneg (.var (m.node n).inner)
      have hafter := f.after.tokens_nonneg (.var (m.node n).inner)
      simp only [Instr.tokens] at hheld
      omega
    | runOps env ops after =>
      have hone := one_le_varTokens hchange.1
      have hafter := after.tokens_nonneg (.var (m.node n).inner)
      simp only [Instr.tokens] at hheld
      omega
    | _ => exact hchange.elim

theorem inner_new (h : Legal m spurious ins m' push spawned) {n : ℕ} (hge : m.nodes.size ≤ n)
    (hn : n < m'.nodes.size) (hkind : (m'.node n).kind = .task) : InnerOk m' (m'.node n) := by
  obtain ⟨-, hbirth⟩ := h.changes.newNode n hge hn
  cases ins with
  | setup f =>
    rw [show m'.node n = _ from hbirth] at hkind
    cases hkind
  | runOps env ops after =>
    rcases ops with _ | ⟨op, ops⟩
    · exact hbirth.elim
    · cases op with
      | value x canThrow v =>
        rw [show m'.node n = _ from hbirth] at hkind
        cases hkind
      | deferred x canThrow =>
        rw [show m'.node n = _ from hbirth] at hkind
        cases hkind
      | run dst args canThrow kind code =>
        have hstep := h.step
        rw [exec, if_pos h.inLifetime] at hstep
        cases hstep
        have hnew : ((m.newNode (taskNode args canThrow kind code m.vars.size)).newVar {}).var
            m.vars.size = {} := by
          rw [Mem.var_newVar]
          exact if_pos rfl
        rw [show Mem.node _ n = _ from hbirth]
        refine ⟨Nat.lt_succ_self _, ?_, fun _ => ?_⟩
        · show (Mem.var _ m.vars.size).borrowed = false ∧ (Mem.var _ m.vars.size).shared = false
          rw [hnew]
          exact ⟨rfl, rfl⟩
        · show (Mem.var _ m.vars.size).currentTask = none
          rw [hnew]
      | _ => exact hbirth.elim
  | _ => exact hbirth.elim

/-! ## The memory -/

/-- Every step leaves a well-formed memory. -/
theorem mem_ok (h : Legal m spurious ins m' push spawned) : MemOk m' where
  node n hn := by
    by_cases hold : n < m.nodes.size
    · exact h.node_ok hold
    · exact h.node_new (by omega) hn
  node_lt _ := h.node_lt
  arc a ha := by
    by_cases hold : a < m.arcs.size
    · exact h.arc_ok hold
    · exact h.arc_new (by omega) ha
  arc_lt _ := h.arc_lt
  var v hv := by
    by_cases hold : v < m.vars.size
    · exact h.var_ok hold
    · exact h.var_new (by omega) hv
  inner n hn hkind := by
    by_cases hold : n < m.nodes.size
    · exact h.inner_ok hold ((h.frozen.node n hold).kind.symm.trans hkind)
    · exact h.inner_new (by omega) hn hkind
  control_lt _ := h.control_lt

end Legal

end Oox
