import Oox.Lifetime.Account

/-!
# Moving a var into a node

The converting constructor `var<void>(var<D>&&)` (oox.h:1497-1502) copies the fields of the var,
gives up the reference of the storage owner and empties the source; the copy still names the
owner, and gives its reference up once more. The move constructor of a node is the implicit one,
which copies the fields and leaves the source as it is.
-/

set_option autoImplicit false

namespace Oox

open Library

variable {V : Type}

/-- Turn `e` constructs a node from `std::move` of var `s`, which is not empty. -/
def Converts (c : State V) (e : Turn) (s : ℕ) : Prop :=
  ∃ (env : List ℕ) (dst src : ℕ) (op : Op V) (ops : List (Op V)) (after : After V)
    (rest : List (Instr V)),
    c.threads[e.thread]? = some (.runOps env (op :: ops) after :: rest) ∧
      (op = .toNode dst src ∨ op = .moveNode dst src) ∧ env[src]? = some s ∧
      (c.mem.var s).currentTask.isSome

variable [Inhabited V]

/-- The source of a conversion is empty, and in every continuation of the run the references
that are still to be released on each node are what its `life_count` says. -/
structure OneOwner (c : State V) (s : ℕ) : Prop where
  empty : (c.mem.var s).currentTask = none
  accounted : ∀ c', Reach exec Admitted c c' → Accounted c'

/-- A conversion adds a reference on the owner of the storage, in the new node's end marker. -/
theorem toNode_balance {m m' : Mem V} {env : List ℕ} {dst src : ℕ} {ops : List (Op V)}
    {after : After V} {push : List (Instr V)} {spawned : List (List (Instr V))} {s n : ℕ}
    (henv : ∀ v ∈ env, v < m.vars.size) (hs : env[src]? = some s)
    (hn : (m.var s).currentTask = some n)
    (h : Exec.runOps m env (.toNode dst src :: ops) after = .next m' push spawned) (k : Token) :
    balance m' k + stackSum Instr.tokens push k + threadSum Instr.tokens spawned k =
      balance m k + (Instr.runOps env (.toNode dst src :: ops) after : Instr V).tokens k +
        one (.life ((m.var s).owner.getD n)) k := by
  simp only [Exec.runOps] at h
  split at h
  · rename_i d s' hd hs'
    obtain rfl := Option.some.inj (hs.symm.trans hs')
    simp only [hn] at h
    split at h
    · cases h
    · rename_i hown
      have hborrowed : (m.var s).borrowed = false := by
        simp only [not_or] at hown
        simpa using hown.1
      have hlt : s < m.vars.size := henv s (List.mem_of_getElem? hs)
      have hsrc : balance (m.setVar s { m.var s with currentTask := none }) k =
          balance m k - (m.var s).owns k := by
        rw [balance_setVar m k hlt, varBalance_moved, varBalance_own hborrowed]
        ring
      have hnew := assignVar_balance (m := m.setVar s _) (henv d (List.mem_of_getElem? hd))
        hborrowed h k
      rw [hnew, hsrc, stackSum_cons, stackSum_cons, stackSum_nil]
      simp only [Instr.tokens]
      push_cast
      ring
  · cases h

theorem toNode_nodes {m m' : Mem V} {env : List ℕ} {dst src : ℕ} {ops : List (Op V)}
    {after : After V} {push : List (Instr V)} {spawned : List (List (Instr V))}
    (h : Exec.runOps m env (.toNode dst src :: ops) after = .next m' push spawned) :
    m'.nodes = m.nodes := by
  simp only [Exec.runOps, Exec.assignVar] at h
  repeat' split at h
  all_goals cases h
  rfl

section Results

variable {c c' : State V} {e : Turn} {s : ℕ}

/-- After the converting constructor more is to be released than was taken. -/
theorem toNode_not_accounted (hsound : Sound c) (hbound : Bounded c.mem) {env : List ℕ}
    {dst src : ℕ} {ops : List (Op V)} {after : After V} {rest : List (Instr V)}
    (htop : c.threads[e.thread]? = some (.runOps env (.toNode dst src :: ops) after :: rest))
    (hs : env[src]? = some s) (hfull : (c.mem.var s).currentTask.isSome)
    (hstep : c.step exec e = some c') : ¬ Accounted c' := by
  intro hacc
  obtain ⟨n, hn⟩ := Option.isSome_iff_exists.mp hfull
  obtain ⟨ins, rest', push, spawned, htop', hexec, hthreads⟩ := Config.step_cases hstep
  obtain ⟨rfl, rfl⟩ := List.cons.inj (Option.some.inj (htop.symm.trans htop'))
  have hcov := hsound.covered hbound (List.mem_of_getElem? htop)
  have henv : ∀ v ∈ env, v < c.mem.vars.size := by
    intro v hv
    have hvar := hcov (.var v)
    simp only [Instr.tokens] at hvar
    exact lt_of_env hv hvar (after.tokens_nonneg _)
  unfold exec at hexec
  split at hexec
  · set o := (c.mem.var s).owner.getD n
    have hmoved := toNode_balance henv hs hn hexec (.life o)
    have hnodes := toNode_nodes hexec
    -- the law of the ledger is off by the reference that was given up twice
    have hexcess : balance c'.mem (.life o) + threadSum Instr.tokens c'.threads (.life o) = 1 := by
      have hlaw := hsound.law (.life o)
      rw [hthreads, threadSum_append, threadSum_set Instr.tokens _ c.threads _ _ _ htop,
        stackSum_cons, stackSum_append]
      rw [one_self] at hmoved
      linarith
    rw [balanced_life, hacc o] at hexcess
    split_ifs at hexcess with hlt
    · rw [← hacc o] at hexcess
      omega
    · have hdead : (c'.mem.node o).status = .dead := by
        unfold Mem.node
        rw [hnodes] at hlt ⊢
        by_contra hne
        exact hlt (hsound.mem.node_lt o hne)
      have hcounts : (c'.mem.node o).counts = 0 := by
        simp [Node.counts, lifeSupply, hdead]
      have hzero := hacc o
      omega
  · cases hexec

/-- The move constructor of a node leaves its source as it is. -/
theorem moveNode_full {env : List ℕ} {dst src : ℕ} {ops : List (Op V)} {after : After V}
    {rest : List (Instr V)}
    (htop : c.threads[e.thread]? = some (.runOps env (.moveNode dst src :: ops) after :: rest))
    (hs : env[src]? = some s) (hstep : c.step exec e = some c') :
    (c'.mem.var s).currentTask = (c.mem.var s).currentTask := by
  obtain ⟨ins, rest', push, spawned, htop', hexec, -⟩ := Config.step_cases hstep
  obtain ⟨rfl, rfl⟩ := List.cons.inj (Option.some.inj (htop.symm.trans htop'))
  unfold exec at hexec
  split at hexec
  · simp only [Exec.runOps, Exec.assignVar] at hexec
    generalize c'.mem = m' at hexec ⊢
    repeat' split at hexec
    all_goals cases hexec
    rename_i d s' hd hs' _
    obtain rfl := Option.some.inj (hs.symm.trans hs')
    rw [Mem.var_setVar]
    split <;> rfl
  · cases hexec

/-- No conversion of a var or node that is not empty leaves one owner. -/
theorem conversion_not_oneOwner {locals : ℕ} {ops : List (Op V)}
    (hreach : Reach exec Admitted (initial locals ops) c) (hbound : Bounded c.mem)
    (hconverts : Converts c e s) (hstep : c.step exec e = some c') : ¬ OneOwner c' s := by
  intro howner
  obtain ⟨env, dst, src, op, ops', after, rest, htop, rfl | rfl, hs, hfull⟩ := hconverts
  · apply toNode_not_accounted (Sound.of_reach hreach) hbound htop hs hfull hstep
    exact howner.accounted c' .start
  · have hkept := moveNode_full htop hs hstep
    rw [howner.empty] at hkept
    rw [← hkept] at hfull
    cases hfull

end Results

/-! ### Converting a value -/

section Example

/-- A value var is converted into a node, and the node is destroyed. -/
def convertValue : List (Op ℕ) := [.value 0 true 5, .toNode 1 0, .destroy 1]

/-- The var that the next turn converts, when there is one. -/
def converted (c : State ℕ) (e : Turn) : Option ℕ :=
  match c.threads[e.thread]? with
  | some (.runOps env (.toNode _ src :: _) _ :: _) =>
    (env[src]?).filter fun s => (c.mem.var s).currentTask.isSome
  | _ => none

theorem converts_of_converted {c : State ℕ} {e : Turn} {s : ℕ} (h : converted c e = some s) :
    Converts c e s := by
  unfold converted at h
  split at h
  · rename_i env dst src ops after rest htop
    obtain ⟨hs, hfull⟩ := Option.filter_eq_some_iff.mp h
    exact ⟨env, dst, src, _, ops, after, rest, htop, .inl rfl, hs, hfull⟩
  · cases h

/-- The conversion of a value var. -/
theorem conversion_not_oneOwner_value : ∃ c c',
    Reach exec Admitted (initial 2 convertValue) c ∧ Converts c ⟨0, false⟩ 0 ∧
    c.step exec ⟨0, false⟩ = some c' ∧ ¬ OneOwner c' 0 := by
  obtain ⟨c, hreach, hc⟩ := Reach.exists_of_runIf exec admits (initial 2 convertValue)
    (rounds [(0, 1)])
    (fun c => decide (converted c ⟨0, false⟩ = some 0 ∧ c.mem.arcs.size = 0 ∧
      (c.step exec ⟨0, false⟩).isSome))
    (by decide)
  obtain ⟨hconverted, harcs, hsome⟩ := of_decide_eq_true hc
  obtain ⟨c', hstep⟩ := Option.isSome_iff_exists.mp hsome
  have hadmitted := hreach.mono fun _ _ => admitted_of_check
  have hconverts := converts_of_converted hconverted
  have hbound : Bounded c.mem := bounded_of_arcs (by rw [harcs]; decide)
  exact ⟨c, c', hadmitted, hconverts, hstep,
    conversion_not_oneOwner hadmitted hbound hconverts hstep⟩

/-- The top of the main thread gives up more references than its node counts. -/
def underflows (c : State ℕ) : Bool :=
  match c.threads[0]? with
  | some (Instr.releaseSub n k :: _) =>
    decide ((c.mem.node n).lifeCount < k ∧ (c.mem.node n).status = .live)
  | _ => false

theorem fault_of_underflows {c : State ℕ} (h : underflows c = true) :
    ∃ ins rest, c.threads[0]? = some (ins :: rest) ∧ exec c.mem false ins = .fault .assertion := by
  unfold underflows at h
  split at h
  · rename_i n k rest htop
    obtain ⟨hlt, hlive⟩ := of_decide_eq_true h
    refine ⟨_, rest, htop, ?_⟩
    have hlifetime : inLifetime c.mem (.releaseSub n k) = true :=
      inLifetime_iff.mpr ⟨by simpa [touches] using hlive, nofun, nofun, nofun, trivial⟩
    have hneg : (c.mem.node n).lifeCount - k < 0 := by omega
    simp [exec, hlifetime, Exec.releaseSub, hneg]
  · cases h

/-- The node made from a value var gives up three references where two were taken: its
destruction takes `life_count` below zero. -/
theorem converted_value_underflows : ∃ c c' c'',
    Reach exec Admitted (initial 2 convertValue) c ∧ Converts c ⟨0, false⟩ 0 ∧
    c.step exec ⟨0, false⟩ = some c' ∧ Reach exec Admitted c' c'' ∧
    ∃ ins rest, c''.threads[0]? = some (ins :: rest) ∧
      exec c''.mem false ins = .fault .assertion := by
  obtain ⟨c, hreach, hc⟩ := Reach.exists_of_runIf exec admits (initial 2 convertValue)
    (rounds [(0, 1)])
    (fun c => decide (converted c ⟨0, false⟩ = some 0) && (c.step exec ⟨0, false⟩).any fun c' =>
      (c'.runIf exec admits (rounds [(0, 7)])).any underflows)
    (by decide)
  rw [Bool.and_eq_true, decide_eq_true_eq] at hc
  obtain ⟨c', hstep, hlater⟩ := (Option.any_eq_true _ _).mp hc.2
  obtain ⟨c'', hlater, hunder⟩ := Reach.exists_of_runIf exec admits c' _ _ hlater
  exact ⟨c, c', c'', hreach.mono fun _ _ => admitted_of_check, converts_of_converted hc.1, hstep,
    hlater.mono fun _ _ => admitted_of_check, fault_of_underflows hunder⟩

end Example

end Oox
