import Oox.Conservation.Execution

/-!
# Issuing work conserves tokens

`run` with the set-up of its arguments, and the other operations of a thread.
-/

set_option autoImplicit false

namespace Oox

open Library

variable {V : Type} {m m' : Mem V} {push : List (Instr V)}
variable {spawned : List (List (Instr V))}

/-! ## Frames -/

/-- A call of `run` that counts one prerequisite more holds one less. -/
theorem Frame.tokens_succ (f : Frame V) (c : ℕ) (k : Token) :
    f.tokens c k = f.tokens (c + 1) k + one (.pre f.task) k := by
  unfold Frame.tokens
  push_cast
  ring

/-- A writer argument uses one prerequisite and the next slot. -/
theorem Frame.tokens_writer {f : Frame V} {x : ℕ} {mode : AccessMode} {rest : List Arg}
    (hargs : f.args = .var x mode :: rest) (hmode : mode.isWriter = true) (k : Token) :
    f.tokens f.count k =
      ({ f with args := rest, port := f.port + 1, count := f.count + 1 } : Frame V).tokens
        (f.count + 1) k + one (.pre f.task) k + one (.cap f.task f.port) k := by
  have hfilter : ((Arg.var x mode :: rest).filter Arg.isWriter).length =
      (rest.filter Arg.isWriter).length + 1 := by
    simp [Arg.isWriter, hmode]
  unfold Frame.tokens
  rw [hargs, hfilter, Finset.sum_eq_sum_Ico_succ_bot (by omega),
    show f.port + ((rest.filter Arg.isWriter).length + 1) =
      f.port + 1 + (rest.filter Arg.isWriter).length by omega]
  push_cast
  ring

/-- Any other argument uses no slot. -/
theorem Frame.tokens_reader {f : Frame V} {arg : Arg} {rest : List Arg}
    (hargs : f.args = arg :: rest) (harg : arg.isWriter = false) (c : ℕ) (k : Token) :
    f.tokens c k = ({ f with args := rest } : Frame V).tokens c k := by
  have hfilter : (arg :: rest).filter Arg.isWriter = rest.filter Arg.isWriter := by
    simp [harg]
  unfold Frame.tokens
  rw [hargs, hfilter]

theorem After.tokens_nonneg (after : After V) (k : Token) : 0 ≤ after.tokens k := by
  cases after with
  | exit => rfl
  | body t vals cells => exact add_nonneg (one_nonneg _ _) (arms_nonneg _ _ _)

theorem Frame.after_le_tokens {f : Frame V} {c : ℕ} (hc : c < startCountMask) (k : Token) :
    f.after.tokens k ≤ f.tokens c k := by
  have hcaps : 0 ≤ ∑ q ∈ Finset.Ico f.port (f.port + (f.args.filter Arg.isWriter).length),
      one (.cap f.task q) k := Finset.sum_nonneg fun _ _ => one_nonneg _ _
  have hpre : 0 ≤ ((startCountMask : ℤ) - c - 1) * one (.pre f.task) k :=
    mul_nonneg (by omega) (one_nonneg _ _)
  have hsetup := one_nonneg (.setup f.task) k
  have hcap := one_nonneg (.cap f.task 0) k
  have henv := varTokens_nonneg f.env k
  unfold Frame.tokens
  omega

theorem Frame.tokens_nonneg {f : Frame V} {c : ℕ} (hc : c < startCountMask) (k : Token) :
    0 ≤ f.tokens c k :=
  (f.after.tokens_nonneg k).trans (Frame.after_le_tokens hc k)

/-- The tokens of a frame about its task and its vars. -/
theorem Frame.le_tokens_setup {f : Frame V} {c : ℕ} : 1 ≤ f.tokens c (.setup f.task) := by
  have hcaps : ∀ q ∈ Finset.Ico f.port (f.port + (f.args.filter Arg.isWriter).length),
      one (.cap f.task q) (.setup f.task) = 0 := fun _ _ => one_of_ne (by simp)
  have hafter := f.after.tokens_nonneg (.setup f.task)
  unfold Frame.tokens
  rw [Finset.sum_eq_zero hcaps, varTokens_eq_zero rfl]
  simp [one, hafter]

theorem Frame.le_tokens_var {f : Frame V} {c v : ℕ} (hv : v ∈ f.env) :
    1 ≤ f.tokens c (.var v) := by
  have hcaps : ∀ q ∈ Finset.Ico f.port (f.port + (f.args.filter Arg.isWriter).length),
      one (.cap f.task q) (.var v) = 0 := fun _ _ => one_of_ne (by simp)
  have hafter := f.after.tokens_nonneg (.var v)
  have hone := one_le_varTokens hv
  unfold Frame.tokens
  rw [Finset.sum_eq_zero hcaps]
  simp only [one, reduceCtorEq, if_false, mul_zero]
  omega

/-- The vars of a thread are allocated. -/
theorem lt_of_env {env : List ℕ} {v : ℕ} {x : ℤ} (hv : v ∈ env)
    (hcov : varTokens env (.var v) + x ≤ -balance m (.var v)) (hx : 0 ≤ x) :
    v < m.vars.size := by
  have hone := one_le_varTokens hv
  exact (owed_var (v := v) (m := m) (by omega)).1

/-! ## New nodes -/

/-- A storage node comes with the slot and the owner of one var. -/
theorem storage_balance [Inhabited V] (n : ℕ) (x : Node V) (hkind : x.kind ≠ .task)
    (hphase : x.phase = .finished) (hstatus : x.status = .live) (hlife : x.lifeCount = 2)
    (hslots : x.slots = 1) (hhead : ∀ k, x.head.tokens n k = 0) (hlocals : x.locals = [])
    (hout : x.out = fun _ => { nextWriter := .ready, armed := true, handed := true })
    (k : Token) : nodeBalance n x k = -one (.life n) k - one (.cap n 0) k := by
  have harm : armSupply n .finished x.out k = 0 := by
    cases k <;> simp [armSupply]
  simp only [nodeBalance, hkind, hphase, hstatus, hlife, hslots, hhead, hlocals, harm,
    Phase.pending, Phase.rights, Phase.prerequisites, lifeSupply, varTokens_nil, reduceCtorEq,
    if_true, if_false]
  simp [hout, slotBalance, NextWriter.tokens]
  ring

theorem storageNode_balance [Inhabited V] (n : ℕ) (v : V) (k : Token) :
    nodeBalance n (storageNode v) k = -one (.life n) k - one (.cap n 0) k :=
  storage_balance n _ (by simp [storageNode]) rfl rfl rfl rfl (fun _ => rfl) rfl rfl k

theorem deferredNode_balance [Inhabited V] (n : ℕ) (k : Token) :
    nodeBalance n (deferredNode : Node V) k = -one (.life n) k - one (.cap n 0) k :=
  storage_balance n _ (by simp [deferredNode]) rfl rfl rfl rfl (fun _ => rfl) rfl rfl k

theorem storageVar_owns (n : ℕ) (isDeferred canThrow : Bool) (k : Token) :
    (storageVar n isDeferred canThrow).owns k = one (.cap n 0) k + one (.life n) k := rfl

/-- A new task comes with everything its set-up hands out. -/
theorem taskNode_balance [Inhabited V] (n v : ℕ) (args : List Arg) (canThrow : Bool)
    (kind : ResultKind) (code : Body V) (k : Token) :
    nodeBalance n (taskNode args canThrow kind code v) k =
      one (.var v) k - one (.setup n) k - (startCountMask - 1) * one (.pre n) k -
        one (.cap n 0) k -
        ∑ q ∈ Finset.Ico 1 (1 + (args.filter Arg.isWriter).length), one (.cap n q) k := by
  have harm : armSupply n .setup (taskNode args canThrow kind code v).out k = arms n 0 k := by
    cases k <;> simp [armSupply, arms, taskNode, default]
  have hslots : ∑ p ∈ Finset.range (taskNode args canThrow kind code v).slots,
      slotBalance n p ((taskNode args canThrow kind code v).out p) k =
      (1 + (args.filter Arg.isWriter).length) * one (.life n) k - one (.cap n 0) k -
        ∑ q ∈ Finset.Ico 1 (1 + (args.filter Arg.isWriter).length), one (.cap n q) k := by
    have hone : ∀ p ∈ Finset.range (taskNode args canThrow kind code v).slots,
        slotBalance n p ((taskNode args canThrow kind code v).out p) k =
          one (.life n) k - one (.cap n p) k := by
      intro p _
      simp [slotBalance, taskNode, default, NextWriter.tokens]
    rw [Finset.sum_congr rfl hone, Finset.sum_sub_distrib, Finset.sum_const, Finset.card_range,
      Finset.range_eq_Ico, Finset.sum_eq_sum_Ico_succ_bot (by simp [taskNode, writeNodesCount])]
    simp [taskNode, writeNodesCount]
    ring
  have hphase : (taskNode args canThrow kind code v).phase = .setup := rfl
  have hhead : (taskNode args canThrow kind code v).head.tokens n k = 0 := rfl
  have hlocals : (taskNode args canThrow kind code v).locals = [] := rfl
  have hkind : (taskNode args canThrow kind code v).kind = .task := rfl
  have hstatus : (taskNode args canThrow kind code v).status = .live := rfl
  have hinner : (taskNode args canThrow kind code v).inner = v := rfl
  have hcount : (taskNode args canThrow kind code v).startCount.count = startCountMask := rfl
  have hcard : (taskNode args canThrow kind code v).slots =
      1 + (args.filter Arg.isWriter).length := rfl
  unfold nodeBalance
  rw [hslots, hphase, harm, hhead, hlocals, hkind, hstatus, hinner, hcount, hcard]
  simp only [Phase.pending, Phase.rights, Phase.prerequisites, lifeSupply, varTokens_nil,
    reduceCtorEq, if_true, if_false, ite_self]
  push_cast
  ring

/-! ## The set-up of an argument -/

theorem setup_moves [Inhabited V] {f : Frame V} (hcov : Covered m (.setup f))
    (h : Exec.setup m f = .next m' push spawned) : Moves m (.setup f) m' push spawned := by
  have htask := hcov (.setup f.task)
  have hone := f.le_tokens_setup (c := f.count)
  simp only [Instr.tokens] at htask
  obtain ⟨ht, -⟩ := owed_setup (n := f.task) (m := m) (by omega)
  unfold Exec.setup at h
  split at h
  · cases h
    intro k
    simp [Instr.tokens]
  · rename_i rest hargs
    cases h
    intro k
    simp only [Instr.tokens, stackSum_cons, stackSum_nil, threadSum_nil,
      f.tokens_reader hargs rfl f.count k]
    ring
  · rename_i x mode rest hargs
    split at h
    · cases h
    · rename_i v hv
      have hvmem : v ∈ f.env := List.mem_of_getElem? hv
      have hvar := hcov (.var v)
      have hone' := f.le_tokens_var (c := f.count) hvmem
      simp only [Instr.tokens] at hvar
      obtain ⟨hvlt, -⟩ := owed_var (v := v) (m := m) (by omega)
      simp only at h
      split at h
      · -- an empty var: a storage node with its default value
        rename_i hnone
        split at h
        · cases h
        · rename_i hown
          have hborrowed : (m.var v).borrowed = false := by
            simp only [not_or] at hown
            simpa using hown.1
          cases h
          intro k
          rw [balance_setVar (m.newNode _) k hvlt, balance_newNode, storageNode_balance,
            varBalance_own rfl, storageVar_owns, Mem.var_newNode, varBalance_own hborrowed]
          simp only [Var.owns, hnone, Instr.tokens, stackSum_cons, stackSum_nil, threadSum_nil]
          ring
      · rename_i n hn
        have hnode : ∀ (x : Node V) (args : List VarArg) (k : Token), m.node f.task = x →
            balance (m.setNode f.task { x with args := args }) k = balance m k := by
          rintro x args k rfl
          rw [balance_setNode m k ht]
          simp only [nodeBalance]
          ring
        split at h
        · rename_i hwriter
          split at h
          · cases h
          · split at h
            · cases h
            · split at h
              · cases h
              · rename_i hown _ _
                have hborrowed : (m.var v).borrowed = false := by
                  simp only [not_or] at hown
                  simpa using hown.1
                -- the var now stands for a slot of the task
                have hset : ∀ (args : List VarArg) (k : Token), balance ((m.setNode f.task
                    { m.node f.task with args := args }).setVar v { m.var v with
                      currentTask := some f.task, currentPort := f.port, isDeferred := false }) k =
                    balance m k + one (.cap f.task f.port) k - one (.cap n (m.var v).currentPort) k
                    := by
                  intro args k
                  rw [balance_setVar (m.setNode f.task _) k hvlt, hnode _ _ _ rfl, Mem.var_setNode,
                    varBalance_own hborrowed]
                  generalize m.var v = u at *
                  rw [varBalance_own (u := { u with
                    currentTask := some f.task, currentPort := f.port, isDeferred := false })
                    hborrowed]
                  simp only [Var.owns, hn]
                  ring
                split at h
                · cases h
                  intro k
                  rw [balance_newArc, hset]
                  simp only [arcBalance, Arc.carries, Arc.token, Instr.tokens, stackSum_cons,
                    stackSum_nil, threadSum_nil, Mem.arcs_setNode, Mem.arcs_setVar,
                    f.tokens_writer hargs hwriter, ne_eq, not_true_eq_false, reduceCtorEq, if_true,
                    if_false]
                  ring
                · cases h
                  intro k
                  rw [hset]
                  simp only [Instr.tokens, NextWriter.tokens, stackSum_cons, stackSum_nil,
                    threadSum_nil, f.tokens_writer hargs hwriter]
                  ring
        · rename_i hreader
          split at h
          · cases h
          · cases h
            intro k
            have hsucc := Frame.tokens_succ { f with args := rest } f.count k
            rw [balance_newArc, hnode _ _ _ rfl]
            simp only [arcBalance, Arc.carries, Arc.token, Instr.tokens, AddSite.tokens,
              stackSum_cons, stackSum_nil, threadSum_nil, Mem.arcs_setNode,
              f.tokens_reader hargs (by simpa [Arg.isWriter] using hreader) f.count k, hsucc, ne_eq,
              not_true_eq_false, reduceCtorEq, if_true, if_false]
            ring

/-! ## assign_prerequisite -/

/-- The arc `assign_prerequisite` is about stands for a prerequisite of the new task. -/
theorem arc_of_assign {f : Frame V} {n p a : ℕ} (hok : MemOk m) (harc : AssignOk m f n p a)
    (hcov : ∀ k, one (.arc a n) k + f.tokens (f.count + 1) k ≤ -balance m k) :
    a < m.arcs.size ∧ (m.arc a).alive = true ∧ (m.arc a).accepted = (m.arc a).handled ∧
      (m.arc a).role = .waiting ∧ (m.arc a).site = n ∧ Token.arc a n = (m.arc a).token a ∧
      (m.arc a).reads = some (f.task, (n, p)) := by
  have howed := hcov (.arc a n)
  rw [f.tokens_eq_zero _ rfl, one_self] at howed
  obtain ⟨ha, halive, htoken⟩ := owed_arc (m := m) (k := .arc a n) rfl (by omega)
  obtain ⟨heq, hrole, hsite⟩ := Arc.token_arc htoken
  have hwaiting : (m.arc a).role = .waiting := by
    have hallows := (hok.arc a ha).kind
    rw [harc.kind] at hallows
    rcases hallows with hw | hs
    · exact hw
    · simp [hs] at hrole
  have hreads := (hok.arc a ha).flowBack harc.kind hwaiting
  rw [harc.node, harc.port, hsite] at hreads
  exact ⟨ha, halive, heq, hwaiting, hsite, htoken, hreads⟩

/-- A waiting arc that is sent to another node. -/
theorem Arc.arcBalance_reroute {x : Arc} {a : ℕ} (halive : x.alive = true)
    (heq : x.accepted = x.handled) (hwaiting : x.role = .waiting) (p s : ℕ)
    (reads : Option (ℕ × (ℕ × ℕ))) (k : Token) :
    arcBalance a { x with port := p, site := s, reads := reads } k =
      arcBalance a x k + one (x.token a) k - one (.arc a s) k := by
  rw [arcBalance_alive (x := { x with port := p, site := s, reads := reads }) halive,
    arcBalance_alive halive]
  have htoken : Token.arc a s = Arc.token a { x with port := p, site := s, reads := reads } := by
    simp [Arc.token, heq, hwaiting]
  rw [← htoken]
  simp only [Arc.carries, hwaiting]
  ring

theorem assignHead_moves {f : Frame V} {n p a : ℕ} (hok : MemOk m)
    (hins : (Instr.assignHead f n p a).Ok m) (hcov : Covered m (.assignHead f n p a))
    (h : Exec.assignHead m f n p a = .next m' push spawned) :
    Moves m (.assignHead f n p a) m' push spawned := by
  obtain ⟨ha, halive, heq, hwaiting, -, htoken, -⟩ := arc_of_assign hok hins.1 hcov
  unfold Exec.assignHead at h
  split at h
  · cases h
    intro k
    rw [balance_setArc m k ha, Arc.arcBalance_reroute halive heq hwaiting, ← htoken]
    simp only [Instr.tokens, AddSite.tokens, stackSum_cons, stackSum_nil, threadSum_nil]
    ring
  · cases h
    intro k
    simp [Instr.tokens]

theorem assignFailure_moves {f : Frame V} {n p a : ℕ}
    (h : Exec.assignFailure m f n p a = .next m' push spawned) :
    Moves m (.assignFailure f n p a) m' push spawned := by
  cases h
  intro k
  rw [stackSum_append, publish_tokens]
  simp [Instr.tokens]

theorem assignIncrement_moves {f : Frame V} {n p a : ℕ} (hok : MemOk m)
    (hins : (Instr.assignIncrement f n p a).Ok m) (hlive : (m.node n).status = .live)
    (hcov : Covered m (.assignIncrement f n p a))
    (h : Exec.assignIncrement m f n p a = .next m' push spawned) :
    Moves m (.assignIncrement f n p a) m' push spawned := by
  obtain ⟨ha, halive, heq, hwaiting, -, htoken, hreads⟩ := arc_of_assign hok hins.1 hcov
  have hn := hok.lt_of_live hlive
  have hp := ((hok.arc a ha).reads _ _ _ hreads).2.2
  have hfinished : (m.node n).phase = .finished := by
    by_contra hne
    obtain ⟨l, hl⟩ := (hok.node n hn).opened hne
    exact hins.2 l hl
  have harmed := (hok.node n hn).armed hfinished p hp
  rw [Exec.assignIncrement_eq] at h
  simp only at h
  split at h
  · rename_i hpos
    cases h
    intro k
    rw [balance_setArc (m.setOut n p _) k ha, balance_setOut m k hn hp]
    have hzero : ((m.node n).out p).countdown ≠ 0 := by omega
    have hzero' : ((m.node n).out p).countdown + 1 ≠ 0 := by omega
    have hnode : (m.arc a).node = f.task := hins.1.node
    have hkind : (m.arc a).kind = .flowBack := hins.1.kind
    have hport : (m.arc a).port = p := hins.1.port
    have harc : ∀ o, (m.setOut n p o).arc a = m.arc a := fun _ => rfl
    rw [harc]
    generalize m.arc a = x at *
    rw [arcBalance_alive (x := { x with
        node := n, kind := .backOnly, role := .charged, site := f.task }) halive,
      arcBalance_alive halive, ← htoken]
    simp [slotBalance, slotArm, harmed, hzero, hzero', Arc.carries, Arc.token, hwaiting, heq,
      hnode, hkind, hport, Instr.tokens, AddSite.tokens, f.tokens_succ f.count]
    ring
  · cases h

/-! ## set_next_writer of a deferred var -/

theorem redirect_moves {n q t p a : ℕ} (hok : MemOk m)
    (hins : (Instr.redirect n q t p a : Instr V).Ok m) (hlive : (m.node n).status = .live)
    (h : Exec.redirect m n q t p a = .next m' push spawned) :
    Moves m (.redirect n q t p a) m' push spawned := by
  have hn := hok.lt_of_live hlive
  obtain ⟨hkind, -, hredirect, -⟩ := hins
  have hdone := (hok.node n hn).deferred hkind
  cases h
  intro k
  rw [balance_setNode m k hn]
  cases hhead : (m.node n).head with
  | list l =>
    simp only [nodeBalance, hlive, hhead, Head.tokens, Instr.tokens, stackSum_cons, stackSum_nil,
      threadSum_nil, reduceCtorEq, if_false]
    ring
  | done => simp [hhead, Head.isDone] at hdone
  | terminal b => simp [hhead, Head.isDone] at hdone
  | redirect d => exact absurd hhead (hredirect d)

/-- A waiting arc that was taken from one list and is sent to another node. -/
theorem Arc.arcBalance_relist {x : Arc} {a : ℕ} (halive : x.alive = true)
    (heq : x.accepted = x.handled + 1) (hwaiting : x.role = .waiting) (p s : ℕ)
    (reads : Option (ℕ × (ℕ × ℕ))) (k : Token) :
    arcBalance a { x with port := p, site := s, reads := reads, handled := x.handled + 1 } k =
      arcBalance a x k + one (x.token a) k - one (.arc a s) k := by
  rw [arcBalance_alive (x := { x with
      port := p, site := s, reads := reads, handled := x.handled + 1 }) halive,
    arcBalance_alive halive]
  have htoken : Token.arc a s = Arc.token a { x with
      port := p, site := s, reads := reads, handled := x.handled + 1 } := by
    simp [Arc.token, heq, hwaiting]
  rw [← htoken]
  simp only [Arc.carries, hwaiting]
  ring

theorem moveArcs_moves {n q t p : ℕ} {r : List ℕ} (hok : MemOk m)
    (hkind : (m.node n).kind = .deferred) (hcov : Covered m (.moveArcs n q t p r))
    (h : Exec.moveArcs m n q t p r = .next m' push spawned) :
    Moves m (.moveArcs n q t p r) m' push spawned := by
  cases r with
  | nil =>
    cases h
    intro k
    simp [Instr.tokens, NextWriter.tokens]
  | cons a r =>
    have hlisted := hcov (.listed a n)
    have hrest := listedTokens_nonneg n r (.listed a n)
    simp only [Instr.tokens, listedTokens_cons, one_self,
      one_of_ne (t := .cap n q) (k := .listed a n) (by simp),
      one_of_ne (t := .pre t) (k := .listed a n) (by simp)] at hlisted
    obtain ⟨ha, halive, haccepted, hsite, htoken, hrole⟩ :=
      arc_of_listed (m := m) (a := a) (t := n) hok (by omega)
    have hwaiting : (m.arc a).role = .waiting := by
      rcases hrole with hw | hother
      · exact hw
      · have htask := ((hok.arc a ha).site hother).2
        rw [hsite, hkind] at htask
        cases htask
    cases h
    intro k
    rw [balance_setArc m k ha, Arc.arcBalance_relist halive haccepted hwaiting, ← htoken]
    simp [Instr.tokens, AddSite.tokens]
    ring

/-! ## The end of run -/

theorem bind_moves {f : Frame V} (hins : (Instr.bind f).Ok m)
    (hlive : (m.node f.task).status = .live) (hcov : Covered m (.bind f))
    (h : Exec.bind m f = .next m' push spawned) : Moves m (.bind f) m' push spawned := by
  obtain ⟨hargs, hcount, -⟩ := hins
  have htask := hcov (.setup f.task)
  have hone := f.le_tokens_setup (c := f.count)
  simp only [Instr.tokens] at htask
  obtain ⟨ht, hphase, -⟩ := owed_setup (n := f.task) (m := m) (by omega)
  cases h
  intro k
  have harm : armSupply f.task .waiting (m.node f.task).out k =
      armSupply f.task .setup (m.node f.task).out k := by
    cases k <;> simp [armSupply]
  have howns : (bindLifetime (m.node f.task) : ℤ) * one (.life f.task) k + one (.cap f.task 0) k =
      (1 + (m.node f.task).slots) * one (.life f.task) k +
        (resultVar (m.node f.task) f.task).owns k := by
    cases hkind : (m.node f.task).resultKind <;>
      simp [bindLifetime, resultVar, Var.owns, hkind] <;> ring
  have hcast : ((startCountMask - f.count : ℕ) : ℤ) = startCountMask - f.count := by
    omega
  rw [balance_setNode m k ht]
  simp only [nodeBalance, hphase, hlive, harm, Phase.pending, Phase.rights, Phase.prerequisites,
    lifeSupply, reduceCtorEq, if_true, if_false, Instr.tokens, Frame.tokens, hargs, hcast,
    List.filter_nil, List.length_nil, add_zero, Finset.Ico_self, Finset.sum_empty, stackSum_cons,
    stackSum_nil, threadSum_nil]
  linarith

/-- Overwriting a var of the caller hands on what it owned. -/
theorem balance_overwrite {v : ℕ} {u r : Var} (hv : v < m.vars.size) (hu : m.var v = u)
    (hborrowed : u.borrowed = false) (hr : r.borrowed = false) (k : Token) :
    balance (m.setVar v r) k + stackSum Instr.tokens (releaseVar u : List (Instr V)) k =
      balance m k + r.owns k := by
  rw [balance_setVar m k hv, hu, varBalance_own hborrowed, varBalance_own hr, releaseVar_tokens]
  ring

theorem moveResult_moves {f : Frame V} {r : Var} (hins : (Instr.moveResult f r).Ok m)
    (hcov : Covered m (.moveResult f r)) (h : Exec.moveResult m f r = .next m' push spawned) :
    Moves m (.moveResult f r) m' push spawned := by
  obtain ⟨hdst, -, hr, -⟩ := hins
  unfold Exec.moveResult at h
  split at h
  · cases h
    intro k
    rw [stackSum_append, releaseVar_tokens]
    simp [Instr.tokens]
    ring
  · rename_i v hv
    have hmem := hdst v hv
    have howns := r.owns_nonneg (.var v)
    have hafter := f.after.tokens_nonneg (.var v)
    have hvar := hcov (.var v)
    simp only [Instr.tokens] at hvar
    have hvlt := lt_of_env (m := m) (x := r.owns (.var v) + f.after.tokens (.var v)) hmem
      (by omega) (by omega)
    simp only at h
    split at h
    · cases h
    · rename_i hown
      have hborrowed : (m.var v).borrowed = false := by
        simp only [not_or] at hown
        simpa using hown.1
      cases h
      intro k
      have hover := balance_overwrite hvlt rfl hborrowed hr k
      rw [stackSum_append]
      simp only [Instr.tokens, stackSum_cons, stackSum_nil, threadSum_nil]
      linarith

/-! ## The operations of a thread -/

theorem assignVar_balance {v : ℕ} {r : Var} {next : List (Instr V)} (hv : v < m.vars.size)
    (hr : r.borrowed = false) (h : Exec.assignVar m v r next = .next m' push spawned)
    (k : Token) :
    balance m' k + stackSum Instr.tokens push k + threadSum Instr.tokens spawned k =
      balance m k + r.owns k + stackSum Instr.tokens next k := by
  unfold Exec.assignVar at h
  simp only at h
  split at h
  · cases h
  · rename_i hown
    have hborrowed : (m.var v).borrowed = false := by
      simp only [not_or] at hown
      simpa using hown.1
    cases h
    have hover := balance_overwrite hv rfl hborrowed hr k
    rw [stackSum_append, threadSum_nil]
    linarith

theorem borrowVars_size (m : Mem V) (vs : List ℕ) :
    (Exec.borrowVars m vs).vars.size = m.vars.size + vs.length := by
  induction vs generalizing m with
  | nil => rfl
  | cons v vs ih =>
    unfold Exec.borrowVars
    rw [ih]
    simp
    omega

/-- A forked thread gets the borrowed vars and owns nothing through them. -/
theorem borrowVars_balance {vs : List ℕ} (hvs : ∀ v ∈ vs, v < m.vars.size) (k : Token) :
    balance (Exec.borrowVars m vs) k =
      balance m k - varTokens (List.range' m.vars.size vs.length) k := by
  induction vs generalizing m with
  | nil => simp [Exec.borrowVars]
  | cons v vs ih =>
    have hv := hvs v List.mem_cons_self
    unfold Exec.borrowVars
    simp only
    rw [ih fun w hw => by
        have := hvs w (List.mem_cons_of_mem _ hw)
        simp only [Mem.vars_newVar_size, Mem.vars_setVar_size]
        omega]
    rw [balance_newVar, balance_setVar m k hv, List.length_cons, List.range'_succ]
    simp only [varBalance, Var.owns, Mem.vars_newVar_size, Mem.vars_setVar_size, varTokens,
      List.map_cons, List.sum_cons, if_true]
    ring

theorem left_balance (vs : List ℕ) (k : Token) :
    balance { m with left := m.left ++ vs } k = balance m k + varTokens vs k := by
  simp only [balance, varTokens_append]
  ring

theorem runOps_moves [Inhabited V] {env : List ℕ} {ops : List (Op V)} {after : After V}
    (hok : MemOk m) (htame : (Instr.runOps env ops after).Tame m)
    (hcov : Covered m (.runOps env ops after))
    (h : Exec.runOps m env ops after = .next m' push spawned) :
    Moves m (.runOps env ops after) m' push spawned := by
  have henv : ∀ {x v : ℕ}, env[x]? = some v → v < m.vars.size := by
    intro x v hv
    have hvar := hcov (.var v)
    simp only [Instr.tokens] at hvar
    exact lt_of_env (List.mem_of_getElem? hv) hvar (after.tokens_nonneg _)
  cases ops with
  | nil =>
    unfold Exec.runOps at h
    simp only at h
    split at h
    · cases h
      intro k
      rw [left_balance]
      simp [Instr.tokens, After.tokens]
    · cases h
      intro k
      simp [Instr.tokens, After.tokens]
      ring
  | cons op ops =>
    have hnext : ∀ k, stackSum Instr.tokens [Instr.runOps env ops after] k =
        (Instr.runOps env (op :: ops) after).tokens k := by
      intro k
      simp [Instr.tokens]
    cases op with
    | empty x canThrow =>
      simp only [Exec.runOps] at h
      split at h
      · cases h
      · rename_i w hw
        intro k
        rw [assignVar_balance (henv hw) rfl h, hnext]
        simp [Var.owns]
    | value x canThrow v =>
      simp only [Exec.runOps] at h
      split at h
      · cases h
      · rename_i w hw
        intro k
        rw [assignVar_balance (m := m.newNode _) (henv hw) rfl h, hnext, balance_newNode,
          storageNode_balance, storageVar_owns]
        ring
    | deferred x canThrow =>
      simp only [Exec.runOps] at h
      split at h
      · cases h
      · rename_i w hw
        intro k
        rw [assignVar_balance (m := m.newNode _) (henv hw) rfl h, hnext, balance_newNode,
          deferredNode_balance, storageVar_owns]
        ring
    | run dst args canThrow kind code =>
      cases h
      intro k
      rw [balance_newVar, balance_newNode, taskNode_balance]
      simp only [varBalance, Var.owns, Mem.vars_newNode, Instr.tokens, Frame.tokens, stackSum_cons,
        stackSum_nil, threadSum_nil, ite_self]
      push_cast
      ring
    | move dst src =>
      simp only [Exec.runOps] at h
      split at h
      · rename_i d s hd hs
        split at h
        · cases h
        · rename_i hown
          have hborrowed : (m.var s).borrowed = false := by
            simp only [not_or] at hown
            simpa using hown.1
          intro k
          have hsrc : balance (m.setVar s { m.var s with currentTask := none }) k =
              balance m k - (m.var s).owns k := by
            rw [balance_setVar m k (henv hs), varBalance_moved, varBalance_own hborrowed]
            ring
          split at h
          · cases h
          · rw [assignVar_balance (m := m.setVar s _) (henv hd) hborrowed h k, hsrc, hnext]
            ring
      · cases h
    | destroy x =>
      simp only [Exec.runOps] at h
      split at h
      · cases h
      · rename_i w hw
        intro k
        have hborrowed : (m.var w).borrowed = false := by
          unfold Exec.assignVar at h
          simp only at h
          split at h
          · cases h
          · rename_i hown
            simp only [not_or] at hown
            simpa using hown.1
        rw [assignVar_balance (r := { m.var w with currentTask := none }) (henv hw) hborrowed h,
          hnext]
        simp [Var.owns]
    | cancel x =>
      simp only [Exec.runOps] at h
      split at h
      · cases h
      · rename_i v hv
        split at h
        · cases h
          intro k
          rw [hnext, threadSum_nil]
          ring
        · rename_i n hn
          split at h
          · cases h
            intro k
            rw [hnext, threadSum_nil]
            ring
          · cases h
            intro k
            have hlt := ((hok.var v (henv hv)).slot n hn).1
            rw [balance_setNode m k hlt, stackSum_cons, hnext]
            simp only [nodeBalance, Instr.tokens, threadSum_nil]
            ring
    | wait x =>
      simp only [Exec.runOps] at h
      split at h
      · cases h
      · split at h
        · cases h
        · cases h
          intro k
          simp [Instr.tokens]
    | get x =>
      simp only [Exec.runOps] at h
      split at h
      · cases h
      · split at h
        · cases h
        · cases h
          intro k
          simp [Instr.tokens]
    | toNode dst src => exact htame.elim
    | moveNode dst src => exact htame.elim
    | fork xs locals ops' =>
      simp only [Exec.runOps] at h
      cases h
      intro k
      have hshared : ∀ v ∈ xs.filterMap fun x => env[x]?, v < m.vars.size := by
        intro v hv
        obtain ⟨x, -, hx⟩ := List.mem_filterMap.mp hv
        exact henv hx
      rw [balance_newVars, borrowVars_balance hshared, borrowVars_size, hnext]
      have hrange : ∀ s a b : ℕ, varTokens (List.range' s (a + b)) k =
          varTokens (List.range' s a) k + varTokens (List.range' (s + a) b) k := by
        intro s a b
        rw [← varTokens_append, List.range'_append_1]
      simp only [threadSum_cons, threadSum_nil, stackSum_cons, stackSum_nil, hrange, Instr.tokens,
        After.tokens]
      ring

theorem waitHead_moves {n : ℕ} (h : Exec.waitHead m n = .next m' push spawned) :
    Moves m (.waitHead n) m' push spawned := by
  cases h
  intro k
  split <;> simp [Instr.tokens]

theorem waitBlock_moves {n : ℕ} (h : Exec.waitBlock m n = .next m' push spawned) :
    Moves m (.waitBlock n) m' push spawned := by
  unfold Exec.waitBlock at h
  split at h <;> cases h
  intro k
  simp [Instr.tokens]

theorem waitDone_moves {n : ℕ} (h : Exec.waitDone m n = .next m' push spawned) :
    Moves m (.waitDone n) m' push spawned := by
  unfold Exec.waitDone at h
  split at h <;> cases h
  intro k
  simp [Instr.tokens]

theorem waitRead_moves {v : ℕ} (h : Exec.waitRead m v = .next m' push spawned) :
    Moves m (.waitRead v) m' push spawned := by
  unfold Exec.waitRead at h
  split at h <;> cases h
  intro k
  simp [Instr.tokens]

end Oox
