import Oox.Conservation.Slots

/-!
# Completing a task conserves tokens

`notify_successors` with its loops, `remove_prerequisite` and `publish_failure_from`.
-/

set_option autoImplicit false

namespace Oox

open Library

variable {V : Type} {m m' : Mem V} {push : List (Instr V)}
variable {spawned : List (List (Instr V))}

/-! ## The counters of a completing task -/

theorem counters_hand {t i p : ℕ} {count : List ℤ} (hi : i ≤ p) (hp : p < count.length) :
    counters t i count (.hand t p) = 1 := by
  unfold counters
  rw [Finset.sum_eq_single p]
  · simp [one]
  · intro q _ hne
    simp [one, hne.symm]
  · intro hno
    exact absurd (Finset.mem_Ico.mpr ⟨hi, hp⟩) hno

theorem counters_back {t i p : ℕ} {count : List ℤ} (hi : i ≤ p) (hp : p < count.length) :
    counters t i count (.back t p) = count.getD p 0 - 1 := by
  unfold counters
  rw [Finset.sum_eq_single p]
  · simp [one]
  · intro q _ hne
    simp [one, hne.symm]
  · intro hno
    exact absurd (Finset.mem_Ico.mpr ⟨hi, hp⟩) hno

theorem counters_eq_zero {t i : ℕ} {count : List ℤ} {k : Token} (hback : ∀ p, k ≠ .back t p)
    (hhand : ∀ p, k ≠ .hand t p) : counters t i count k = 0 := by
  unfold counters
  apply Finset.sum_eq_zero
  intro p _
  rw [one_of_ne (hback p), one_of_ne (hhand p)]
  ring

theorem counters_nonneg {t i : ℕ} {count : List ℤ}
    (hpos : ∀ p, i ≤ p → p < count.length → 1 ≤ count.getD p 0) (k : Token) :
    0 ≤ counters t i count k := by
  unfold counters
  apply Finset.sum_nonneg
  intro p hp
  obtain ⟨hi, hlt⟩ := Finset.mem_Ico.mp hp
  have hcount := hpos p hi hlt
  exact add_nonneg (one_nonneg _ _) (mul_nonneg (by omega) (one_nonneg _ _))

theorem counted_le_readers (m : Mem V) (q p : ℕ) : counted m q p ≤ readers m q p := by
  unfold counted readers Heap.sum
  apply Finset.sum_le_sum
  intro a _
  by_cases hreads : (m.arcs.cell a).reads.map Prod.snd = some (q, p)
  · simp only [hreads, true_and, if_true]
    split <;> decide
  · simp [hreads]

/-- A counter never gets down to the reserve of its producer. -/
theorem CountersOk.two_le {t i : ℕ} {count : List ℤ} (hcount : CountersOk m t i count)
    (hbound : Bounded m) {p : ℕ} (hi : i ≤ p) (hp : p < count.length) :
    2 < count.getD p 0 := by
  have hbias := hcount p hi hp
  have hle := counted_le_readers m t p
  have hreaders := hbound t p
  omega

/-! ## notify_successors -/

/-- What the instructions of a completing task hold before its list is closed. -/
def completing (t : ℕ) (count : List ℤ) (k : Token) : ℤ :=
  running t count.length k + counters t 0 count k

theorem completing_exec {t : ℕ} {count : List ℤ} : completing t count (.exec t) = 1 := by
  simp [completing, running, one, arms, counters_eq_zero]

theorem completing_arm {t p : ℕ} {count : List ℤ} (hp : count.length ≤ p) :
    completing t count (.arm t p) = 1 := by
  simp [completing, running, one, arms, counters_eq_zero, hp]

theorem completing_hand {t p : ℕ} {count : List ℤ} (hp : p < count.length) :
    completing t count (.hand t p) = 1 := by
  simp [completing, running, one, arms, counters_hand (Nat.zero_le p) hp]

theorem storeCountdown_moves {t : ℕ} {canThrow : Bool} {count : List ℤ} (hok : MemOk m)
    (hcov : Covered m (.storeCountdown t canThrow count))
    (h : Exec.storeCountdown m t canThrow count = .next m' push spawned) :
    Moves m (.storeCountdown t canThrow count) m' push spawned := by
  unfold Exec.storeCountdown OutputNode.arm at h
  simp only at h
  split at h
  · rename_i hlt
    have harm := hcov (.arm t count.length)
    rw [show (Instr.storeCountdown t canThrow count : Instr V).tokens (.arm t count.length) = 1
      from completing_arm le_rfl] at harm
    obtain ⟨ht, harmed, hphase, -⟩ := owed_arm (n := t) (p := count.length) (m := m) (by omega)
    have hslot := (hok.node t ht).slot count.length
    have hhanded : ((m.node t).out count.length).handed = false := by
      by_contra hne
      rw [(hslot.handed (by simpa using hne)).1] at harmed
      cases harmed
    have hnotified : ((m.node t).out count.length).notified = 0 := by
      by_contra hne
      rw [(hslot.notified hne).2.1] at hhanded
      cases hhanded
    cases h
    intro k
    rw [balance_setOut m k ht hlt]
    simp only [slotBalance, slotArm, harmed, hhanded, hnotified, Instr.tokens,
      counters_append, List.length_append, List.length_singleton, running, stackSum_cons,
      stackSum_nil, threadSum_nil, arms_succ t count.length k]
    simp [countdownBias, hphase]
    ring
  · cases h
    intro k
    cases canThrow <;> simp [Instr.tokens]

theorem loadException_moves {t : ℕ} {count : List ℤ}
    (h : Exec.loadException m t count = .next m' push spawned) :
    Moves m (.loadException t count) m' push spawned := by
  unfold Exec.loadException at h
  cases h
  intro k
  split <;> simp [Instr.tokens]

theorem findTerminal_moves {t : ℕ} {count : List ℤ}
    (h : Exec.findTerminal m t count = .next m' push spawned) :
    Moves m (.findTerminal t count) m' push spawned := by
  unfold Exec.findTerminal at h
  split at h <;> cases h <;> intro k <;> simp [Instr.tokens]

/-- A new arc that retains a payload. -/
theorem balance_retain {n c : ℕ} (hok : MemOk m) (halive : (m.control c).alive = true)
    (k : Token) :
    balance ((m.setControl c { m.control c with refCount := (m.control c).refCount + 1 }).newArc
      (Exec.payloadArc n c)) k = balance m k - one (.payload m.arcs.size n) k := by
  rw [balance_newArc, balance_setControl m k (hok.control_lt c halive)]
  simp [controlBalance, halive, arcBalance, Exec.payloadArc, Arc.carries, Arc.token]
  ring

theorem retainTerminal_moves {t c : ℕ} {count : List ℤ} (hok : MemOk m)
    (h : Exec.retainTerminal m t c count = .next m' push spawned) :
    Moves m (.retainTerminal t c count) m' push spawned := by
  unfold Exec.retainTerminal at h
  simp only at h
  split at h
  · rename_i halive
    cases h
    intro k
    rw [balance_retain hok halive]
    simp only [Instr.tokens, stackSum_cons, stackSum_nil, threadSum_nil]
    ring
  · cases h

/-- Before its list is closed, a task's unarmed slots are those the completing thread has not
reached. -/
theorem armSupply_completing {t : ℕ} {count : List ℤ}
    (hcov : ∀ k, completing t count k ≤ -balance m k) (k : Token) :
    armSupply t (m.node t).phase (m.node t).out k = arms t count.length k := by
  have hphase : (m.node t).phase = .running := by
    have hexec := hcov (.exec t)
    rw [completing_exec] at hexec
    exact (owed_exec (by omega)).2.1
  cases k with
  | arm n p =>
    unfold armSupply arms
    by_cases hn : n = t
    · subst hn
      rcases Nat.lt_or_ge p count.length with hp | hp
      · have hhand := hcov (.hand n p)
        rw [completing_hand hp] at hhand
        obtain ⟨-, -, harmed, -⟩ := owed_hand (n := n) (p := p) (m := m) (by omega)
        simp [harmed, hp]
      · have harm := hcov (.arm n p)
        rw [completing_arm hp] at harm
        obtain ⟨-, harmed, -⟩ := owed_arm (n := n) (p := p) (m := m) (by omega)
        simp [harmed, hp, hphase]
    · simp [hn]
  | _ => rfl

/-- Closing the list hands its arcs to the completing thread and ends the right to run. -/
theorem balance_close {t : ℕ} {l : List ℕ} {x : Node V} (ht : t < m.nodes.size)
    (hx : m.node t = x) (hlive : x.status = .live) (hphase : x.phase = .running)
    (hhead : x.head = .list l) (head : Head) (c : ℕ) (k : Token) :
    balance (m.setNode t { x with head := head, phase := .finished, closes := c }) k =
      balance m k + one (.exec t) k + armSupply t x.phase x.out k + head.tokens t k -
        listedTokens t l k := by
  rw [balance_setNode m k ht, hx]
  have harm : armSupply t .finished x.out k = 0 := by
    cases k <;> simp [armSupply]
  simp only [nodeBalance, hphase, hlive, hhead, Phase.pending, Phase.rights, Phase.prerequisites,
    lifeSupply, harm, reduceCtorEq, if_true, if_false, Head.tokens]
  ring

theorem closeList_moves {t : ℕ} {canThrow : Bool} {terminal : Option ℕ} {count : List ℤ}
    (hok : MemOk m) (hlive : (m.node t).status = .live)
    (hcov : Covered m (.closeList t canThrow terminal count))
    (h : Exec.closeList m t canThrow terminal count = .next m' push spawned) :
    Moves m (.closeList t canThrow terminal count) m' push spawned := by
  have ht := hok.lt_of_live hlive
  have htokens : ∀ k, (Instr.closeList t canThrow terminal count : Instr V).tokens k =
      completing t count k + (Exec.closedHead terminal).tokens t k := by
    intro k
    cases terminal <;> rfl
  have hcov' : ∀ k, completing t count k ≤ -balance m k := by
    intro k
    have hk := hcov k
    have hhead := (Exec.closedHead terminal).tokens_nonneg t k
    rw [htokens] at hk
    omega
  have hphase : (m.node t).phase = .running := by
    have hexec := hcov' (.exec t)
    rw [completing_exec] at hexec
    exact (owed_exec (by omega)).2.1
  unfold Exec.closeList at h
  simp only at h
  split at h
  · rename_i hhead
    cases h
    intro k
    rw [balance_close ht rfl hlive hphase hhead, armSupply_completing hcov', htokens]
    simp [Instr.tokens, completing, running]
    ring
  · rename_i a r hhead
    cases h
    intro k
    rw [balance_close ht rfl hlive hphase hhead, armSupply_completing hcov', htokens]
    cases canThrow <;> simp [Instr.tokens, completing, running] <;> ring
  · cases h

theorem loadFailureFlag_moves {t : ℕ} {r : List ℕ} {count : List ℤ}
    (h : Exec.loadFailureFlag m t r count = .next m' push spawned) :
    Moves m (.loadFailureFlag t r count) m' push spawned := by
  unfold Exec.loadFailureFlag at h
  cases h
  intro k
  simp [Instr.tokens]

/-! ## do_notify_arcs -/

/-- An arc taken from the list of `t` is alive, and it was accepted once more than it was
processed. -/
theorem arc_of_listed {t a : ℕ} (hok : MemOk m) (h : 0 < -balance m (.listed a t)) :
    a < m.arcs.size ∧ (m.arc a).alive = true ∧ (m.arc a).accepted = (m.arc a).handled + 1 ∧
      (m.arc a).site = t ∧ Token.listed a t = (m.arc a).token a ∧
      ((m.arc a).role = .waiting ∨ (m.arc a).role = .charged ∨ (m.arc a).role = .payload) := by
  obtain ⟨ha, halive, htoken⟩ := owed_arc (k := .listed a t) rfl h
  obtain ⟨hne, hsite⟩ := Arc.token_listed htoken
  have haccepted := (hok.arc a ha).accepted
  rcases haccepted with heq | ⟨heq, hrole⟩
  · exact absurd heq hne
  · exact ⟨ha, halive, heq, hsite, htoken, hrole⟩

/-- An arc that was processed and is about to be deleted. -/
theorem Arc.arcBalance_spent {x : Arc} {a t : ℕ} (halive : x.alive = true)
    (haccepted : x.accepted = x.handled + 1) (htoken : Token.listed a t = x.token a) (k : Token) :
    arcBalance a { x with role := .spent, handled := x.handled + 1 } k =
      arcBalance a x k - x.carries k + one (.listed a t) k - one (.spent a) k := by
  rw [arcBalance_alive halive, ← htoken,
    arcBalance_alive (x := { x with role := .spent, handled := x.handled + 1 }) halive]
  have hspent : Token.spent a = Arc.token a { x with role := .spent, handled := x.handled + 1 } := by
    simp [Arc.token, haccepted]
  rw [← hspent]
  simp only [Arc.carries]
  ring

/-- A successor arc that becomes a back arc of the completing task. -/
theorem Arc.arcBalance_charge {x : Arc} {a t : ℕ} (halive : x.alive = true)
    (haccepted : x.accepted = x.handled + 1) (htoken : Token.listed a t = x.token a)
    (hkind : x.kind = .flowBack) (k : Token) :
    arcBalance a { x with
        node := t, kind := .backOnly, role := .charged, site := x.node,
        handled := x.handled + 1 } k =
      arcBalance a x k - x.carries k + one (.listed a t) k + one (.back t x.port) k -
        one (.arc a x.node) k := by
  rw [arcBalance_alive halive, ← htoken, arcBalance_alive (x := { x with
      node := t, kind := .backOnly, role := .charged, site := x.node,
      handled := x.handled + 1 }) halive]
  have hcharged : Token.arc a x.node = Arc.token a { x with
      node := t, kind := .backOnly, role := .charged, site := x.node,
      handled := x.handled + 1 } := by
    simp [Arc.token, haccepted]
  rw [← hcharged]
  simp only [Arc.carries, hkind, reduceCtorEq, if_false]
  ring

theorem publish_tokens (failed : Bool) (n t p : ℕ) (k : Token) :
    stackSum Instr.tokens (if failed then [.publish n t p] else [] : List (Instr V)) k = 0 := by
  cases failed <;> simp [Instr.tokens]

theorem notifyArcs_moves {t : ℕ} {canThrow failed : Bool} {r : List ℕ} {count : List ℤ}
    (hok : MemOk m) (hins : (Instr.notifyArcs t canThrow failed r count : Instr V).Ok m)
    (hpos : ∀ k, 0 ≤ counters t 0 count k)
    (hcov : Covered m (.notifyArcs t canThrow failed r count))
    (h : Exec.notifyArcs m t canThrow failed r count = .next m' push spawned) :
    Moves m (.notifyArcs t canThrow failed r count) m' push spawned := by
  cases r with
  | nil =>
    cases h
    intro k
    simp [Instr.tokens]
  | cons a r =>
    have hlisted := hcov (.listed a t)
    have hcounters := hpos (.listed a t)
    have hrest := listedTokens_nonneg t r (.listed a t)
    simp only [Instr.tokens, listedTokens_cons, one_self] at hlisted
    obtain ⟨ha, halive, haccepted, hsite, htoken, hrole⟩ :=
      arc_of_listed (m := m) (a := a) (t := t) hok (by omega)
    have harc := hok.arc a ha
    have hspent := Arc.arcBalance_spent halive haccepted htoken
    have hallows := harc.kind
    unfold Exec.notifyArcs at h
    simp only at h
    split at h
    · rename_i hkind
      split at h
      · cases h
        rw [hkind] at hallows
        have hpayload : (m.arc a).role = .payload := by
          rcases hallows with hp | hs
          · exact hp
          · simp [hs] at hrole
        intro k
        rw [balance_setArc m k ha, hspent,
          Arc.carries_eq_zero (by simp [hpayload]) (by simp [hpayload])]
        simp [Instr.tokens]
        ring
      · cases h
    · rename_i hkind
      cases h
      rw [hkind] at hallows
      have hcharged : (m.arc a).role = .charged := by
        rcases hallows with hc | hs
        · exact hc
        · simp [hs] at hrole
      intro k
      rw [balance_setArc m k ha, hspent]
      simp [Instr.tokens, Arc.carries, hcharged]
      ring
    · rename_i hkind
      rw [hkind] at hallows
      have hwaiting : (m.arc a).role = .waiting := by
        rcases hallows with hw | hs
        · exact hw
        · simp [hs] at hrole
      split at h
      · cases h
        intro k
        rw [balance_setArc m k ha, hspent, stackSum_append, publish_tokens]
        simp [Instr.tokens, Arc.carries, hwaiting]
        ring
      · cases h
        have hport : (m.arc a).port < count.length := by
          have hrange := (harc.reads _ _ _ (harc.flowBack hkind hwaiting)).2.2
          rw [hsite] at hrange
          rw [hins.1]
          exact hrange
        intro k
        rw [balance_setArc m k ha, Arc.arcBalance_charge halive haccepted htoken hkind,
          stackSum_append, stackSum_append, publish_tokens]
        simp [Instr.tokens, AddSite.tokens, Arc.carries, hwaiting,
          counters_modify t (Nat.zero_le _) hport]
        ring
    · rename_i hkind
      cases h
      rw [hkind] at hallows
      have hwaiting : (m.arc a).role = .waiting := by
        rcases hallows with hw | ho | hd | hs
        · exact hw
        · simp [ho] at hrole
        · simp [hd] at hrole
        · simp [hs] at hrole
      intro k
      rw [balance_setArc m k ha, hspent, stackSum_append, publish_tokens]
      simp [Instr.tokens, Arc.carries, hwaiting]
      ring
    · cases h
    · cases h

/-! ## do_notify_out -/

theorem outLoad_moves {t i refs : ℕ} {count : List ℤ}
    (hins : (Instr.outLoad t i count refs : Instr V).Ok m)
    (h : Exec.outLoad m t i count refs = .next m' push spawned) :
    Moves m (.outLoad t i count refs) m' push spawned := by
  unfold Exec.outLoad at h
  split at h
  · split at h <;> cases h <;> intro k <;> simp [Instr.tokens]
  · rename_i hge
    cases h
    intro k
    have hlen := hins.1
    simp [Instr.tokens, counters_of_le t (show count.length ≤ i by omega)]

theorem outCas_moves {t i refs : ℕ} {count : List ℤ} (hok : MemOk m)
    (hins : (Instr.outCas t i count refs : Instr V).Ok m) (hlive : (m.node t).status = .live)
    (h : Exec.outCas m t i count refs = .next m' push spawned) :
    Moves m (.outCas t i count refs) m' push spawned := by
  have ht := hok.lt_of_live hlive
  obtain ⟨hlen, -, -, hi⟩ := hins
  rw [Exec.outCas_eq] at h
  simp only at h
  split at h
  · rename_i hnull
    have hnotified : ((m.node t).out i).notified = 0 := by
      by_contra hne
      exact (((hok.node t ht).slot i).notified hne).2.2.2.1 hnull
    cases h
    intro k
    rw [balance_setOut m k ht (by omega)]
    simp [slotBalance, slotArm, hnull, hnotified, Instr.tokens, NextWriter.tokens,
      counters_modify t (le_refl i) hi]
    ring
  · cases h
    intro k
    simp [Instr.tokens]

theorem outSub_moves {t i refs : ℕ} {count : List ℤ} (hok : MemOk m) (hbound : Bounded m)
    (hins : (Instr.outSub t i count refs : Instr V).Ok m)
    (hcov : Covered m (.outSub t i count refs))
    (h : Exec.outSub m t i count refs = .next m' push spawned) :
    Moves m (.outSub t i count refs) m' push spawned := by
  obtain ⟨hlen, -, -, hi, hbias, -⟩ := hins
  have hhand := hcov (.hand t i)
  simp only [Instr.tokens, counters_hand le_rfl hi, one, reduceCtorEq, if_false, mul_zero]
    at hhand
  obtain ⟨ht, hp, harmed, hhanded, -⟩ := owed_hand (n := t) (p := i) (m := m) (by omega)
  have hnotified : ((m.node t).out i).notified = 0 := by
    by_contra hne
    rw [(((hok.node t ht).slot i).notified hne).2.1] at hhanded
    cases hhanded
  -- the countdown still has the units of this call
  have hback := hcov (.back t i)
  simp only [Instr.tokens, counters_back le_rfl hi, one, reduceCtorEq, if_false, mul_zero]
    at hback
  have hle := back_le ht hp harmed
  rw [hhanded] at hle
  have hreaders := hbound t i
  have hcounted := counted_le_readers m t i
  have hcountdown : ((m.node t).out i).countdown ≠ 0 := by
    simp only [Bool.false_eq_true, if_false] at hle
    omega
  rw [Exec.outSub_eq] at h
  simp only at h
  split at h
  · cases h
  · cases h
    intro k
    rw [balance_setOut m k ht hp]
    simp only [Instr.tokens, counters_succ t hi]
    generalize count.getD i 0 = c at *
    by_cases hzero : ((m.node t).out i).countdown - c = 0
    · have heq : ((m.node t).out i).countdown = c := by omega
      rw [heq] at hcountdown
      simp [slotBalance, slotArm, harmed, hhanded, hnotified, heq, hcountdown, Instr.tokens]
      ring
    · simp [slotBalance, slotArm, harmed, hhanded, hnotified, hcountdown, hzero, Instr.tokens]
      ring

theorem outNotify_moves {t i refs : ℕ} {count : List ℤ}
    (hpos : ∀ k, 0 ≤ counters t (i + 1) count k) (hcov : Covered m (.outNotify t i count refs))
    (h : Exec.outNotify m t i count refs = .next m' push spawned) :
    Moves m (.outNotify t i count refs) m' push spawned := by
  have hfire := hcov (.fire t i)
  have hcounters := hpos (.fire t i)
  simp only [Instr.tokens, one_self, one_of_ne (t := .life t) (k := .fire t i) (by simp), mul_zero]
    at hfire
  obtain ⟨ht, hp, harmed, hzero, hnotified, -⟩ := owed_fire (n := t) (p := i) (m := m) (by omega)
  unfold Exec.outNotify at h
  simp only at h
  split at h
  · cases h
  · rename_i calls c hcalls
    cases h
    intro k
    have htokens := notifyCalls_tokens hcalls k
    rw [balance_notify ht hp harmed hzero hnotified ((set_of_notifyCalls hcalls).2)]
    simp only [stackSum_append, stackSum_cons, stackSum_nil, threadSum_nil, Instr.tokens]
    push_cast
    linarith

theorem wakeup_moves {t refs : ℕ} (hok : MemOk m) (hlive : (m.node t).status = .live)
    (h : Exec.wakeup m t refs = .next m' push spawned) :
    Moves m (.wakeup t refs) m' push spawned := by
  cases h
  intro k
  rw [balance_setNode m k (hok.lt_of_live hlive)]
  simp only [nodeBalance, Instr.tokens, stackSum_cons, stackSum_nil, threadSum_nil]
  ring

/-! ## remove_prerequisite and publish_failure_from -/

theorem removePrerequisite_moves {n c : ℕ} (hins : (Instr.removePrerequisite n c : Instr V).Ok m)
    (hcov : Covered m (.removePrerequisite n c))
    (h : Exec.removePrerequisite m n c = .next m' push spawned) :
    Moves m (.removePrerequisite n c) m' push spawned := by
  have hc : 0 < c := hins
  have hpre := hcov (.pre n)
  simp only [Instr.tokens, one_self, mul_one] at hpre
  obtain ⟨hn, hle⟩ := owed_pre (by omega) hpre
  rw [Exec.removePrerequisite_eq] at h
  simp only at h
  split at h
  · cases h
  · rename_i hge
    have harm : ∀ k, armSupply n .running (m.node n).out k =
        armSupply n (m.node n).phase (m.node n).out k := by
      intro k
      cases hphase : (m.node n).phase <;> cases k <;> simp [armSupply]
      rw [hphase] at hle
      simp only [Phase.prerequisites] at hle
      omega
    split at h
    · rename_i heq
      have hskip : ∀ skip : Bool, ∀ k : Token, stackSum Instr.tokens
          (if skip then [.storeCountdown n true [], .release n 1] else [.spawn n] :
            List (Instr V)) k = one (.life n) k + one (.exec n) k + arms n 0 k := by
        intro skip k
        cases skip <;> simp [Instr.tokens, running, counters_of_le] <;> ring
      cases h
      intro k
      rw [balance_setNode m k hn, hskip]
      cases hphase : (m.node n).phase <;> rw [hphase] at hle <;>
        simp only [Phase.prerequisites, heq] at hle <;> try omega
      · simp only [nodeBalance, hphase, heq, harm, Phase.pending, Phase.rights,
          Phase.prerequisites, lifeSupply, reduceCtorEq, if_false, Instr.tokens, threadSum_nil]
        ring
      · simp only [nodeBalance, hphase, heq, harm, Phase.pending, Phase.rights,
          Phase.prerequisites, lifeSupply, reduceCtorEq, if_false, Instr.tokens, threadSum_nil]
        ring
    · cases h
      intro k
      rw [balance_setNode m k hn]
      have hcast : (((m.node n).startCount.count - c : ℕ) : ℤ) =
          (m.node n).startCount.count - c := by omega
      cases hphase : (m.node n).phase <;> rw [hphase] at hle <;>
        simp only [Phase.prerequisites] at hle <;> (try omega) <;>
        simp only [nodeBalance, hphase, Phase.prerequisites, hcast, Instr.tokens, stackSum_nil,
          threadSum_nil] <;> ring

theorem spawn_moves {n : ℕ} (h : Exec.spawn m n = .next m' push spawned) :
    Moves m (.spawn n) m' push spawned := by
  cases h
  intro k
  simp [Instr.tokens]
  ring

theorem publish_moves {n source p : ℕ} (h : Exec.publish m n source p = .next m' push spawned) :
    Moves m (.publish n source p) m' push spawned := by
  rw [Exec.publish_eq] at h
  simp only at h
  split at h
  · cases h
    intro k
    simp [Instr.tokens]
  · split at h
    · cases h
      intro k
      simp [Instr.tokens]
    · split at h
      · cases h
        intro k
        simp [Instr.tokens]
      · split at h <;> cases h <;> intro k <;> simp [Instr.tokens]

theorem publishControl_moves {n source : ℕ}
    (h : Exec.publishControl m n source = .next m' push spawned) :
    Moves m (.publishControl n source) m' push spawned := by
  unfold Exec.publishControl at h
  split at h <;> cases h <;> intro k <;> simp [Instr.tokens]

theorem retainSignal_moves {n c : ℕ} (hok : MemOk m)
    (h : Exec.retainSignal m n c = .next m' push spawned) :
    Moves m (.retainSignal n c) m' push spawned := by
  unfold Exec.retainSignal at h
  simp only at h
  split at h
  · rename_i halive
    cases h
    intro k
    rw [balance_retain hok halive]
    simp [Instr.tokens, AddSite.tokens]
  · cases h

theorem mark_moves {n : ℕ} {b : FailureBit} (h : Exec.mark m n b = .next m' push spawned) :
    Moves m (.mark n b) m' push spawned := by
  cases h
  intro k
  split <;> simp [Instr.tokens]

theorem markLoad_moves {n : ℕ} {b : FailureBit}
    (h : Exec.markLoad m n b = .next m' push spawned) : Moves m (.markLoad n b) m' push spawned := by
  cases h
  intro k
  simp [Instr.tokens]

theorem markCheck_moves {n : ℕ} {b : FailureBit} {word : StartCount}
    (h : Exec.markCheck m n b word = .next m' push spawned) :
    Moves m (.markCheck n b word) m' push spawned := by
  cases h
  intro k
  split <;> simp [Instr.tokens]

theorem markCas_moves {n : ℕ} {b : FailureBit} {word : StartCount} {spurious : Bool}
    (hok : MemOk m) (hlive : (m.node n).status = .live)
    (h : Exec.markCas m spurious n b word = .next m' push spawned) :
    Moves m (.markCas n b word) m' push spawned := by
  unfold Exec.markCas at h
  simp only at h
  split at h
  · rename_i hcond
    cases h
    intro k
    rw [balance_setNode m k (hok.lt_of_live hlive)]
    simp only [nodeBalance, ← hcond.1, StartCount.mark_count, Instr.tokens, stackSum_nil,
      threadSum_nil]
    ring
  · cases h
    intro k
    simp [Instr.tokens]

end Oox
