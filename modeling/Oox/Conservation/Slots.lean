import Oox.Conservation.Release

/-!
# Lists and output slots conserve tokens

`add_arc`, the countdown of a slot and its next writer.
-/

set_option autoImplicit false

namespace Oox

open Library

variable {V : Type} {m m' : Mem V} {push : List (Instr V)}
variable {spawned : List (List (Instr V))}

/-! ## arc_list::add_arc -/

theorem Arc.arcBalance_accept {x : Arc} {a n : ℕ} (halive : x.alive = true)
    (heq : x.accepted = x.handled) (hsite : x.site = n) (k : Token) :
    arcBalance a { x with accepted := x.accepted + 1 } k =
      arcBalance a x k + one (x.token a) k - one (.listed a n) k := by
  have htoken : Token.listed a n = Arc.token a { x with accepted := x.accepted + 1 } := by
    simp [Arc.token, heq, hsite]
  rw [arcBalance_alive halive, arcBalance_alive (x := { x with accepted := x.accepted + 1 }) halive,
    ← htoken]
  simp only [Arc.carries]
  ring

/-- Pushing an arc on an open list. -/
theorem balance_pushArc {n a : ℕ} {seen : List ℕ} (hn : n < m.nodes.size)
    (hlive : (m.node n).status = .live) (hhead : (m.node n).head = .list seen) (k : Token) :
    balance (m.setNode n { m.node n with head := .list (a :: seen) }) k =
      balance m k + one (.listed a n) k := by
  rw [balance_setNode m k hn]
  simp only [nodeBalance, hhead, hlive, Head.tokens, listedTokens_cons, reduceCtorEq, if_false]
  ring

/-- The task that offers an arc is suspended when the arc is accepted. -/
theorem balance_suspend {t : ℕ} {x : Node V} (ht : t < m.nodes.size) (hx : m.node t = x)
    (hphase : x.phase = .forwarding) (hcount : x.startCount.count = 1) (k : Token) :
    balance (m.setNode t { x with phase := .suspended }) k =
      balance m k + one (.life t) k + one (.forward t) k + arms t 0 k - one (.pre t) k := by
  rw [balance_setNode m k ht, hx]
  have harm : armSupply t .suspended x.out k = armSupply t .forwarding x.out k := by
    cases k <;> simp [armSupply]
  simp only [nodeBalance, hphase, hcount, Phase.pending, Phase.rights, Phase.prerequisites,
    lifeSupply, harm, reduceCtorEq, if_false]
  push_cast
  ring

/-- The task that offers an arc goes on when the arc is rejected. -/
theorem balance_resume {t : ℕ} (ht : t < m.nodes.size)
    (hphase : (m.node t).phase = .forwarding) (k : Token) :
    balance (m.setNode t { m.node t with phase := .running }) k =
      balance m k + one (.forward t) k - one (.exec t) k := by
  rw [balance_setNode m k ht]
  have harm : armSupply t .running (m.node t).out k = armSupply t .forwarding (m.node t).out k := by
    cases k <;> simp [armSupply]
  simp only [nodeBalance, hphase, Phase.pending, Phase.rights, Phase.prerequisites,
    lifeSupply, harm, reduceCtorEq, if_false]
  ring

/-- The token of the arc a call of `add_arc` is about. -/
def AddSite.arcToken (n a : ℕ) : AddSite V → Token
  | .thrown => .payload a n
  | .signal => .payload a n
  | .forward _ => .offer a n
  | _ => .arc a n

theorem Frame.tokens_eq_zero (f : Frame V) (c : ℕ) {k : Token} {a : ℕ} (hk : k.arc? = some a) :
    f.tokens c k = 0 := by
  have hvar : k.var? = none := by cases k <;> simp_all [Token.arc?, Token.var?]
  have hafter : f.after.tokens k = 0 := by
    cases f.after with
    | exit => rfl
    | body t vals cells => cases k <;> simp_all [After.tokens, running, one, arms, Token.arc?]
  have hcaps : ∀ q ∈ Finset.Ico f.port (f.port + (f.args.filter Arg.isWriter).length),
      one (.cap f.task q) k = 0 := fun q _ => one_of_ne (by rintro rfl; cases hk)
  unfold Frame.tokens
  rw [hafter, varTokens_eq_zero hvar, Finset.sum_eq_zero hcaps]
  cases k <;> simp_all [one, Token.arc?]

theorem AddSite.tokens_arc (n a : ℕ) (site : AddSite V) :
    (site.tokens n a) (site.arcToken n a) = 1 := by
  cases site <;>
    simp [AddSite.tokens, AddSite.arcToken, one, arms, Frame.tokens_eq_zero, Token.arc?]

/-- The arc of a call of `add_arc` is alive, is in no list, and is meant for that list. -/
theorem arc_of_site {n a : ℕ} {site : AddSite V} (hcov : Covered m (.addArc n a site)) :
    a < m.arcs.size ∧ (m.arc a).alive = true ∧ (m.arc a).accepted = (m.arc a).handled ∧
      (m.arc a).site = n ∧ site.arcToken n a = (m.arc a).token a := by
  have howed := hcov (site.arcToken n a)
  rw [show (Instr.addArc n a site).tokens (site.arcToken n a) = 1 from site.tokens_arc n a]
    at howed
  obtain ⟨ha, halive, htoken⟩ := owed_arc (m := m) (a := a) (k := site.arcToken n a)
    (by cases site <;> rfl) (by omega)
  have hplace : (m.arc a).accepted = (m.arc a).handled ∧ (m.arc a).site = n := by
    cases site with
    | thrown => exact ⟨(Arc.token_payload htoken).1, (Arc.token_payload htoken).2.2⟩
    | signal => exact ⟨(Arc.token_payload htoken).1, (Arc.token_payload htoken).2.2⟩
    | forward t => exact ⟨(Arc.token_offer htoken).1, (Arc.token_offer htoken).2.2⟩
    | _ => exact ⟨(Arc.token_arc htoken).1, (Arc.token_arc htoken).2.2⟩
  exact ⟨ha, halive, hplace.1, hplace.2, htoken⟩

/-- The task that offers an arc is not told yet whether it goes on. -/
theorem forwarding_of_site {n a t : ℕ}
    (hcov : Covered m (.addArc n a (.forward t : AddSite V))) :
    t < m.nodes.size ∧ (m.node t).phase = .forwarding := by
  have hforward := hcov (.forward t)
  simp only [Instr.tokens, AddSite.tokens, one, arms, reduceCtorEq, if_true, if_false] at hforward
  obtain ⟨ht, hphase, -⟩ := owed_forward (n := t) (m := m) (by omega)
  exact ⟨ht, hphase⟩

theorem rejected_moves {n a : ℕ} {site : AddSite V} (hcov : Covered m (.addArc n a site))
    (h : Exec.rejected m n a site = .next m' push spawned) :
    Moves m (.addArc n a site) m' push spawned := by
  obtain ⟨ha, halive, heq, -, htoken⟩ := arc_of_site hcov
  unfold Exec.rejected at h
  cases site with
  | assign f p =>
    cases h
    intro k
    simp [Instr.tokens, AddSite.tokens]
  | assignTo f p =>
    cases h
    intro k
    simp [Instr.tokens, AddSite.tokens]
  | ownBack f => cases h
  | back => cases h
  | moved => cases h
  | thrown =>
    cases h
    obtain ⟨-, hrole, -⟩ := Arc.token_payload htoken
    intro k
    rw [balance_spend ha halive heq
      (Arc.carries_eq_zero (by simp [hrole]) (by simp [hrole])), ← htoken]
    simp [Instr.tokens, AddSite.tokens, AddSite.arcToken]
  | signal =>
    cases h
    obtain ⟨-, hrole, -⟩ := Arc.token_payload htoken
    intro k
    rw [balance_spend ha halive heq
      (Arc.carries_eq_zero (by simp [hrole]) (by simp [hrole])), ← htoken]
    simp [Instr.tokens, AddSite.tokens, AddSite.arcToken]
  | forward t =>
    obtain ⟨-, hrole, -⟩ := Arc.token_offer htoken
    obtain ⟨ht, hphase⟩ := forwarding_of_site hcov
    cases h
    intro k
    have hspend := balance_spend (m := m.setNode t { m.node t with phase := .running })
      (by simpa using ha) (by simpa using halive) (by simpa using heq)
      (Arc.carries_eq_zero (by simp [hrole]) (by simp [hrole])) k
    rw [hspend, balance_resume ht hphase, Mem.arc_setNode, ← htoken]
    cases (m.node t).canThrow <;>
      simp [Instr.tokens, AddSite.tokens, AddSite.arcToken, running, counters_of_le] <;> ring

theorem addArc_moves {n a : ℕ} {site : AddSite V} (hcov : Covered m (.addArc n a site))
    (h : Exec.addArc m n a site = .next m' push spawned) :
    Moves m (.addArc n a site) m' push spawned := by
  unfold Exec.addArc at h
  split at h
  · cases h
    intro k
    simp [Instr.tokens]
  · exact rejected_moves hcov h

/-- After `true` the caller of `add_arc` goes on with what it held besides the arc. -/
theorem added_tokens (n a : ℕ) {site : AddSite V} (hsite : ∀ t, site ≠ .forward t) (k : Token) :
    site.tokens n a k =
      one (site.arcToken n a) k + stackSum Instr.tokens (Exec.added n site) k := by
  cases site with
  | forward t => exact absurd rfl (hsite t)
  | _ => simp [AddSite.tokens, AddSite.arcToken, Exec.added, Instr.tokens, Frame.tokens]

theorem addArcCas_moves {n a : ℕ} {seen : List ℕ} {site : AddSite V} {spurious : Bool}
    (hok : MemOk m) (hins : (Instr.addArcCas n a seen site).Ok m)
    (hlive : (m.node n).status = .live) (hcov : Covered m (.addArcCas n a seen site))
    (h : Exec.addArcCas m spurious n a seen site = .next m' push spawned) :
    Moves m (.addArcCas n a seen site) m' push spawned := by
  have hn := hok.lt_of_live hlive
  obtain ⟨ha, halive, heq, hplace, htoken⟩ := arc_of_site hcov
  unfold Exec.addArcCas at h
  split at h
  · rename_i hcond
    simp only at h
    by_cases hforward : ∃ t, site = .forward t
    · obtain ⟨t, rfl⟩ := hforward
      obtain ⟨-, hrole, -⟩ := Arc.token_offer htoken
      obtain ⟨ht, hphase⟩ := forwarding_of_site hcov
      have hnode : (m.arc a).node = t := hins
      cases h
      intro k
      have harc : arcBalance a { m.arc a with
            role := .waiting, accepted := (m.arc a).accepted + 1 } k =
          arcBalance a (m.arc a) k + one (.offer a n) k - one (.listed a n) k +
            one (.pre t) k := by
        generalize m.arc a = x at *
        rw [arcBalance_alive halive, ← htoken,
          arcBalance_alive (x := { x with role := .waiting, accepted := x.accepted + 1 }) halive]
        have hnew : Token.listed a n =
            Arc.token a { x with role := .waiting, accepted := x.accepted + 1 } := by
          simp [Arc.token, heq, hplace]
        rw [← hnew]
        simp only [Arc.carries, hrole, hnode, AddSite.arcToken]
        ring
      -- pushing the arc leaves the offering task as it is, also when it is the node itself
      generalize hm₂ : Mem.setArc _ a _ = m₂
      have hnodes : m₂.nodes.size = m.nodes.size := by
        rw [← hm₂]
        rfl
      have hsame : (m₂.node t).phase = .forwarding ∧ (m₂.node t).startCount.count = 1 := by
        rw [← hm₂, Mem.node_setArc, Mem.node_setNode]
        by_cases htn : t = n
        · rw [htn] at hphase
          rw [if_pos htn]
          exact ⟨hphase, (hok.node n hn).forwarding hphase⟩
        · rw [if_neg htn]
          exact ⟨hphase, (hok.node t ht).forwarding hphase⟩
      rw [balance_suspend (by omega) rfl hsame.1 hsame.2, ← hm₂,
        balance_setArc (m.setNode n _) k ha, balance_pushArc hn hlive hcond.1, Mem.arc_setNode,
        harc]
      simp [Instr.tokens, AddSite.tokens]
      ring
    · have hnot : ∀ t, site ≠ .forward t := fun t ht => hforward ⟨t, ht⟩
      have hnext : m' = (m.setNode n { m.node n with head := .list (a :: seen) }).setArc a
          { m.arc a with accepted := (m.arc a).accepted + 1 } ∧
          push = Exec.added n site ∧ spawned = [] := by
        cases site with
        | forward t => exact absurd rfl (hnot t)
        | _ =>
          cases h
          exact ⟨rfl, rfl, rfl⟩
      obtain ⟨rfl, rfl, rfl⟩ := hnext
      intro k
      rw [balance_setArc (m.setNode n _) k ha, balance_pushArc hn hlive hcond.1, Mem.arc_setNode,
        Arc.arcBalance_accept halive heq hplace, ← htoken]
      simp only [Instr.tokens, added_tokens n a hnot, threadSum_nil]
      ring
  · cases h
    intro k
    simp [Instr.tokens]

/-! ## Countdowns and next writers -/

theorem removeBackArc_moves {n p : ℕ} (hok : MemOk m) (hcov : Covered m (.removeBackArc n p))
    (h : Exec.removeBackArc m n p = .next m' push spawned) :
    Moves m (.removeBackArc n p) m' push spawned := by
  have hback := hcov (.back n p)
  simp only [Instr.tokens, one_self] at hback
  obtain ⟨hn, hp, harmed, hpos⟩ := owed_back (by omega) hback
  have hnotified : ((m.node n).out p).notified = 0 := by
    by_contra hne
    have hslot := ((hok.node n hn).slot p).notified hne
    rw [hslot.2.2.1] at hpos
    split at hpos <;> omega
  have hcountdown : ((m.node n).out p).countdown ≠ 0 := by
    split at hpos <;> omega
  rw [Exec.removeBackArc_eq] at h
  simp only at h
  split at h
  · cases h
  · cases h
    intro k
    rw [balance_setOut m k hn hp]
    by_cases hzero : ((m.node n).out p).countdown - 1 = 0
    · -- the last unit: the producer has taken back its reserve before
      have hhanded : ((m.node n).out p).handed = true := by
        by_contra hne
        rw [if_neg hne] at hpos
        omega
      have hone : ((m.node n).out p).countdown = 1 := by omega
      simp [slotBalance, slotArm, hone, harmed, hnotified, hhanded, Instr.tokens]
      ring
    · simp [slotBalance, slotArm, hzero, harmed, hnotified, hcountdown, Instr.tokens]
      ring

/-- `notify_next_writer` gives back what the slot held. -/
theorem notifyCalls_tokens {n c : ℕ} {d : NextWriter} {calls : List (Instr V)}
    (h : Exec.notifyCalls n d = some (calls, c)) (k : Token) :
    stackSum Instr.tokens calls k + c * one (.life n) k = one (.life n) k + d.tokens k := by
  cases d with
  | null => cases h
  | ready => cases h
  | noOwner =>
    cases h
    simp [NextWriter.tokens]
  | owner o =>
    unfold Exec.notifyCalls at h
    simp only at h
    split at h
    · rename_i heq
      cases h
      simp [NextWriter.tokens, heq]
      ring
    · cases h
      simp [NextWriter.tokens, Instr.tokens]
      ring
  | node d =>
    cases h
    simp [NextWriter.tokens, Instr.tokens]
    ring

/-- A slot that is notified gives up its reference and its next writer. -/
theorem balance_notify {n p : ℕ} (hn : n < m.nodes.size) (hp : p < (m.node n).slots)
    (harmed : ((m.node n).out p).armed = true) (hzero : ((m.node n).out p).countdown = 0)
    (hnotified : ((m.node n).out p).notified = 0)
    (hready : ((m.node n).out p).nextWriter ≠ .ready) (k : Token) :
    balance (m.setOut n p { (m.node n).out p with
        notified := ((m.node n).out p).notified + 1 }) k =
      balance m k - one (.life n) k - ((m.node n).out p).nextWriter.tokens k +
        one (.fire n p) k := by
  rw [balance_setOut m k hn hp]
  simp [slotBalance, slotArm, harmed, hzero, hnotified, hready]
  ring

theorem set_of_notifyCalls {n : ℕ} {d : NextWriter} {x : List (Instr V) × ℕ}
    (h : Exec.notifyCalls n d = some x) : d ≠ .null ∧ d ≠ .ready := by
  constructor <;> rintro rfl <;> cases h

theorem notifyNextWriter_moves {n p : ℕ} (hcov : Covered m (.notifyNextWriter n p))
    (h : Exec.notifyNextWriter m n p = .next m' push spawned) :
    Moves m (.notifyNextWriter n p) m' push spawned := by
  have hfire := hcov (.fire n p)
  simp only [Instr.tokens, one_self] at hfire
  obtain ⟨hn, hp, harmed, hzero, hnotified, -⟩ := owed_fire (n := n) (p := p) (m := m) (by omega)
  unfold Exec.notifyNextWriter at h
  simp only at h
  split at h
  · cases h
  · rename_i calls c hcalls
    cases h
    intro k
    have htokens := notifyCalls_tokens hcalls k
    rw [balance_notify hn hp harmed hzero hnotified ((set_of_notifyCalls hcalls).2)]
    simp only [stackSum_append, stackSum_cons, stackSum_nil, threadSum_nil, Instr.tokens]
    linarith

theorem setNextWriter_moves {n p : ℕ} {d : NextWriter} (hok : MemOk m)
    (hins : (Instr.setNextWriter n p d : Instr V).Ok m) (hcov : Covered m (.setNextWriter n p d))
    (h : Exec.setNextWriter m n p d = .next m' push spawned) :
    Moves m (.setNextWriter n p d) m' push spawned := by
  have hcap := hcov (.cap n p)
  have hd : d.tokens (.cap n p) = 0 := by
    cases d <;> simp [NextWriter.tokens, one]
  simp only [Instr.tokens, one_self, hd] at hcap
  obtain ⟨hn, hp, hopen, -⟩ := owed_cap (n := n) (p := p) (m := m) (by omega)
  have hnotified : ((m.node n).out p).notified = 0 := by
    by_contra hne
    have hslot := ((hok.node n hn).slot p).notified hne
    rcases hopen with hnull | hready
    · exact hslot.2.2.2.1 hnull
    · exact hslot.2.2.2.2 hready
  obtain ⟨hnull, hready⟩ := hins
  rw [Exec.setNextWriter_eq] at h
  simp only [hready, if_false] at h
  rcases hopen with hopen | hopen
  · rw [hopen] at h
    cases h
    intro k
    rw [balance_setOut m k hn hp]
    simp [slotBalance, slotArm, hnotified, hopen, hnull, hready, Instr.tokens, NextWriter.tokens]
    ring
  · rw [hopen] at h
    cases h
    intro k
    rw [balance_setOut m k hn hp]
    simp [slotBalance, slotArm, hnotified, hopen, hnull, hready, Instr.tokens, NextWriter.tokens]
    ring

end Oox
