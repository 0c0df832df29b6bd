import Oox.Analysis.Invariant

/-!
# Releasing nodes, arcs and payloads conserves tokens

One lemma for each operation: what the memory and the pushed instructions hold afterwards
is what the memory and the instruction held before.
-/

set_option autoImplicit false

namespace Oox

open Library

variable {V : Type} {m m' : Mem V} {push : List (Instr V)}
variable {spawned : List (List (Instr V))} {rest : List (Instr V)}

attribute [local simp] Instr.tokens

/-- The memory owes what an instruction holds. -/
def Covered (m : Mem V) (ins : Instr V) : Prop := ∀ k, ins.tokens k ≤ -balance m k

/-- The operation moves tokens without making or losing any. -/
abbrev Moves (m : Mem V) (ins : Instr V) (m' : Mem V) (push : List (Instr V))
    (spawned : List (List (Instr V))) : Prop :=
  Conserves balance Instr.tokens m ins m' push spawned

/-! ## Tokens of arcs -/

section ArcTokens

variable {x : Arc} {a b n : ℕ}

theorem Arc.token_arc (h : Token.arc b n = x.token a) :
    x.accepted = x.handled ∧ (x.role = .waiting ∨ x.role = .charged) ∧ x.site = n := by
  unfold Arc.token at h
  split at h
  · cases h
  · rename_i heq
    cases hrole : x.role <;> simp_all

theorem Arc.token_payload (h : Token.payload b n = x.token a) :
    x.accepted = x.handled ∧ x.role = .payload ∧ x.site = n := by
  unfold Arc.token at h
  split at h
  · cases h
  · rename_i heq
    cases hrole : x.role <;> simp_all

theorem Arc.token_descriptor (h : Token.descriptor b n = x.token a) :
    x.accepted = x.handled ∧ x.role = .descriptor ∧ x.site = n := by
  unfold Arc.token at h
  split at h
  · cases h
  · rename_i heq
    cases hrole : x.role <;> simp_all

theorem Arc.token_offer (h : Token.offer b n = x.token a) :
    x.accepted = x.handled ∧ x.role = .offered ∧ x.site = n := by
  unfold Arc.token at h
  split at h
  · cases h
  · rename_i heq
    cases hrole : x.role <;> simp_all

theorem Arc.token_spent (h : Token.spent b = x.token a) :
    x.accepted = x.handled ∧ x.role = .spent := by
  unfold Arc.token at h
  split at h
  · cases h
  · rename_i heq
    cases hrole : x.role <;> simp_all

theorem Arc.token_listed (h : Token.listed b n = x.token a) :
    x.accepted ≠ x.handled ∧ x.site = n := by
  unfold Arc.token at h
  split at h
  · rename_i hne
    exact ⟨hne, by simp_all⟩
  · cases hrole : x.role <;> simp_all

end ArcTokens

/-! ## Releasing nodes -/

theorem MemOk.lt_of_live (hok : MemOk m) {n : ℕ} (hlive : (m.node n).status = .live) :
    n < m.nodes.size :=
  hok.node_lt n (by simp [hlive])

/-- A slot is notified only after its node has finished. -/
theorem MemOk.finished_of_notified (hok : MemOk m) {n p : ℕ} (hn : n < m.nodes.size)
    (hne : ((m.node n).out p).notified ≠ 0) : (m.node n).phase = .finished :=
  let hslot := (hok.node n hn).slot p
  (hslot.handed (hslot.notified hne).2.1).2.2

/-- A reference is out only while the node is live and not in its set-up. -/
theorem MemOk.live_of_owed (hok : MemOk m) {n : ℕ} {c : ℤ} (hc : 0 < c)
    (h : c ≤ -balance m (.life n)) :
    n < m.nodes.size ∧ (m.node n).status = .live ∧ (m.node n).phase ≠ .setup ∧
      c ≤ (m.node n).lifeCount := by
  have hn := (owed_node (k := .life n) rfl hc h).1
  apply owed_life hc h
  intro hsetup p
  by_contra hne
  have hfin := hok.finished_of_notified hn hne
  rw [hsetup] at hfin
  cases hfin

theorem releasable (hok : MemOk m) {n k : ℕ} (hfin : k = 0 → (m.node n).phase = .finished)
    (hcov : (k : ℤ) * one (.life n) (.life n) ≤ -balance m (.life n)) :
    (m.node n).phase ≠ .setup := by
  rcases Nat.eq_zero_or_pos k with hk | hk
  · rw [hfin hk]
    simp
  · rw [one_self, mul_one] at hcov
    exact (hok.live_of_owed (by omega) hcov).2.2.1

theorem release_moves {n k : ℕ} (hok : MemOk m) (hins : (Instr.release n k : Instr V).Ok m)
    (hlive : (m.node n).status = .live) (hcov : Covered m (.release n k))
    (h : Exec.release m n k = .next m' push spawned) : Moves m (.release n k) m' push spawned := by
  have hn := hok.lt_of_live hlive
  have hphase := releasable hok (fun hk => (hins hk).phase) (hcov (.life n))
  unfold Exec.release at h
  split at h
  · rename_i hlife
    cases h
    intro t
    rw [balance_setNode m t hn]
    simp only [nodeBalance, lifeSupply, hlive, hphase, hlife, Instr.tokens, stackSum_cons,
      stackSum_nil, threadSum_nil, reduceCtorEq, if_true, if_false]
    ring
  · cases h
    intro t
    simp [Instr.tokens]

theorem releaseSub_moves {n k : ℕ} (hok : MemOk m) (hins : (Instr.releaseSub n k : Instr V).Ok m)
    (hlive : (m.node n).status = .live) (hcov : Covered m (.releaseSub n k))
    (h : Exec.releaseSub m n k = .next m' push spawned) :
    Moves m (.releaseSub n k) m' push spawned := by
  have hn := hok.lt_of_live hlive
  have hphase := releasable hok (fun hk => (hins hk).phase) (hcov (.life n))
  unfold Exec.releaseSub at h
  simp only at h
  split at h
  · cases h
  · split at h
    · rename_i hlife
      have hk : (m.node n).lifeCount = k := by omega
      cases h
      intro t
      rw [balance_setNode m t hn]
      simp only [nodeBalance, lifeSupply, hlive, hphase, hk, Instr.tokens, stackSum_cons,
        stackSum_nil, threadSum_nil, reduceCtorEq, if_true, if_false]
      ring
    · cases h
      intro t
      rw [balance_setNode m t hn]
      simp only [nodeBalance, lifeSupply, hlive, hphase, Instr.tokens, stackSum_nil,
        threadSum_nil, if_true, if_false]
      ring

/-- Releasing a var hands on what it owns. -/
theorem releaseVar_tokens (u : Var) (k : Token) :
    stackSum Instr.tokens (releaseVar u : List (Instr V)) k = u.owns k := by
  cases htask : u.currentTask with
  | none => simp [releaseVar, Var.owns, htask]
  | some n =>
    cases howner : u.owner <;>
      simp [releaseVar, Var.owns, Var.endMarker, htask, howner, Instr.tokens, NextWriter.tokens]

theorem destroy_moves {n : ℕ} (hok : MemOk m) (hcov : Covered m (.destroy n))
    (h : Exec.destroy m n = .next m' push spawned) : Moves m (.destroy n) m' push spawned := by
  have hdel := hcov (.del n)
  simp only [Instr.tokens, one_self] at hdel
  obtain ⟨hn, -, -⟩ := owed_del (n := n) (m := m) (by omega)
  unfold Exec.destroy at h
  simp only at h
  split at h
  · rename_i hset
    cases h
    have hinner := hok.inner n hn ((hok.node n hn).inner hset)
    intro t
    rw [balance_setVar (m.setNode n _) t hinner.lt, balance_setNode m t hn]
    simp only [nodeBalance, varBalance, Mem.var_setNode, hinner.own.1, Var.owns, Instr.tokens,
      stackSum_append, releaseVar_tokens, stackSum_cons, stackSum_nil, threadSum_nil,
      Bool.false_eq_true, if_false]
    ring
  · cases h
    intro t
    rw [balance_setNode m t hn]
    simp only [nodeBalance, Instr.tokens, stackSum_cons, stackSum_nil, threadSum_nil]
    ring

theorem arcBalance_alive {x : Arc} (halive : x.alive = true) (a : ℕ) (k : Token) :
    arcBalance a x k = x.carries k +
      (if x.kind = .exceptionSignal then one (.control x.control) k else 0) -
        one (x.token a) k :=
  if_pos halive

theorem arcBalance_spend {x : Arc} (halive : x.alive = true) (heq : x.accepted = x.handled)
    (a : ℕ) (k : Token) :
    arcBalance a { x with role := .spent } k =
      (if x.kind = .exceptionSignal then one (.control x.control) k else 0) -
        one (.spent a) k := by
  rw [arcBalance_alive (x := { x with role := .spent }) halive]
  simp [Arc.carries, Arc.token, heq]

/-- An arc that leaves its place to be deleted is marked as spent. -/
theorem balance_spend {a : ℕ} (ha : a < m.arcs.size) (halive : (m.arc a).alive = true)
    (heq : (m.arc a).accepted = (m.arc a).handled)
    (hcarries : ∀ k, (m.arc a).carries k = 0) (k : Token) :
    balance (m.spend a) k = balance m k + one ((m.arc a).token a) k - one (.spent a) k := by
  rw [Mem.spend, balance_setArc m k ha, arcBalance_spend halive heq, arcBalance_alive halive,
    hcarries]
  ring

theorem Arc.carries_eq_zero {x : Arc} (hwaiting : x.role ≠ .waiting) (hcharged : x.role ≠ .charged)
    (k : Token) : x.carries k = 0 := by
  cases hrole : x.role <;> simp_all [Arc.carries]

theorem freeNode_moves {n : ℕ} (hcov : Covered m (.freeNode n))
    (h : Exec.freeNode m n = .next m' push spawned) : Moves m (.freeNode n) m' push spawned := by
  have hdel := hcov (.del n)
  simp only [Instr.tokens, one_self] at hdel
  obtain ⟨hn, hstatus, -⟩ := owed_del (n := n) (m := m) (by omega)
  have hnodead : (m.node n).status ≠ .dead := by
    rw [hstatus]
    simp
  have hle : ∀ k, k ≠ .del n → balance m k ≤ 0 := by
    intro k hk
    have hcov' := hcov k
    simp only [Instr.tokens, one_of_ne hk] at hcov'
    omega
  have hdead : ∀ t, balance (m.setNode n { m.node n with status := .dead }) t =
      balance m t + one (.del n) t - (m.node n).head.tokens n t := by
    intro t
    rw [balance_setNode m t hn]
    simp only [nodeBalance, lifeSupply, hstatus, reduceCtorEq, if_true, if_false]
    ring
  unfold Exec.freeNode at h
  simp only at h
  split at h
  · rename_i hhead
    cases h
    intro t
    rw [hdead, hhead]
    simp [Instr.tokens, Head.tokens]
  · cases h
  · rename_i hhead
    cases h
    intro t
    rw [hdead, hhead]
    simp [Instr.tokens, Head.tokens]
  · rename_i a hhead
    cases h
    obtain ⟨ha, halive, htoken⟩ := arc_of_head (m := m) (k := .payload a n) rfl hn hnodead
      (by rw [hhead]; simp [Head.tokens]) (hle _ (by simp))
    obtain ⟨heq, hrole, -⟩ := Arc.token_payload htoken
    intro t
    rw [balance_spend (by simpa using ha) (by simpa using halive) (by simpa using heq)
      (Arc.carries_eq_zero (by simp [hrole]) (by simp [hrole])), hdead, hhead]
    simp only [Mem.arc_setNode, ← htoken, Head.tokens, Instr.tokens, stackSum_cons, stackSum_nil,
      threadSum_nil]
    ring
  · rename_i a hhead
    cases h
    obtain ⟨ha, halive, htoken⟩ := arc_of_head (m := m) (k := .descriptor a n) rfl hn hnodead
      (by rw [hhead]; simp [Head.tokens]) (hle _ (by simp))
    obtain ⟨heq, hrole, -⟩ := Arc.token_descriptor htoken
    intro t
    rw [balance_spend (by simpa using ha) (by simpa using halive) (by simpa using heq)
      (Arc.carries_eq_zero (by simp [hrole]) (by simp [hrole])), hdead, hhead]
    simp only [Mem.arc_setNode, ← htoken, Head.tokens, Instr.tokens, stackSum_cons, stackSum_nil,
      threadSum_nil]
    ring

theorem deleteArc_moves {a : ℕ} (hcov : Covered m (.deleteArc a))
    (h : Exec.deleteArc m a = .next m' push spawned) : Moves m (.deleteArc a) m' push spawned := by
  have hspent := hcov (.spent a)
  simp only [Instr.tokens, one_self] at hspent
  obtain ⟨ha, halive, htoken⟩ := owed_arc (m := m) (k := .spent a) rfl (by omega)
  obtain ⟨-, hrole⟩ := Arc.token_spent htoken
  unfold Exec.deleteArc at h
  cases h
  intro t
  rw [balance_setArc m t ha]
  simp only [arcBalance, halive, ← htoken, Bool.false_eq_true, if_true, if_false]
  rw [Arc.carries_eq_zero (by simp [hrole]) (by simp [hrole])]
  split <;> simp only [Instr.tokens, stackSum_cons, stackSum_nil, threadSum_nil] <;> ring

theorem releaseControl_moves {c : ℕ} (hok : MemOk m)
    (h : Exec.releaseControl m c = .next m' push spawned) :
    Moves m (.releaseControl c) m' push spawned := by
  unfold Exec.releaseControl at h
  simp only at h
  split at h
  · rename_i halive
    cases h
    intro t
    rw [balance_setControl m t (hok.control_lt c halive)]
    by_cases hone : (m.control c).refCount = 1
    · simp [controlBalance, halive, hone, Instr.tokens]
    · simp [controlBalance, halive, hone, Instr.tokens]
      ring
  · cases h

end Oox
