import Oox.Ports.Bounds

/-!
# Steps move claims and make none

One lemma for each group of functions: what the step pushes and leaves on lists and in vars, it
held before, or the object is new.
-/

set_option autoImplicit false

namespace Oox

open Library

variable {V : Type}

/-- The ledger of claims. -/
abbrev SpendsClaims (m : Mem V) (ins : Instr V) (m' : Mem V) (push : List (Instr V))
    (spawned : List (List (Instr V))) : Prop :=
  Spends claimBalance Instr.claims m ins m' push spawned

/-! ## Instructions without claims -/

/-- No instruction of a list holds a claim. -/
def Unclaimed (l : List (Instr V)) : Prop := ∀ j ∈ l, ∀ k, j.claims k = 0

theorem Unclaimed.sum {l : List (Instr V)} (h : Unclaimed l) (k : Claim) :
    stackSum Instr.claims l k = 0 := by
  induction l with
  | nil => rfl
  | cons j l ih =>
    rw [stackSum_cons, h j List.mem_cons_self k, ih fun i hi => h i (List.mem_cons_of_mem _ hi)]
    rfl

theorem unclaimed_releaseVar (u : Var) : Unclaimed (releaseVar (V := V) u) := by
  unfold releaseVar
  cases u.currentTask with
  | none => exact fun j hj => absurd hj List.not_mem_nil
  | some n =>
    intro j hj k
    obtain rfl := List.mem_singleton.mp hj
    rfl

theorem unclaimed_notifyCalls {n c : ℕ} {d : NextWriter} {calls : List (Instr V)}
    (h : Exec.notifyCalls n d = some (calls, c)) : Unclaimed calls := by
  intro j hj k
  cases d with
  | null => cases h
  | ready => cases h
  | noOwner =>
    cases h
    cases hj
  | owner o =>
    simp only [Exec.notifyCalls] at h
    split at h
    · cases h
      cases hj
    · cases h
      obtain rfl := List.mem_singleton.mp hj
      rfl
  | node d =>
    cases h
    obtain rfl := List.mem_singleton.mp hj
    rfl

section Steps

variable {m m' : Mem V} {ins : Instr V} {push : List (Instr V)}
variable {spawned : List (List (Instr V))}

/-- A step that puts nothing on lists or in vars and pushes no claims. -/
theorem spends_of_unclaimed (hbal : ∀ k, claimBalance m' k ≤ claimBalance m k)
    (hpush : Unclaimed push) : SpendsClaims m ins m' push [] := by
  intro k
  have hins := ins.claims_nonneg k
  have hle := hbal k
  rw [hpush.sum k, threadSum_nil]
  omega

/-! ## Releasing nodes and arcs, output slots -/

theorem release_spends {n c : ℕ} (h : Exec.release m n c = .next m' push spawned) :
    SpendsClaims m (.release n c) m' push spawned := by
  unfold Exec.release at h
  intro k
  split at h <;> cases h <;> simp [Instr.claims, claimBalance_setNode_head]

theorem releaseSub_spends {n c : ℕ} (h : Exec.releaseSub m n c = .next m' push spawned) :
    SpendsClaims m (.releaseSub n c) m' push spawned := by
  simp only [Exec.releaseSub] at h
  intro k
  split_ifs at h <;> cases h <;> simp [Instr.claims, claimBalance_setNode_head]

theorem destroy_spends {n : ℕ} (h : Exec.destroy m n = .next m' push spawned) :
    SpendsClaims m (.destroy n) m' push spawned := by
  simp only [Exec.destroy] at h
  split at h
  · cases h
    apply spends_of_unclaimed
    · intro k
      refine le_trans (claimBalance_setVar_empty _ k ?_) (claimBalance_setNode_head m k ?_).le
      · rfl
      · rfl
    · intro j hj k
      rcases List.mem_append.mp hj with hmem | hmem
      · exact unclaimed_releaseVar _ j hmem k
      · obtain rfl := List.mem_singleton.mp hmem
        rfl
  · cases h
    intro k
    simp [Instr.claims, claimBalance_setNode_head]

theorem freeNode_spends {n : ℕ} (h : Exec.freeNode m n = .next m' push spawned) :
    SpendsClaims m (.freeNode n) m' push spawned := by
  simp only [Exec.freeNode] at h
  intro k
  split at h <;> cases h <;> simp [Instr.claims, claimBalance_setNode_head]

theorem deleteArc_spends {a : ℕ} (h : Exec.deleteArc m a = .next m' push spawned) :
    SpendsClaims m (.deleteArc a) m' push spawned := by
  simp only [Exec.deleteArc] at h
  intro k
  split at h <;> cases h <;> simp [Instr.claims]

theorem releaseControl_spends {c : ℕ} (h : Exec.releaseControl m c = .next m' push spawned) :
    SpendsClaims m (.releaseControl c) m' push spawned := by
  simp only [Exec.releaseControl] at h
  intro k
  split at h <;> cases h
  simp [Instr.claims]

theorem removeBackArc_spends {n p : ℕ} (h : Exec.removeBackArc m n p = .next m' push spawned) :
    SpendsClaims m (.removeBackArc n p) m' push spawned := by
  simp only [Exec.removeBackArc_eq] at h
  intro k
  split_ifs at h <;> cases h <;> simp [Instr.claims]

theorem notifyNextWriter_spends {n p : ℕ}
    (h : Exec.notifyNextWriter m n p = .next m' push spawned) :
    SpendsClaims m (.notifyNextWriter n p) m' push spawned := by
  simp only [Exec.notifyNextWriter] at h
  split at h
  · cases h
  · rename_i calls c hcalls
    cases h
    apply spends_of_unclaimed
    · exact fun k => (claimBalance_setOut m k _ _ _).le
    · intro j hj k
      rcases List.mem_append.mp hj with hmem | hmem
      · exact unclaimed_notifyCalls hcalls j hmem k
      · obtain rfl := List.mem_singleton.mp hmem
        rfl

theorem setNextWriter_spends {n p : ℕ} {d : NextWriter}
    (h : Exec.setNextWriter m n p d = .next m' push spawned) :
    SpendsClaims m (.setNextWriter n p d) m' push spawned := by
  simp only [Exec.setNextWriter_eq] at h
  intro k
  repeat' split at h
  all_goals
    cases h
    try simp [Instr.claims]

/-! ## arc_list::add_arc -/

theorem added_claims (n : ℕ) (site : AddSite V) (k : Claim) :
    stackSum Instr.claims (Exec.added n site) k = site.claims k := by
  cases site <;> simp [Exec.added, Instr.claims, AddSite.claims]
  all_goals exact Frame.claims_congr rfl rfl k

theorem addArc_spends {n a : ℕ} {site : AddSite V}
    (h : Exec.addArc m n a site = .next m' push spawned) :
    SpendsClaims m (.addArc n a site) m' push spawned := by
  intro k
  have hlist := listClaims_nonneg [a] k
  have hsite := site.claims_nonneg k
  simp only [Exec.addArc] at h
  split at h
  · cases h
    simp [Instr.claims]
  · cases site with
    | forward t =>
      cases h
      rw [claimBalance_spend, claimBalance_setNode_head m k (by rfl), threadSum_nil]
      split <;> simp [Instr.claims, AddSite.claims, hlist]
    | _ =>
      cases h <;> simp [Instr.claims, AddSite.claims, hlist]

theorem addArcCas_spends {spurious : Bool} {n a : ℕ} {seen : List ℕ} {site : AddSite V}
    (hn : n < m.nodes.size)
    (h : Exec.addArcCas m spurious n a seen site = .next m' push spawned) :
    SpendsClaims m (.addArcCas n a seen site) m' push spawned := by
  intro k
  simp only [Exec.addArcCas] at h
  split at h
  · rename_i hcas
    have hhead : claimBalance (m.setNode n { m.node n with head := .list (a :: seen) }) k =
        claimBalance m k + listClaims [a] k := by
      rw [claimBalance_setNode m k hn, hcas.1]
      show _ + (listClaims (a :: seen) k - listClaims seen k) = _
      rw [listClaims_cons]
      omega
    cases site with
    | forward t =>
      cases h
      rw [claimBalance_setNode_head _ k (by rfl), claimBalance_setArc, hhead]
      simp [Instr.claims, AddSite.claims]
    | _ =>
      cases h
      rw [claimBalance_setArc, hhead, added_claims]
      simp [Instr.claims]
      omega
  · cases h
    simp [Instr.claims]

/-! ## Completion -/

theorem storeCountdown_spends {t : ℕ} {canThrow : Bool} {count : List ℤ}
    (h : Exec.storeCountdown m t canThrow count = .next m' push spawned) :
    SpendsClaims m (.storeCountdown t canThrow count) m' push spawned := by
  simp only [Exec.storeCountdown, OutputNode.arm] at h
  intro k
  split_ifs at h <;> cases h <;> simp [Instr.claims]

theorem loadException_spends {t : ℕ} {count : List ℤ}
    (h : Exec.loadException m t count = .next m' push spawned) :
    SpendsClaims m (.loadException t count) m' push spawned := by
  cases h
  intro k
  split <;> simp [Instr.claims]

theorem findTerminal_spends {t : ℕ} {count : List ℤ}
    (h : Exec.findTerminal m t count = .next m' push spawned) :
    SpendsClaims m (.findTerminal t count) m' push spawned := by
  simp only [Exec.findTerminal] at h
  intro k
  split at h <;> cases h <;> simp [Instr.claims]

theorem retainTerminal_spends {t c : ℕ} {count : List ℤ}
    (h : Exec.retainTerminal m t c count = .next m' push spawned) :
    SpendsClaims m (.retainTerminal t c count) m' push spawned := by
  simp only [Exec.retainTerminal] at h
  intro k
  have hnew := listClaims_nonneg [m.arcs.size] k
  split at h <;> cases h
  simp [Instr.claims]
  exact hnew

/-- The grabbed list passes from the node to the instruction. -/
theorem closeList_spends {t : ℕ} {canThrow : Bool} {terminal : Option ℕ} {count : List ℤ}
    (ht : t < m.nodes.size)
    (h : Exec.closeList m t canThrow terminal count = .next m' push spawned) :
    SpendsClaims m (.closeList t canThrow terminal count) m' push spawned := by
  intro k
  simp only [Exec.closeList] at h
  split at h
  · rename_i hhead
    cases h
    rw [claimBalance_setNode m k ht, hhead]
    simp [Instr.claims]
  · rename_i a r hhead
    cases h
    rw [claimBalance_setNode m k ht, hhead]
    cases canThrow <;> simp [Instr.claims]
  · cases h

theorem notifyArcs_spends {t : ℕ} {canThrow failed : Bool} {r : List ℕ} {count : List ℤ}
    (h : Exec.notifyArcs m t canThrow failed r count = .next m' push spawned) :
    SpendsClaims m (.notifyArcs t canThrow failed r count) m' push spawned := by
  intro k
  cases r with
  | nil =>
    cases h
    simp [Instr.claims]
  | cons a r =>
    have hlist := listClaims_nonneg [a] k
    have hins : (Instr.notifyArcs (V := V) t canThrow failed (a :: r) count).claims k =
        listClaims [a] k + listClaims r k := listClaims_cons a r k
    rw [hins]
    simp only [Exec.notifyArcs] at h
    split at h
    · split at h <;> cases h
      simp [Instr.claims]
      omega
    · cases h
      simp [Instr.claims]
      omega
    · split at h
      · cases h
        cases failed <;> simp [Instr.claims] <;> omega
      · cases h
        cases failed <;> simp [Instr.claims, AddSite.claims]
    · cases h
      cases failed <;> simp [Instr.claims] <;> omega
    · cases h
    · cases h

theorem outLoad_spends {t i refs : ℕ} {count : List ℤ}
    (h : Exec.outLoad m t i count refs = .next m' push spawned) :
    SpendsClaims m (.outLoad t i count refs) m' push spawned := by
  simp only [Exec.outLoad] at h
  intro k
  split_ifs at h <;> cases h <;> simp [Instr.claims]

theorem outCas_spends {t i refs : ℕ} {count : List ℤ}
    (h : Exec.outCas m t i count refs = .next m' push spawned) :
    SpendsClaims m (.outCas t i count refs) m' push spawned := by
  simp only [Exec.outCas_eq] at h
  intro k
  split at h <;> cases h <;> simp [Instr.claims]

theorem outSub_spends {t i refs : ℕ} {count : List ℤ}
    (h : Exec.outSub m t i count refs = .next m' push spawned) :
    SpendsClaims m (.outSub t i count refs) m' push spawned := by
  simp only [Exec.outSub_eq] at h
  intro k
  split at h
  · cases h
  · cases h
    split <;> simp [Instr.claims]

theorem outNotify_spends {t i refs : ℕ} {count : List ℤ}
    (h : Exec.outNotify m t i count refs = .next m' push spawned) :
    SpendsClaims m (.outNotify t i count refs) m' push spawned := by
  simp only [Exec.outNotify] at h
  split at h
  · cases h
  · rename_i calls c hcalls
    cases h
    apply spends_of_unclaimed
    · exact fun k => (claimBalance_setOut m k _ _ _).le
    · intro j hj k
      rcases List.mem_append.mp hj with hmem | hmem
      · exact unclaimed_notifyCalls hcalls j hmem k
      · obtain rfl := List.mem_singleton.mp hmem
        rfl

theorem wakeup_spends {t refs : ℕ} (h : Exec.wakeup m t refs = .next m' push spawned) :
    SpendsClaims m (.wakeup t refs) m' push spawned := by
  cases h
  intro k
  simp [Instr.claims, claimBalance_setNode_head]

/-! ## remove_prerequisite and failures -/

theorem removePrerequisite_spends {n c : ℕ}
    (h : Exec.removePrerequisite m n c = .next m' push spawned) :
    SpendsClaims m (.removePrerequisite n c) m' push spawned := by
  simp only [Exec.removePrerequisite_eq] at h
  intro k
  split_ifs at h <;> cases h <;> simp [Instr.claims, claimBalance_setNode_head]

theorem spawn_spends {n : ℕ} (h : Exec.spawn m n = .next m' push spawned) :
    SpendsClaims m (.spawn n) m' push spawned := by
  cases h
  intro k
  simp [Instr.claims]

theorem publish_spends {n source p : ℕ} (h : Exec.publish m n source p = .next m' push spawned) :
    SpendsClaims m (.publish n source p) m' push spawned := by
  simp only [Exec.publish_eq] at h
  intro k
  split_ifs at h <;> cases h <;> simp [Instr.claims]

theorem publishControl_spends {n source : ℕ}
    (h : Exec.publishControl m n source = .next m' push spawned) :
    SpendsClaims m (.publishControl n source) m' push spawned := by
  simp only [Exec.publishControl] at h
  intro k
  split at h <;> cases h <;> simp [Instr.claims]

theorem retainSignal_spends {n c : ℕ} (h : Exec.retainSignal m n c = .next m' push spawned) :
    SpendsClaims m (.retainSignal n c) m' push spawned := by
  simp only [Exec.retainSignal] at h
  intro k
  split at h <;> cases h
  simp [Instr.claims, AddSite.claims]

theorem mark_spends {n : ℕ} {b : FailureBit} (h : Exec.mark m n b = .next m' push spawned) :
    SpendsClaims m (.mark n b) m' push spawned := by
  cases h
  intro k
  split <;> simp [Instr.claims]

theorem markLoad_spends {n : ℕ} {b : FailureBit}
    (h : Exec.markLoad m n b = .next m' push spawned) :
    SpendsClaims m (.markLoad n b) m' push spawned := by
  cases h
  intro k
  simp [Instr.claims]

theorem markCheck_spends {n : ℕ} {b : FailureBit} {word : StartCount}
    (h : Exec.markCheck m n b word = .next m' push spawned) :
    SpendsClaims m (.markCheck n b word) m' push spawned := by
  cases h
  intro k
  split <;> simp [Instr.claims]

theorem markCas_spends {spurious : Bool} {n : ℕ} {b : FailureBit} {word : StartCount}
    (h : Exec.markCas m spurious n b word = .next m' push spawned) :
    SpendsClaims m (.markCas n b word) m' push spawned := by
  simp only [Exec.markCas] at h
  intro k
  split at h <;> cases h <;> simp [Instr.claims, claimBalance_setNode_head]

end Steps

end Oox
