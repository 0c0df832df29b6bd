import Oox.Preservation.Vars

/-!
# What a step leaves to itself

The instructions that a step pushes can rely on what they state. First the calls that release
nodes, notify and complete.
-/

set_option autoImplicit false

namespace Oox

open Library

variable {V : Type}

/-- All instructions of a list are in order. -/
def Mem.Ready (m : Mem V) (l : List (Instr V)) : Prop := ∀ j ∈ l, j.Ok m

section Ready

variable {m : Mem V}

@[simp] theorem Mem.ready_nil : m.Ready [] := fun _ hj => absurd hj List.not_mem_nil

@[simp] theorem Mem.ready_cons (j : Instr V) (l : List (Instr V)) :
    m.Ready (j :: l) ↔ j.Ok m ∧ m.Ready l :=
  List.forall_mem_cons

@[simp] theorem Mem.ready_append (l₁ l₂ : List (Instr V)) :
    m.Ready (l₁ ++ l₂) ↔ m.Ready l₁ ∧ m.Ready l₂ :=
  List.forall_mem_append

/-- Destroying a var sets a next writer that ends the chain. -/
theorem ready_releaseVar (u : Var) : m.Ready (releaseVar u) := by
  unfold releaseVar
  cases u.currentTask with
  | none => simp
  | some n =>
    have hend : u.endMarker ≠ .null ∧ u.endMarker ≠ .ready := by
      unfold Var.endMarker
      cases u.owner <;> simp
    simp [Instr.Ok, hend]

theorem ready_notifyCalls {n c : ℕ} {d : NextWriter} {calls : List (Instr V)}
    (h : Exec.notifyCalls n d = some (calls, c)) : m.Ready calls ∧ c ≠ 0 := by
  cases d with
  | null => cases h
  | ready => cases h
  | noOwner =>
    cases h
    simp
  | owner o =>
    simp only [Exec.notifyCalls] at h
    split at h <;> cases h <;> simp [Instr.Ok]
  | node d =>
    cases h
    simp [Instr.Ok]

theorem countersOk_nil (t : ℕ) : CountersOk m t 0 [] := fun _ _ hp => absurd hp (Nat.not_lt_zero _)

theorem counted_nonneg (q p : ℕ) : 0 ≤ counted m q p :=
  Heap.sum_nonneg _ _ fun _ _ => by split <;> decide

/-- The next slot starts with the full bias. -/
theorem CountersOk.append {t : ℕ} {count : List ℤ} (h : CountersOk m t 0 count) :
    CountersOk m t 0 (count ++ [countdownBias]) := by
  intro p hp hlt
  by_cases hold : p < count.length
  · have hsame : (count ++ [countdownBias]).getD p 0 = count.getD p 0 := by
      simp [List.getD, List.getElem?_append, hold]
    rw [hsame]
    exact h p hp hold
  · have heq : p = count.length := by
      simp at hlt
      omega
    have hpos := counted_nonneg (m := m) t p
    subst heq
    simp [List.getD]
    omega

theorem CountersOk.succ {t i : ℕ} {count : List ℤ} (h : CountersOk m t i count) :
    CountersOk m t (i + 1) count :=
  fun p hp hlt => h p (by omega) hlt

theorem getD_modify_ne {count : List ℤ} {i p : ℕ} (f : ℤ → ℤ) (hne : p ≠ i) :
    (count.modify i f).getD p 0 = count.getD p 0 := by
  simp [List.getD, Ne.symm hne]

theorem getD_modify_self {count : List ℤ} {i : ℕ} (hi : i < count.length) :
    (count.modify i (· - 1)).getD i 0 = count.getD i 0 - 1 := by
  simp [List.getD, hi]

/-- A reader that takes one unit of the countdown is counted. -/
theorem counted_charge {a q p : ℕ} {x : Arc} (ha : a < m.arcs.size)
    (hreads : (m.arc a).reads.map Prod.snd = some (q, p)) (hwaiting : (m.arc a).role = .waiting)
    (hx : x.reads = (m.arc a).reads) (hrole : x.role = .charged) :
    counted (m.setArc a x) q p = counted m q p + 1 := by
  unfold counted Mem.setArc
  rw [Heap.sum_set _ ha, hx, if_pos ⟨hreads, .inl hrole⟩, if_neg]
  · ring
  · rintro ⟨-, hcounted⟩
    rw [show (m.arcs.cell a).role = _ from hwaiting] at hcounted
    simp at hcounted

end Ready

variable [Inhabited V]

namespace Legal

variable {m m' : Mem V} {spurious : Bool} {push : List (Instr V)}
variable {spawned : List (List (Instr V))}

/-! ## Releasing nodes and arcs -/

theorem release_ready {n k : ℕ} (h : Legal m spurious (.release n k) m' push spawned) :
    m'.Ready push := by
  have hok := h.ok
  have hstep := h.step
  rw [exec, if_pos h.inLifetime, Exec.release] at hstep
  split at hstep
  · cases hstep
    simp [Instr.Ok]
  · cases hstep
    rw [Mem.ready_cons]
    exact ⟨hok, Mem.ready_nil⟩

theorem releaseSub_ready {n k : ℕ} (h : Legal m spurious (.releaseSub n k) m' push spawned) :
    m'.Ready push := by
  have hstep := h.step
  rw [exec, if_pos h.inLifetime] at hstep
  simp only [Exec.releaseSub] at hstep
  repeat' split at hstep
  all_goals
    cases hstep
    try simp [Instr.Ok]

theorem destroy_ready {n : ℕ} (h : Legal m spurious (.destroy n) m' push spawned) :
    m'.Ready push := by
  have hstep := h.step
  rw [exec, if_pos h.inLifetime] at hstep
  simp only [Exec.destroy] at hstep
  split at hstep
  · cases hstep
    simp [Instr.Ok, ready_releaseVar]
  · cases hstep
    simp [Instr.Ok]

theorem freeNode_ready {n : ℕ} (h : Legal m spurious (.freeNode n) m' push spawned) :
    m'.Ready push := by
  have hstep := h.step
  rw [exec, if_pos h.inLifetime] at hstep
  simp only [Exec.freeNode] at hstep
  split at hstep <;> cases hstep <;> simp [Instr.Ok]

theorem deleteArc_ready {a : ℕ} (h : Legal m spurious (.deleteArc a) m' push spawned) :
    m'.Ready push := by
  have hstep := h.step
  rw [exec, if_pos h.inLifetime] at hstep
  simp only [Exec.deleteArc] at hstep
  cases hstep
  split <;> simp [Instr.Ok]

theorem releaseControl_ready {c : ℕ} (h : Legal m spurious (.releaseControl c) m' push spawned) :
    m'.Ready push := by
  have hstep := h.step
  rw [exec, if_pos h.inLifetime] at hstep
  simp only [Exec.releaseControl] at hstep
  split at hstep
  · cases hstep
    exact Mem.ready_nil
  · cases hstep

/-! ## Output slots -/

theorem removeBackArc_ready {n p : ℕ} (h : Legal m spurious (.removeBackArc n p) m' push spawned) :
    m'.Ready push := by
  have hstep := h.step
  rw [exec, if_pos h.inLifetime] at hstep
  simp only [Exec.removeBackArc_eq] at hstep
  split at hstep
  · cases hstep
  · cases hstep
    split <;> simp [Instr.Ok]

theorem notifyNextWriter_ready {n p : ℕ}
    (h : Legal m spurious (.notifyNextWriter n p) m' push spawned) : m'.Ready push := by
  have hstep := h.step
  rw [exec, if_pos h.inLifetime] at hstep
  simp only [Exec.notifyNextWriter] at hstep
  split at hstep
  · cases hstep
  · rename_i calls k hcalls
    cases hstep
    rw [Mem.ready_append, Mem.ready_cons]
    obtain ⟨hready, hk⟩ := ready_notifyCalls hcalls
    exact ⟨hready, fun hzero => absurd hzero hk, Mem.ready_nil⟩

theorem setNextWriter_ready {n p : ℕ} {d : NextWriter}
    (h : Legal m spurious (.setNextWriter n p d) m' push spawned) : m'.Ready push := by
  have hstep := h.step
  rw [exec, if_pos h.inLifetime] at hstep
  simp only [Exec.setNextWriter_eq] at hstep
  repeat' split at hstep
  all_goals
    cases hstep
    try simp [Instr.Ok]

/-! ## Completion -/

theorem storeCountdown_ready {t : ℕ} {canThrow : Bool} {count : List ℤ}
    (h : Legal m spurious (.storeCountdown t canThrow count) m' push spawned) :
    m'.Ready push := by
  obtain ⟨hle, hcount⟩ := h.ok
  have hcount' : CountersOk m' t 0 count := h.counters_ok hcount
  have ht := (owed_arm (h.owed storeCountdown_arm)).1
  have hslots := (h.frozen.node t ht).slots
  have hstep := h.step
  rw [exec, if_pos h.inLifetime] at hstep
  simp only [Exec.storeCountdown, OutputNode.arm] at hstep
  split at hstep
  · rename_i hlt
    cases hstep
    simp only [Mem.ready_cons, Mem.ready_nil, and_true]
    refine ⟨?_, hcount'.append⟩
    rw [hslots, List.length_append]
    exact hlt
  · cases hstep
    have hlen : count.length = (m.node t).slots := by omega
    cases canThrow <;> simp [Instr.Ok, hlen, hcount]

theorem loadException_ready {t : ℕ} {count : List ℤ}
    (h : Legal m spurious (.loadException t count) m' push spawned) : m'.Ready push := by
  have hok := h.ok
  have hstep := h.step
  rw [exec, if_pos h.inLifetime] at hstep
  cases hstep
  split <;> exact (Mem.ready_cons _ _).mpr ⟨hok, Mem.ready_nil⟩

theorem findTerminal_ready {t : ℕ} {count : List ℤ}
    (h : Legal m spurious (.findTerminal t count) m' push spawned) : m'.Ready push := by
  have hok := h.ok
  have hstep := h.step
  rw [exec, if_pos h.inLifetime] at hstep
  simp only [Exec.findTerminal] at hstep
  split at hstep <;> cases hstep <;> exact (Mem.ready_cons _ _).mpr ⟨hok, Mem.ready_nil⟩

theorem retainTerminal_ready {t c : ℕ} {count : List ℤ}
    (h : Legal m spurious (.retainTerminal t c count) m' push spawned) : m'.Ready push := by
  obtain ⟨hlen, hcount⟩ := h.ok
  have hexec : completing t count (.exec t) = 1 := completing_exec
  obtain ⟨ht, -⟩ := h.runs (t := t) (by
    rw [completing] at hexec
    simp only [Instr.tokens]
    omega)
  have hslots := (h.frozen.node t ht).slots
  have hcount' : CountersOk m' t 0 count := h.counters_ok hcount
  have hstep := h.step
  rw [exec, if_pos h.inLifetime] at hstep
  simp only [Exec.retainTerminal] at hstep
  split at hstep
  · cases hstep
    exact (Mem.ready_cons _ _).mpr ⟨⟨hlen.trans hslots.symm, hcount'⟩, Mem.ready_nil⟩
  · cases hstep

theorem closeList_ready {t : ℕ} {canThrow : Bool} {terminal : Option ℕ} {count : List ℤ}
    (h : Legal m spurious (.closeList t canThrow terminal count) m' push spawned) :
    m'.Ready push := by
  obtain ⟨hlen, hcount⟩ := h.ok
  obtain ⟨ht, -, -⟩ := h.runs closeList_exec
  have hlen' := hlen.trans (h.frozen.node t ht).slots.symm
  have hcount' : CountersOk m' t 0 count := h.counters_ok hcount
  have hlt := ht.trans_le h.frozen.nodes_le
  have hstep := h.step
  rw [exec, if_pos h.inLifetime] at hstep
  simp only [Exec.closeList] at hstep
  have hphase : ∀ x : Node V, x.phase = .finished → ((m.setNode t x).node t).phase = .finished :=
    fun x hx => by rw [Mem.node_setNode_self, hx]
  split at hstep
  · cases hstep
    exact (Mem.ready_cons _ _).mpr ⟨⟨hlen', hcount', hlt, hphase _ rfl⟩, Mem.ready_nil⟩
  · cases hstep
    rw [Mem.ready_cons]
    refine ⟨?_, Mem.ready_nil⟩
    split <;> exact ⟨hlen', hcount', hlt, hphase _ rfl⟩
  · cases hstep

theorem loadFailureFlag_ready {t : ℕ} {r : List ℕ} {count : List ℤ}
    (h : Legal m spurious (.loadFailureFlag t r count) m' push spawned) : m'.Ready push := by
  have hok := h.ok
  have hstep := h.step
  rw [exec, if_pos h.inLifetime] at hstep
  cases hstep
  exact (Mem.ready_cons _ _).mpr ⟨hok, Mem.ready_nil⟩

/-- A task that waits for an arc was not completed. -/
theorem task_of_waiting {ins : Instr V} (h : Legal m spurious ins m' push spawned) {a : ℕ}
    (ha : a < m.arcs.size) (halive : (m.arc a).alive = true)
    (hrole : (m.arc a).role = .waiting) :
    (m.arc a).node < m.nodes.size ∧ (m.node (m.arc a).node).kind = .task := by
  obtain ⟨hn, hpos⟩ := pre_of_waiting ha halive hrole (h.balance_le _)
  refine ⟨hn, (h.mem.node _ hn).task fun hfin => ?_⟩
  rw [hfin] at hpos
  exact absurd hpos (lt_irrefl 0)

theorem notifyArcs_ready {t : ℕ} {canThrow failed : Bool} {r : List ℕ} {count : List ℤ}
    (h : Legal m spurious (.notifyArcs t canThrow failed r count) m' push spawned) :
    m'.Ready push := by
  obtain ⟨hlen, hcount, hfin⟩ := h.ok
  have hcount' : CountersOk m' t 0 count := h.counters_ok hcount
  have hfin' := h.finished_stays hfin
  have hlen' := h.slots_stay hfin hlen
  have hstep := h.step
  rw [exec, if_pos h.inLifetime] at hstep
  cases r with
  | nil =>
    cases hstep
    exact (Mem.ready_cons _ _).mpr ⟨⟨hlen, hcount, hfin⟩, Mem.ready_nil⟩
  | cons a r =>
    obtain ⟨heq, hsite, hrole⟩ := h.notified_arc (a := a) rfl
    have halive : (m.arc a).alive = true := h.alive List.mem_cons_self
    have hlive : a < m.arcs.size ∧ (m.arc a).alive = true := ⟨h.mem.arc_lt a halive, halive⟩
    have hok := h.mem.arc a hlive.1
    have hnext : Instr.Ok m' (.notifyArcs t canThrow failed r count) := ⟨hlen', hcount', hfin'⟩
    -- an arc that stands for a prerequisite tells its task about a failure
    have hpublish : (m.arc a).role = .waiting → m'.Ready
        (if failed then [.publish (m.arc a).node t (m.arc a).port] else []) := by
      intro hwaiting
      split
      · exact (Mem.ready_cons _ _).mpr
          ⟨h.task_stays (h.task_of_waiting hlive.1 hlive.2 hwaiting), Mem.ready_nil⟩
      · exact Mem.ready_nil
    have hallows := hok.kind
    simp only [Exec.notifyArcs] at hstep
    split at hstep
    · split at hstep
      · cases hstep
        simp [Instr.Ok] at hnext ⊢
        exact hnext
      · cases hstep
    · cases hstep
      simp [Instr.Ok] at hnext ⊢
      exact hnext
    · rename_i hkind
      have hwaiting : (m.arc a).role = .waiting := by
        rw [hkind] at hallows
        rcases hallows with hw | hs
        · exact hw
        · simp [hs] at hrole
      split at hstep
      · cases hstep
        rw [Mem.ready_append]
        refine ⟨hpublish hwaiting, ?_⟩
        simp [Instr.Ok] at hnext ⊢
        exact hnext
      · have hreads := hok.flowBack hkind hwaiting
        rw [hsite] at hreads
        have hport : (m.arc a).port < count.length := by
          rw [hlen]
          exact (hok.reads _ _ _ hreads).2.2
        cases hstep
        simp only [Mem.ready_append, Mem.ready_cons, Mem.ready_nil, and_true]
        refine ⟨⟨trivial, hpublish hwaiting⟩, Nat.one_pos, ?_, ?_, hfin'⟩
        · rw [List.length_modify, hlen']
        · intro p hp hlt
          rw [List.length_modify] at hlt
          by_cases hpa : p = (m.arc a).port
          · subst hpa
            have hcharge := counted_charge (q := t) (p := (m.arc a).port) hlive.1
              (by rw [hreads]; rfl) hwaiting (x := { m.arc a with
                node := t, kind := .backOnly, role := .charged, site := (m.arc a).node,
                handled := (m.arc a).handled + 1 }) rfl rfl
            have hbias := hcount _ hp hlt
            rw [getD_modify_self hlt, hcharge]
            omega
          · rw [getD_modify_ne _ hpa]
            exact hcount' p hp hlt
    · rename_i hkind
      have hwaiting : (m.arc a).role = .waiting := by
        rw [hkind] at hallows
        rcases hallows with hw | hother | hother | hother
        · exact hw
        all_goals simp [hother] at hrole
      cases hstep
      rw [Mem.ready_append]
      refine ⟨hpublish hwaiting, ?_⟩
      simp [Instr.Ok] at hnext ⊢
      exact hnext
    · cases hstep
    · cases hstep

theorem outLoad_ready {t i refs : ℕ} {count : List ℤ}
    (h : Legal m spurious (.outLoad t i count refs) m' push spawned) : m'.Ready push := by
  obtain ⟨hlen, hcount, hfin⟩ := h.ok
  have hstep := h.step
  rw [exec, if_pos h.inLifetime, Exec.outLoad] at hstep
  split at hstep
  · rename_i hlt
    have hi : i < count.length := by omega
    split at hstep
    · cases hstep
      exact (Mem.ready_cons _ _).mpr ⟨⟨hlen, hcount, hfin, hi⟩, Mem.ready_nil⟩
    · rename_i hset
      have hbias := hcount i le_rfl hi
      cases hstep
      exact (Mem.ready_cons _ _).mpr
        ⟨⟨hlen, hcount.succ, hfin, hi, by omega, hset⟩, Mem.ready_nil⟩
  · cases hstep
    exact (Mem.ready_cons _ _).mpr ⟨hfin, Mem.ready_nil⟩

theorem outCas_ready {t i refs : ℕ} {count : List ℤ}
    (h : Legal m spurious (.outCas t i count refs) m' push spawned) : m'.Ready push := by
  obtain ⟨hlen, hcount, hfin, hi⟩ := h.ok
  have hbias := hcount i le_rfl hi
  have hcount' : CountersOk m' t i count := h.counters_ok hcount
  have hbias' := hcount' i le_rfl hi
  have hfin' := h.finished_stays hfin
  have hlen' := h.slots_stay hfin hlen
  have hstep := h.step
  rw [exec, if_pos h.inLifetime] at hstep
  simp only [Exec.outCas_eq] at hstep
  split at hstep
  · cases hstep
    refine (Mem.ready_cons _ _).mpr ⟨⟨?_, ?_, hfin', ?_, ?_, ?_⟩, Mem.ready_nil⟩
    · rw [List.length_modify, hlen']
    · intro p hp hlt
      rw [getD_modify_ne _ (by omega)]
      exact hcount'.succ p hp (by simpa using hlt)
    · simpa using hi
    · rw [getD_modify_self hi]
      omega
    · rw [Mem.setOut, Mem.node_setNode_self]
      simp
  · rename_i hset
    cases hstep
    exact (Mem.ready_cons _ _).mpr
      ⟨⟨hlen, hcount.succ, hfin, hi, by omega, hset⟩, Mem.ready_nil⟩

theorem outSub_ready {t i refs : ℕ} {count : List ℤ}
    (h : Legal m spurious (.outSub t i count refs) m' push spawned) : m'.Ready push := by
  obtain ⟨hlen, hcount, hfin, hi, -, -⟩ := h.ok
  have hcount' : CountersOk m' t (i + 1) count := h.counters_ok hcount
  have hfin' := h.finished_stays hfin
  have hlen' := h.slots_stay hfin hlen
  have hstep := h.step
  rw [exec, if_pos h.inLifetime] at hstep
  simp only [Exec.outSub_eq] at hstep
  split at hstep
  · cases hstep
  · cases hstep
    rw [Mem.ready_cons]
    refine ⟨?_, Mem.ready_nil⟩
    split
    · exact ⟨hlen', hcount', hfin', hi⟩
    · exact ⟨hlen', hcount', hfin'⟩

theorem outNotify_ready {t i refs : ℕ} {count : List ℤ}
    (h : Legal m spurious (.outNotify t i count refs) m' push spawned) : m'.Ready push := by
  obtain ⟨hlen, hcount, hfin, hi⟩ := h.ok
  have hcount' : CountersOk m' t (i + 1) count := h.counters_ok hcount
  have hfin' := h.finished_stays hfin
  have hlen' := h.slots_stay hfin hlen
  have hstep := h.step
  rw [exec, if_pos h.inLifetime] at hstep
  simp only [Exec.outNotify] at hstep
  split at hstep
  · cases hstep
  · rename_i calls k hcalls
    cases hstep
    rw [Mem.ready_append, Mem.ready_cons]
    exact ⟨(ready_notifyCalls hcalls).1, ⟨hlen', hcount', hfin'⟩, Mem.ready_nil⟩

theorem wakeup_ready {t refs : ℕ} (h : Legal m spurious (.wakeup t refs) m' push spawned) :
    m'.Ready push := by
  have hfin' := h.finished_stays h.ok
  have hstep := h.step
  rw [exec, if_pos h.inLifetime] at hstep
  cases hstep
  exact (Mem.ready_cons _ _).mpr ⟨fun _ => hfin', Mem.ready_nil⟩

end Legal

end Oox
