import Oox.Ports.Preserves

/-!
# What a step pushes is placed

The calls that remain after an operation name slots that exist: they take their ports from the
memory, from a call that counts them, or from the instruction that ran.
-/

set_option autoImplicit false

namespace Oox

open Library

variable {V : Type}

/-- All instructions of a list are placed. -/
def Mem.AllPlaced (m : Mem V) (l : List (Instr V)) : Prop := ∀ j ∈ l, j.Placed m

section Lists

variable {m : Mem V}

@[simp] theorem Mem.allPlaced_nil : m.AllPlaced [] := fun _ hj => absurd hj List.not_mem_nil

@[simp] theorem Mem.allPlaced_cons (j : Instr V) (l : List (Instr V)) :
    m.AllPlaced (j :: l) ↔ j.Placed m ∧ m.AllPlaced l :=
  List.forall_mem_cons

@[simp] theorem Mem.allPlaced_append (l₁ l₂ : List (Instr V)) :
    m.AllPlaced (l₁ ++ l₂) ↔ m.AllPlaced l₁ ∧ m.AllPlaced l₂ :=
  List.forall_mem_append

/-- A released var names a slot. -/
theorem allPlaced_releaseVar {u : Var} (hu : u.Placed m) : m.AllPlaced (releaseVar u) := by
  unfold releaseVar
  cases htask : u.currentTask with
  | none => simp
  | some n => simpa [Instr.Placed] using hu.slot n htask

theorem allPlaced_notifyCalls {n c : ℕ} {d : NextWriter} {calls : List (Instr V)}
    (h : Exec.notifyCalls n d = some (calls, c)) : m.AllPlaced calls := by
  cases d with
  | null => cases h
  | ready => cases h
  | noOwner =>
    cases h
    simp
  | owner o =>
    simp only [Exec.notifyCalls] at h
    split at h <;> cases h <;> simp [Instr.Placed]
  | node d =>
    cases h
    simp [Instr.Placed]

end Lists

variable [Inhabited V]

namespace PortStep

variable {m m' : Mem V} {spurious : Bool} {push : List (Instr V)}
variable {spawned : List (List (Instr V))}

/-- Only `setup` records an argument. -/
theorem args_kept {ins : Instr V} (h : PortStep m spurious ins m' push spawned)
    (hnot : ∀ f, ins ≠ .setup f) {t : ℕ} (ht : t < m.nodes.size) :
    (m'.node t).args = (m.node t).args := by
  rcases (h.changes.node t ht).args with hsame | hchange
  · exact hsame
  · cases ins with
    | setup f => exact absurd rfl (hnot f)
    | _ => exact hchange.elim

theorem frame_kept {ins : Instr V} (h : PortStep m spurious ins m' push spawned)
    (hnot : ∀ f, ins ≠ .setup f) {f : Frame V} (hf : f.Placed m) : f.Placed m' :=
  hf.mono h.frozen (h.args_kept hnot hf.task)

theorem nodes_le {ins : Instr V} (h : PortStep m spurious ins m' push spawned) {n : ℕ}
    (hn : n < m.nodes.size) : n < m'.nodes.size :=
  hn.trans_le h.frozen.nodes_le

/-! ## Releasing nodes and arcs, output slots -/

theorem destroy_placed {n : ℕ} (h : PortStep m spurious (.destroy n) m' push spawned) :
    m'.AllPlaced push := by
  have hvars := h.varsIn
  have hstep := h.step
  rw [exec, if_pos h.inLifetime] at hstep
  simp only [Exec.destroy] at hstep
  split at hstep <;> cases hstep
  · rw [Mem.allPlaced_append]
    exact ⟨allPlaced_releaseVar (hvars _), by simp [Instr.Placed]⟩
  · simp [Instr.Placed]

theorem removeBackArc_placed {n p : ℕ}
    (h : PortStep m spurious (.removeBackArc n p) m' push spawned) : m'.AllPlaced push := by
  have hslot : m'.HasSlot n p := Mem.HasSlot.mono h.frozen h.ok
  have hstep := h.step
  rw [exec, if_pos h.inLifetime] at hstep
  simp only [Exec.removeBackArc_eq] at hstep
  split_ifs at hstep <;> cases hstep
  · simpa [Instr.Placed] using hslot
  · simp

theorem notifyNextWriter_placed {n p : ℕ}
    (h : PortStep m spurious (.notifyNextWriter n p) m' push spawned) : m'.AllPlaced push := by
  have hstep := h.step
  rw [exec, if_pos h.inLifetime] at hstep
  simp only [Exec.notifyNextWriter] at hstep
  split at hstep
  · cases hstep
  · rename_i calls c hcalls
    cases hstep
    rw [Mem.allPlaced_append]
    exact ⟨allPlaced_notifyCalls hcalls, by simp [Instr.Placed]⟩

theorem setNextWriter_placed {n p : ℕ} {d : NextWriter}
    (h : PortStep m spurious (.setNextWriter n p d) m' push spawned) : m'.AllPlaced push := by
  have hslot : m'.HasSlot n p := Mem.HasSlot.mono h.frozen h.ok
  have hstep := h.step
  rw [exec, if_pos h.inLifetime] at hstep
  simp only [Exec.setNextWriter_eq] at hstep
  repeat' split at hstep
  all_goals
    cases hstep
    try simp [Instr.Placed, hslot]

/-! ## arc_list::add_arc -/

theorem addArc_placed {n a : ℕ} {site : AddSite V}
    (h : PortStep m spurious (.addArc n a site) m' push spawned) : m'.AllPlaced push := by
  obtain ⟨hfits, hsite⟩ := h.ok
  have hle := fun n hn => h.nodes_le (n := n) hn
  have hstep := h.step
  rw [exec, if_pos h.inLifetime] at hstep
  simp only [Exec.addArc] at hstep
  split at hstep
  · cases hstep
    simp [Instr.Placed, hfits, hsite]
  · cases site with
    | forward t =>
      cases hstep
      rw [Mem.allPlaced_append]
      refine ⟨by simp [Instr.Placed], ?_⟩
      split
      · simp [Instr.Placed]
      · simpa [Instr.Placed] using hle t hsite
    | assign f p =>
      cases hstep
      exact (Mem.allPlaced_cons _ _).mpr ⟨hsite, Mem.allPlaced_nil⟩
    | assignTo f p =>
      cases hstep
      exact (Mem.allPlaced_cons _ _).mpr ⟨hsite, Mem.allPlaced_nil⟩
    | _ => cases hstep <;> simp [Instr.Placed]

theorem addArcCas_placed {n a : ℕ} {seen : List ℕ} {site : AddSite V}
    (h : PortStep m spurious (.addArcCas n a seen site) m' push spawned) : m'.AllPlaced push := by
  obtain ⟨hfits, hsite⟩ := h.ok
  have hframe := fun (f : Frame V) (hf : f.Placed m) => h.frame_kept (by simp) hf
  have hstep := h.step
  rw [exec, if_pos h.inLifetime] at hstep
  simp only [Exec.addArcCas] at hstep
  split at hstep
  · -- the caller of `add_arc` goes on with its frame
    have hcount : ∀ {f : Frame V} (k : ℕ), f.Placed m → Frame.Placed m' { f with count := k } := by
      intro f k hf
      have hf' := hframe f hf
      exact ⟨hf'.task, hf'.kind, hf'.port, hf'.slots, hf'.env, hf'.dst⟩
    cases site with
    | assign f p =>
      cases hstep
      simpa [Exec.added, Instr.Placed] using hcount _ hsite.frame
    | assignTo f p =>
      cases hstep
      simpa [Exec.added, Instr.Placed] using hcount _ hsite.frame
    | ownBack f =>
      cases hstep
      simpa [Exec.added, Instr.Placed] using hframe f hsite
    | _ =>
      cases hstep
      simp [Exec.added, Instr.Placed]
  · cases hstep
    simp [Instr.Placed, hfits, hsite]

/-! ## Completion -/

omit [Inhabited V] in
/-- A completion starts with no counters. -/
theorem start_placed {t : ℕ} {canThrow : Bool} (ht : t < m.nodes.size) :
    (Instr.storeCountdown t canThrow []).Placed m :=
  ⟨ht, Nat.zero_le _⟩

theorem storeCountdown_placed {t : ℕ} {canThrow : Bool} {count : List ℤ}
    (h : PortStep m spurious (.storeCountdown t canThrow count) m' push spawned) :
    m'.AllPlaced push := by
  obtain ⟨ht, hlength⟩ := h.ok
  have hsame := (h.frozen.node t ht).slots
  have hlt := h.nodes_le ht
  have hstep := h.step
  rw [exec, if_pos h.inLifetime] at hstep
  simp only [Exec.storeCountdown, OutputNode.arm] at hstep
  split at hstep
  · rename_i hless
    cases hstep
    simp only [Mem.allPlaced_cons, Mem.allPlaced_nil, and_true]
    refine ⟨hlt, ?_⟩
    rw [hsame, List.length_append, List.length_singleton]
    exact hless
  · cases hstep
    have hcounts : m.Counts t count := ⟨ht, by omega⟩
    cases canThrow <;> simpa [Instr.Placed] using hcounts

theorem loadException_placed {t : ℕ} {count : List ℤ}
    (h : PortStep m spurious (.loadException t count) m' push spawned) : m'.AllPlaced push := by
  have hcounts : m.Counts t count := h.ok
  have hstep := h.step
  rw [exec, if_pos h.inLifetime] at hstep
  cases hstep
  split <;> simpa [Instr.Placed] using hcounts

theorem findTerminal_placed {t : ℕ} {count : List ℤ}
    (h : PortStep m spurious (.findTerminal t count) m' push spawned) : m'.AllPlaced push := by
  have hcounts : m.Counts t count := h.ok
  have hstep := h.step
  rw [exec, if_pos h.inLifetime] at hstep
  simp only [Exec.findTerminal] at hstep
  split at hstep <;> cases hstep <;> simpa [Instr.Placed] using hcounts

theorem retainTerminal_placed {t c : ℕ} {count : List ℤ}
    (h : PortStep m spurious (.retainTerminal t c count) m' push spawned) : m'.AllPlaced push := by
  have hcounts : m'.Counts t count := Mem.Counts.mono h.frozen h.ok
  have hstep := h.step
  rw [exec, if_pos h.inLifetime] at hstep
  simp only [Exec.retainTerminal] at hstep
  split at hstep <;> cases hstep
  simpa [Instr.Placed] using hcounts

theorem closeList_placed {t : ℕ} {canThrow : Bool} {terminal : Option ℕ} {count : List ℤ}
    (h : PortStep m spurious (.closeList t canThrow terminal count) m' push spawned) :
    m'.AllPlaced push := by
  have hcounts : m'.Counts t count := Mem.Counts.mono h.frozen h.ok
  have hold := fun l hhead a ha => h.old_list (n := t) h.ok.node (l := l) hhead (a := a) ha
  have hstep := h.step
  rw [exec, if_pos h.inLifetime] at hstep
  simp only [Exec.closeList] at hstep
  split at hstep
  · cases hstep
    simpa [Instr.Placed] using hcounts
  · rename_i a r hhead
    cases hstep
    have hlist := hold _ hhead
    cases canThrow
    · simp only [Mem.allPlaced_cons, Mem.allPlaced_nil, and_true]
      exact ⟨hcounts, hlist⟩
    · simp only [Mem.allPlaced_cons, Mem.allPlaced_nil, and_true]
      exact ⟨hcounts, hlist⟩
  · cases hstep

theorem loadFailureFlag_placed {t : ℕ} {r : List ℕ} {count : List ℤ}
    (h : PortStep m spurious (.loadFailureFlag t r count) m' push spawned) : m'.AllPlaced push := by
  have hok := h.ok
  have hstep := h.step
  rw [exec, if_pos h.inLifetime] at hstep
  cases hstep
  simp only [Mem.allPlaced_cons, Mem.allPlaced_nil, and_true]
  exact hok

/-- Whoever holds a list writes to its first arc only, which is not on the list again. -/
theorem tail_same {ins : Instr V} (h : PortStep m spurious ins m' push spawned)
    {a b : ℕ} {r : List ℕ} (hclaims : ∀ k, ins.claims k = listClaims (a :: r) k)
    (hfirst : ∀ c, ins.Rewrites c → c = a) (hb : b ∈ r) (hlt : b < m.arcs.size) :
    SameArc (m.arc b) (m'.arc b) := by
  rcases h.arc_cases hlt with hsame | hrewrites
  · exact hsame
  · obtain rfl := hfirst b hrewrites
    have howed := h.owed (.arc b)
    have hle := neg_claimBalance_le m (.arc b)
    have hself := one_le_listClaims (List.mem_singleton_self b)
    have hrest := one_le_listClaims hb
    rw [hclaims, listClaims_cons] at howed
    omega

theorem notifyArcs_placed {t : ℕ} {canThrow failed : Bool} {r : List ℕ} {count : List ℤ}
    (h : PortStep m spurious (.notifyArcs t canThrow failed r count) m' push spawned) :
    m'.AllPlaced push := by
  obtain ⟨hcounts, hfits⟩ := h.ok
  have hcounts' := hcounts.mono h.frozen
  cases r with
  | nil =>
    have hstep := h.step
    rw [exec, if_pos h.inLifetime] at hstep
    cases hstep
    simpa [Instr.Placed] using hcounts
  | cons a r =>
    have ha := (hfits a List.mem_cons_self).arc
    have hrest : ∀ b ∈ r, m'.Fits t b := by
      intro b hb
      have hfit := hfits b (List.mem_cons_of_mem _ hb)
      refine hfit.mono h.frozen (h.tail_same (fun k => rfl) (fun c hc => ?_) hb hfit.arc)
      exact (Option.some.inj hc).symm
    have hnext : ∀ count' : List ℤ, count'.length = count.length →
        (Instr.notifyArcs t canThrow failed r count').Placed m' :=
      fun count' hlength => ⟨⟨hcounts'.node, hlength.trans hcounts'.length⟩, hrest⟩
    have hback : (m.arc a).kind = .backOnly → m'.HasSlot (m.arc a).node (m.arc a).port :=
      fun hkind => (h.mem.back a ha hkind).mono h.frozen
    have hreader := fun hkind => h.mem.reader a ha hkind
    have hpublish : m'.AllPlaced
        (if failed then [.publish (m.arc a).node t (m.arc a).port] else []) := by
      split <;> simp [Instr.Placed]
    have hstep := h.step
    rw [exec, if_pos h.inLifetime] at hstep
    simp only [Exec.notifyArcs] at hstep
    split at hstep
    · split at hstep <;> cases hstep
      simp only [Mem.allPlaced_cons, Mem.allPlaced_nil, and_true]
      exact ⟨trivial, hnext count rfl⟩
    · rename_i hkind
      cases hstep
      simp only [Mem.allPlaced_cons, Mem.allPlaced_nil, and_true]
      exact ⟨hback hkind, trivial, hnext count rfl⟩
    · rename_i hkind
      split at hstep
      · cases hstep
        refine (Mem.allPlaced_append _ _).mpr ⟨hpublish, ?_⟩
        simp only [Mem.allPlaced_cons, Mem.allPlaced_nil, and_true]
        exact ⟨trivial, trivial, hnext count rfl⟩
      · cases hstep
        obtain ⟨hnode, htask⟩ := hreader hkind
        rw [Mem.allPlaced_append, Mem.allPlaced_append]
        refine ⟨⟨?_, hpublish⟩, ?_⟩
        · -- the arc goes back to its reader, which is a task
          simp only [Mem.allPlaced_cons, Mem.allPlaced_nil, and_true]
          refine ⟨⟨hnode, ha, fun hnot => ?_, fun _ => htask⟩, trivial⟩
          rw [Mem.arc_setArc_self] at hnot
          exact absurd rfl hnot
        · simp only [Mem.allPlaced_cons, Mem.allPlaced_nil, and_true]
          exact ⟨trivial, hnext _ (List.length_modify _ _ _)⟩
    · cases hstep
      refine (Mem.allPlaced_append _ _).mpr ⟨hpublish, ?_⟩
      simp only [Mem.allPlaced_cons, Mem.allPlaced_nil, and_true]
      exact ⟨trivial, trivial, hnext count rfl⟩
    · cases hstep
    · cases hstep

theorem outLoad_placed {t i refs : ℕ} {count : List ℤ}
    (h : PortStep m spurious (.outLoad t i count refs) m' push spawned) : m'.AllPlaced push := by
  have hcounts : m.Counts t count := h.ok
  have hstep := h.step
  rw [exec, if_pos h.inLifetime] at hstep
  simp only [Exec.outLoad] at hstep
  split at hstep
  · rename_i hless
    have hi : i < count.length := hless.trans_eq hcounts.length.symm
    split at hstep <;> cases hstep
    · exact (Mem.allPlaced_cons _ _).mpr ⟨⟨hcounts, hi⟩, Mem.allPlaced_nil⟩
    · exact (Mem.allPlaced_cons _ _).mpr ⟨⟨hcounts, hi⟩, Mem.allPlaced_nil⟩
  · cases hstep
    simp [Instr.Placed]

theorem outCas_placed {t i refs : ℕ} {count : List ℤ}
    (h : PortStep m spurious (.outCas t i count refs) m' push spawned) : m'.AllPlaced push := by
  obtain ⟨hcounts, hi⟩ := h.ok
  have hcounts' := hcounts.mono h.frozen
  have hstep := h.step
  rw [exec, if_pos h.inLifetime] at hstep
  simp only [Exec.outCas_eq] at hstep
  split at hstep <;> cases hstep
  · refine (Mem.allPlaced_cons _ _).mpr ⟨⟨⟨hcounts'.node, ?_⟩, ?_⟩, Mem.allPlaced_nil⟩
    · rw [List.length_modify]
      exact hcounts'.length
    · rw [List.length_modify]
      exact hi
  · exact (Mem.allPlaced_cons _ _).mpr ⟨⟨hcounts, hi⟩, Mem.allPlaced_nil⟩

theorem outSub_placed {t i refs : ℕ} {count : List ℤ}
    (h : PortStep m spurious (.outSub t i count refs) m' push spawned) : m'.AllPlaced push := by
  obtain ⟨hcounts, hi⟩ := h.ok
  have hcounts' := hcounts.mono h.frozen
  have hstep := h.step
  rw [exec, if_pos h.inLifetime] at hstep
  simp only [Exec.outSub_eq] at hstep
  split at hstep <;> cases hstep
  refine (Mem.allPlaced_cons _ _).mpr ⟨?_, Mem.allPlaced_nil⟩
  split
  · exact ⟨hcounts', hi⟩
  · exact hcounts'

theorem outNotify_placed {t i refs : ℕ} {count : List ℤ}
    (h : PortStep m spurious (.outNotify t i count refs) m' push spawned) : m'.AllPlaced push := by
  have hcounts' : m'.Counts t count := Mem.Counts.mono h.frozen h.ok.1
  have hstep := h.step
  rw [exec, if_pos h.inLifetime] at hstep
  simp only [Exec.outNotify] at hstep
  split at hstep
  · cases hstep
  · rename_i calls c hcalls
    cases hstep
    refine (Mem.allPlaced_append _ _).mpr ⟨allPlaced_notifyCalls hcalls, ?_⟩
    exact (Mem.allPlaced_cons _ _).mpr ⟨hcounts', Mem.allPlaced_nil⟩

/-! ## remove_prerequisite and failures -/

theorem removePrerequisite_placed {n c : ℕ}
    (h : PortStep m spurious (.removePrerequisite n c) m' push spawned) : m'.AllPlaced push := by
  have hn : n < m'.nodes.size := h.nodes_le (h.allocated List.mem_cons_self)
  have hstart : (Instr.storeCountdown n true []).Placed m' := start_placed hn
  have hstep := h.step
  rw [exec, if_pos h.inLifetime] at hstep
  simp only [Exec.removePrerequisite_eq] at hstep
  split at hstep
  · cases hstep
  · split at hstep <;> cases hstep
    · split
      · simp only [Mem.allPlaced_cons, Mem.allPlaced_nil, and_true]
        exact ⟨hstart, trivial⟩
      · simp [Instr.Placed]
    · simp

theorem publish_placed {n source p : ℕ}
    (h : PortStep m spurious (.publish n source p) m' push spawned) : m'.AllPlaced push := by
  have hstep := h.step
  rw [exec, if_pos h.inLifetime] at hstep
  simp only [Exec.publish_eq] at hstep
  split_ifs at hstep <;> cases hstep <;> simp [Instr.Placed]

/-- A new exception arc fits every list. -/
theorem payload_fits {ins : Instr V} (h : PortStep m spurious ins m' push spawned) {n c : ℕ}
    (hn : n < m.nodes.size) (ha : m.arcs.size < m'.arcs.size)
    (harc : m'.arc m.arcs.size = Exec.payloadArc n c) : m'.Fits n m.arcs.size where
  node := h.nodes_le hn
  arc := ha
  forward _ := by
    rw [harc]
    exact (h.slots_kept n (h.nodes_le hn)).1
  back hkind := by
    rw [harc] at hkind
    cases hkind

theorem retainSignal_placed {n c : ℕ}
    (h : PortStep m spurious (.retainSignal n c) m' push spawned) : m'.AllPlaced push := by
  have hn := h.allocated (n := n) List.mem_cons_self
  have hfits := fun ha harc => h.payload_fits (c := c) hn ha harc
  have hstep := h.step
  rw [exec, if_pos h.inLifetime] at hstep
  simp only [Exec.retainSignal] at hstep
  split at hstep <;> cases hstep
  refine (Mem.allPlaced_cons _ _).mpr ⟨⟨hfits (Nat.lt_succ_self _) ?_, trivial⟩, Mem.allPlaced_nil⟩
  rw [Mem.arc_newArc, Mem.arcs_setControl, if_pos rfl]

theorem mark_placed {n : ℕ} {b : FailureBit}
    (h : PortStep m spurious (.mark n b) m' push spawned) : m'.AllPlaced push := by
  have hstep := h.step
  rw [exec, if_pos h.inLifetime] at hstep
  cases hstep
  split <;> simp [Instr.Placed]

theorem markCheck_placed {n : ℕ} {b : FailureBit} {word : StartCount}
    (h : PortStep m spurious (.markCheck n b word) m' push spawned) : m'.AllPlaced push := by
  have hstep := h.step
  rw [exec, if_pos h.inLifetime] at hstep
  cases hstep
  split <;> simp [Instr.Placed]

theorem markCas_placed {n : ℕ} {b : FailureBit} {word : StartCount}
    (h : PortStep m spurious (.markCas n b word) m' push spawned) : m'.AllPlaced push := by
  have hstep := h.step
  rw [exec, if_pos h.inLifetime] at hstep
  simp only [Exec.markCas] at hstep
  split at hstep <;> cases hstep <;> simp [Instr.Placed]

end PortStep

end Oox
