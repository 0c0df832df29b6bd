import Oox.Preservation.Pushes

/-!
# What a step leaves to itself, continued

The calls that run tasks, publish failures, set up arguments and issue operations; and the
theorem that collects all instructions.
-/

set_option autoImplicit false

namespace Oox

open Library

variable {V : Type} [Inhabited V]

namespace Legal

variable {m m' : Mem V} {spurious : Bool} {ins : Instr V} {push : List (Instr V)}
variable {spawned : List (List (Instr V))}

/-! ## Callers -/

/-- A step that is not the end of a body leaves all bodies where they are. -/
theorem after_kept (h : Legal m spurious ins m' push spawned)
    (hins : ∀ n kind set, ¬ InnerChange n kind set ins) {after : After V}
    (hle : ∀ k, after.tokens k ≤ ins.tokens k) (hok : after.Ok m) : after.Ok m' := by
  cases after with
  | exit => trivial
  | body t vals cells =>
    have hexec := hle (.exec t)
    simp only [After.tokens, running, one_self, arms] at hexec
    obtain ⟨ht, -, -⟩ := h.runs (t := t) (by omega)
    refine ⟨?_, hok.2⟩
    rw [(h.changes.node t ht).innerSet.resolve_right (hins _ _ _)]
    exact hok.1

theorem frame_kept (h : Legal m spurious ins m' push spawned)
    (hins : ∀ n kind set, ¬ InnerChange n kind set ins) {f : Frame V} {c : ℕ}
    (hle : ∀ k, f.tokens c k ≤ ins.tokens k) (hok : f.Ok m c) : f.Ok m' c :=
  ⟨hok.1, hok.2.1, h.after_kept hins
    (fun k => (Frame.after_le_tokens (by have := hok.1; omega) k).trans (hle k)) hok.2.2⟩

/-! ## add_arc -/

theorem addArc_ready {n a : ℕ} {site : AddSite V}
    (h : Legal m spurious (.addArc n a site) m' push spawned) : m'.Ready push := by
  have hok : site.Ok m n a := h.ok
  have hstep := h.step
  rw [exec, if_pos h.inLifetime, Exec.addArc] at hstep
  split at hstep
  · cases hstep
    exact (Mem.ready_cons _ _).mpr ⟨hok, Mem.ready_nil⟩
  · rename_i hclosed
    cases site with
    | assign f p =>
      cases hstep
      exact (Mem.ready_cons _ _).mpr ⟨⟨hok, hclosed⟩, Mem.ready_nil⟩
    | assignTo f p => exact hok.elim
    | thrown =>
      cases hstep
      simp [Instr.Ok]
    | signal =>
      cases hstep
      simp [Instr.Ok]
    | forward t =>
      cases hstep
      cases (m.node t).canThrow <;> simp [Instr.Ok, countersOk_nil]
    | _ => cases hstep

theorem addArcCas_ready {n a : ℕ} {seen : List ℕ} {site : AddSite V}
    (h : Legal m spurious (.addArcCas n a seen site) m' push spawned) : m'.Ready push := by
  have hok : site.Ok m n a := h.ok
  have hstep := h.step
  rw [exec, if_pos h.inLifetime, Exec.addArcCas] at hstep
  split at hstep
  · cases site with
    | assign f p =>
      have hframe : f.Ok m' (f.count + 1) := by
        refine h.frame_kept (fun _ _ _ hc => hc) (fun k => ?_) hok.frame
        have hone := one_nonneg (.arc a n) k
        simp only [Instr.tokens, AddSite.tokens]
        omega
      cases hstep
      exact (Mem.ready_cons _ _).mpr ⟨hframe, Mem.ready_nil⟩
    | assignTo f p => exact hok.elim
    | ownBack f =>
      have hframe : f.Ok m' f.count := by
        refine h.frame_kept (fun _ _ _ hc => hc) (fun k => ?_) hok.2
        have hone := one_nonneg (.arc a n) k
        simp only [Instr.tokens, AddSite.tokens]
        omega
      cases hstep
      exact (Mem.ready_cons _ _).mpr ⟨hframe, Mem.ready_nil⟩
    | _ =>
      cases hstep
      simp [Exec.added, Instr.Ok]
  · cases hstep
    exact (Mem.ready_cons _ _).mpr ⟨hok, Mem.ready_nil⟩

/-! ## Prerequisites and failures -/

theorem removePrerequisite_ready {n k : ℕ}
    (h : Legal m spurious (.removePrerequisite n k) m' push spawned) : m'.Ready push := by
  have hstep := h.step
  rw [exec, if_pos h.inLifetime] at hstep
  simp only [Exec.removePrerequisite_eq] at hstep
  split at hstep
  · cases hstep
  · split at hstep
    · cases hstep
      split <;> simp [Instr.Ok, countersOk_nil]
    · cases hstep
      exact Mem.ready_nil

theorem publish_ready {n source p : ℕ}
    (h : Legal m spurious (.publish n source p) m' push spawned) : m'.Ready push := by
  have hok : n < m.nodes.size ∧ (m.node n).kind = .task := h.ok
  have hstep := h.step
  rw [exec, if_pos h.inLifetime] at hstep
  simp only [Exec.publish_eq] at hstep
  repeat' split at hstep
  all_goals
    cases hstep
    simp [Instr.Ok, hok]

theorem publishControl_ready {n source : ℕ}
    (h : Legal m spurious (.publishControl n source) m' push spawned) : m'.Ready push := by
  have hok : n < m.nodes.size ∧ (m.node n).kind = .task := h.ok
  have hstep := h.step
  rw [exec, if_pos h.inLifetime, Exec.publishControl] at hstep
  split at hstep <;> cases hstep <;> simp [Instr.Ok, hok]

theorem retainSignal_ready {n c : ℕ}
    (h : Legal m spurious (.retainSignal n c) m' push spawned) : m'.Ready push := by
  have hstep := h.step
  rw [exec, if_pos h.inLifetime] at hstep
  simp only [Exec.retainSignal] at hstep
  split at hstep
  · cases hstep
    simp [Instr.Ok, AddSite.Ok]
  · cases hstep

theorem mark_ready {n : ℕ} {b : FailureBit} (h : Legal m spurious (.mark n b) m' push spawned) :
    m'.Ready push := by
  have hstep := h.step
  rw [exec, if_pos h.inLifetime] at hstep
  cases hstep
  split <;> simp [Instr.Ok]

theorem markLoad_ready {n : ℕ} {b : FailureBit}
    (h : Legal m spurious (.markLoad n b) m' push spawned) : m'.Ready push := by
  have hstep := h.step
  rw [exec, if_pos h.inLifetime] at hstep
  cases hstep
  simp [Instr.Ok]

theorem markCheck_ready {n : ℕ} {b : FailureBit} {word : StartCount}
    (h : Legal m spurious (.markCheck n b word) m' push spawned) : m'.Ready push := by
  have hstep := h.step
  rw [exec, if_pos h.inLifetime] at hstep
  cases hstep
  split <;> simp [Instr.Ok]

theorem markCas_ready {n : ℕ} {b : FailureBit} {word : StartCount}
    (h : Legal m spurious (.markCas n b word) m' push spawned) : m'.Ready push := by
  have hstep := h.step
  rw [exec, if_pos h.inLifetime] at hstep
  simp only [Exec.markCas] at hstep
  split at hstep <;> cases hstep <;> simp [Instr.Ok]

/-! ## execute -/

theorem execute_ready {t : ℕ} (h : Legal m spurious (.execute t) m' push spawned) :
    m'.Ready push := by
  obtain ⟨ht, -, -⟩ := h.runs (t := t) (by simp [Instr.tokens, running, arms])
  have hreturned := (h.mem.node t ht).returned
  have hstep := h.step
  rw [exec, if_pos h.inLifetime] at hstep
  simp only [Exec.execute] at hstep
  split at hstep
  · cases hstep
    simp [Instr.Ok, countersOk_nil]
  · split at hstep
    · cases hstep
      simp [Instr.Ok, countersOk_nil]
    · rename_i hfresh
      have hunset : (m.node t).innerSet = false := by
        by_contra hset
        rw [Bool.not_eq_false] at hset
        exact hfresh ⟨hreturned hset, hset⟩
      cases hstep
      simp [Instr.Ok, hunset]

theorem invoke_ready {t : ℕ} (h : Legal m spurious (.invoke t) m' push spawned) :
    m'.Ready push := by
  obtain ⟨ht, -, -⟩ := h.runs (t := t) (by simp [Instr.tokens, running, arms])
  have hunset : (m'.node t).innerSet = false := by
    rw [(h.changes.node t ht).innerSet.resolve_right fun hc => hc]
    exact h.ok
  have htame := h.tame
  have hstep := h.step
  rw [exec, if_pos h.inLifetime] at hstep
  simp only [Exec.invoke] at hstep
  split at hstep
  · cases hstep
  · cases hstep
    refine (Mem.ready_cons _ _).mpr ⟨⟨hunset, fun v hv => ?_⟩, Mem.ready_nil⟩
    obtain ⟨arg, harg, hcell⟩ := List.mem_map.mp hv
    obtain ⟨hmem, hwriter⟩ := List.mem_filter.mp harg
    exact htame arg hmem hwriter v hcell

theorem finish_ready {t : ℕ} {env : List ℕ} {vals : List V} {cells : List StoragePtr}
    (h : Legal m spurious (.finish t env vals cells) m' push spawned) : m'.Ready push := by
  obtain ⟨ht, -, -⟩ := h.runs finish_exec
  have hsame := (h.frozen.node t ht).resultKind
  obtain ⟨result, heq, -⟩ :=
    (writeCells_written (m := m) (cells.zip ((m.node t).body.writes vals))).node t
  have hstep := h.step
  rw [exec, if_pos h.inLifetime] at hstep
  simp only [Exec.finish] at hstep
  split at hstep
  · split at hstep
    · cases hstep
      simp [Instr.Ok, AddSite.Ok, countersOk_nil]
    · cases hstep
  · split at hstep
    · split at hstep
      · cases hstep
      · cases hstep
        simp [Instr.Ok, countersOk_nil]
    · cases hstep
      simp [Instr.Ok, countersOk_nil]
    · rename_i hkind
      rw [heq] at hkind
      repeat' split at hstep
      all_goals
        cases hstep
        try exact (Mem.ready_cons _ _).mpr ⟨hsame.trans hkind, Mem.ready_nil⟩

theorem storeStart_ready {t : ℕ} (h : Legal m spurious (.storeStart t) m' push spawned) :
    m'.Ready push := by
  have hstep := h.step
  rw [exec, if_pos h.inLifetime] at hstep
  cases hstep
  simp [Instr.Ok]

theorem addLife_ready {t : ℕ} (h : Legal m spurious (.addLife t) m' push spawned) :
    m'.Ready push := by
  have hstep := h.step
  rw [exec, if_pos h.inLifetime] at hstep
  simp only [Exec.addLife] at hstep
  split at hstep
  · cases hstep
  · cases hstep
    refine (Mem.ready_cons _ _).mpr ⟨?_, Mem.ready_nil⟩
    show (Mem.arc _ m.arcs.size).node = t
    rw [Mem.arc_newArc]
    simp

theorem forwardFailure_ready {t : ℕ}
    (h : Legal m spurious (.forwardFailure t) m' push spawned) : m'.Ready push := by
  obtain ⟨ht, -, hkind⟩ := h.runs (t := t) (by simp [Instr.tokens, running, arms])
  have hstep := h.step
  rw [exec, if_pos h.inLifetime, Exec.forwardFailure] at hstep
  split at hstep
  · cases hstep
  · cases hstep
    split <;> simp [Instr.Ok, ht, hkind, countersOk_nil]

/-! ## run -/

/-- The next argument of a call of `run` is the next one of the rest of the call. -/
theorem next_ok {f : Frame V} {c : ℕ} (h : Legal m spurious (.setup f) m' push spawned)
    {arg : Arg} {rest : List Arg} (hargs : f.args = arg :: rest) {g : Frame V}
    (hg : g.args = rest ∧ g.dst = f.dst ∧ g.env = f.env ∧ g.after = f.after)
    (hc : c ≤ f.count + 1) : g.Ok m' c := by
  obtain ⟨hlen, hdst, hafter⟩ := (h.ok : f.Ok m f.count)
  obtain ⟨hrest, hgdst, hgenv, hgafter⟩ := hg
  refine ⟨?_, ?_, ?_⟩
  · rw [hargs, List.length_cons] at hlen
    rw [hrest]
    omega
  · rw [hgdst, hgenv]
    exact hdst
  · rw [hgafter]
    refine h.after_kept (fun _ _ _ hc => hc) (fun k => ?_) hafter
    exact Frame.after_le_tokens (by omega) k

theorem setup_ready {f : Frame V} (h : Legal m spurious (.setup f) m' push spawned) :
    m'.Ready push := by
  have hok : f.Ok m f.count := h.ok
  have hframe : f.Ok m' f.count := h.frame_kept (fun _ _ _ hc => hc) (fun _ => le_rfl) hok
  obtain ⟨ht, -, -⟩ := h.sets_up (f := f) fun _ => le_rfl
  have hstep := h.step
  rw [exec, if_pos h.inLifetime] at hstep
  simp only [Exec.setup] at hstep
  split at hstep
  · rename_i hargs
    cases hstep
    exact (Mem.ready_cons _ _).mpr ⟨⟨hargs, hok⟩, Mem.ready_nil⟩
  · rename_i rest hargs
    have hnext : ({ f with args := rest } : Frame V).Ok m' f.count :=
      h.next_ok hargs ⟨rfl, rfl, rfl, rfl⟩ (by omega)
    cases hstep
    exact (Mem.ready_cons _ _).mpr ⟨hnext, Mem.ready_nil⟩
  · rename_i x mode rest hargs
    split at hstep
    · cases hstep
    · rename_i v henv
      have hmem : v ∈ f.env := List.mem_of_getElem? henv
      obtain ⟨hv, hvar⟩ := h.var_of_env (fun w hw => Frame.le_tokens_var hw) hmem
      split at hstep
      · split at hstep
        · cases hstep
        · cases hstep
          exact (Mem.ready_cons _ _).mpr ⟨hframe, Mem.ready_nil⟩
      · rename_i n htask
        obtain ⟨hn, hp⟩ := hvar.slot n htask
        split at hstep
        · rename_i hwriter
          have hwrites : f.Writes := ⟨x, mode, rest, hargs, hwriter⟩
          have hnext : ({ f with args := rest, port := f.port + 1, count := f.count + 1 } :
              Frame V).Ok m' (f.count + 1) := h.next_ok hargs ⟨rfl, rfl, rfl, rfl⟩ le_rfl
          repeat' split at hstep
          · cases hstep
          · cases hstep
          · cases hstep
          · rename_i hdeferred
            have hkind := (hvar.deferred n htask).mpr hdeferred
            have hslots := (h.mem.node n hn).slots.2 (by simp [hkind])
            have hsame := h.frozen.node n hn
            have hfresh : ∀ d, (m'.node n).head ≠ .redirect d := by
              rw [(h.changes.node n hn).head.resolve_right fun hc => hc]
              exact hvar.fresh n htask
            have hport := (h.slot_of_writes hwrites).trans_eq (h.frozen.node _ ht).slots.symm
            cases hstep
            refine (Mem.ready_cons _ _).mpr ⟨⟨hsame.kind.trans hkind, by omega, hfresh,
              ht.trans_le h.frozen.nodes_le, hport⟩, ?_⟩
            exact (Mem.ready_cons _ _).mpr ⟨hnext, Mem.ready_nil⟩
          · cases hstep
            refine (Mem.ready_cons _ _).mpr ⟨⟨by simp, by simp⟩, ?_⟩
            exact (Mem.ready_cons _ _).mpr ⟨hnext, Mem.ready_nil⟩
        · split at hstep
          · cases hstep
          · have hnext : ({ f with args := rest } : Frame V).Ok m' (f.count + 1) :=
              h.next_ok hargs ⟨rfl, rfl, rfl, rfl⟩ le_rfl
            cases hstep
            refine (Mem.ready_cons _ _).mpr ⟨?_, Mem.ready_nil⟩
            exact ⟨by simp [Mem.arc_newArc], by simp [Mem.arc_newArc], by simp [Mem.arc_newArc],
              hnext, v, hmem, htask, rfl⟩

/-- A reader that issues its task through a var of its own finds no redirected list. -/
theorem assign_fresh (h : Legal m spurious ins m' push spawned) {f : Frame V} {c n p a : ℕ}
    (hle : ∀ k, f.tokens c k ≤ ins.tokens k) (hok : AssignOk m f n p a) :
    ∀ d, (m.node n).head ≠ .redirect d := by
  obtain ⟨v, hv, htask, -⟩ := hok.source
  obtain ⟨-, hvar⟩ := h.var_of_env (fun w hw => (Frame.le_tokens_var hw).trans (hle _)) hv
  exact hvar.fresh n htask

theorem assignHead_ready {f : Frame V} {n p a : ℕ}
    (h : Legal m spurious (.assignHead f n p a) m' push spawned) : m'.Ready push := by
  have hok : AssignOk m f n p a ∧ ∀ l, (m.node n).head ≠ .list l := h.ok
  have hfresh := h.assign_fresh (c := f.count + 1) (fun k => by
    have hone := one_nonneg (.arc a n) k
    simp only [Instr.tokens]
    omega) hok.1
  have hstep := h.step
  rw [exec, if_pos h.inLifetime, Exec.assignHead] at hstep
  split at hstep
  · rename_i d hhead
    exact absurd hhead (hfresh d)
  · cases hstep
    exact (Mem.ready_cons _ _).mpr ⟨hok, Mem.ready_nil⟩

theorem assignFailure_ready {f : Frame V} {n p a : ℕ}
    (h : Legal m spurious (.assignFailure f n p a) m' push spawned) : m'.Ready push := by
  have hok : AssignOk m f n p a ∧ ∀ l, (m.node n).head ≠ .list l := h.ok
  obtain ⟨ht, -, hkind⟩ := h.sets_up (f := f) (c := f.count + 1) fun k => by
    have hone := one_nonneg (.arc a n) k
    simp only [Instr.tokens]
    omega
  have hstep := h.step
  rw [exec, if_pos h.inLifetime] at hstep
  cases hstep
  rw [Mem.ready_append, Mem.ready_cons]
  refine ⟨?_, hok, Mem.ready_nil⟩
  split <;> simp [Instr.Ok, ht, hkind]

theorem assignIncrement_ready {f : Frame V} {n p a : ℕ}
    (h : Legal m spurious (.assignIncrement f n p a) m' push spawned) : m'.Ready push := by
  have hok : AssignOk m f n p a ∧ ∀ l, (m.node n).head ≠ .list l := h.ok
  have hframe : f.Ok m' (f.count + 1) := by
    refine h.frame_kept (fun _ _ _ hc => hc) (fun k => ?_) hok.1.frame
    have hone := one_nonneg (.arc a n) k
    simp only [Instr.tokens]
    omega
  have hstep := h.step
  rw [exec, if_pos h.inLifetime] at hstep
  simp only [Exec.assignIncrement_eq] at hstep
  split at hstep
  · cases hstep
    exact (Mem.ready_cons _ _).mpr
      ⟨⟨rfl, by have := hframe.1; omega, hframe.2⟩, Mem.ready_nil⟩
  · cases hstep

theorem redirect_ready {n q t p a : ℕ}
    (h : Legal m spurious (.redirect n q t p a) m' push spawned) : m'.Ready push := by
  obtain ⟨hkind, rfl, -, ht, hp⟩ := h.ok
  have hone := one_nonneg (.descriptor a n) (.cap n 0)
  have hpre := one_nonneg (.pre t) (.cap n 0)
  obtain ⟨hn, -⟩ := owed_cap (h.owed (k := .cap n 0) (by
    simp only [Instr.tokens, one_self]
    omega))
  have hkind' := (h.frozen.node n hn).kind.trans hkind
  have hp' := hp.trans_eq (h.frozen.node t ht).slots.symm
  have ht' := ht.trans_le h.frozen.nodes_le
  have hstep := h.step
  rw [exec, if_pos h.inLifetime] at hstep
  cases hstep
  exact (Mem.ready_cons _ _).mpr ⟨⟨hkind', ht', hp'⟩, Mem.ready_nil⟩

theorem moveArcs_ready {n q t p : ℕ} {r : List ℕ}
    (h : Legal m spurious (.moveArcs n q t p r) m' push spawned) : m'.Ready push := by
  have hok : (m.node n).kind = .deferred ∧ t < m.nodes.size ∧ p < (m.node t).slots := h.ok
  have hstep := h.step
  rw [exec, if_pos h.inLifetime] at hstep
  cases r with
  | nil =>
    cases hstep
    simp [Instr.Ok]
  | cons a r =>
    cases hstep
    exact (Mem.ready_cons _ _).mpr ⟨trivial, (Mem.ready_cons _ _).mpr ⟨hok, Mem.ready_nil⟩⟩

omit [Inhabited V] in
/-- The var `bind_to` returns is the caller's own and names the task. -/
theorem resultVar_own (x : Node V) (t : ℕ) : (resultVar x t).borrowed = false ∧
    (resultVar x t).shared = false ∧ (resultVar x t).isDeferred = false ∧
    (resultVar x t).currentTask = some t := by
  unfold resultVar
  cases x.resultKind <;> exact ⟨rfl, rfl, rfl, rfl⟩

theorem bind_ready {f : Frame V} (h : Legal m spurious (.bind f) m' push spawned) :
    m'.Ready push := by
  obtain ⟨hargs, hlen, hdst, hafter⟩ := h.ok
  obtain ⟨ht, -, hkind⟩ := h.sets_up (f := f) fun _ => le_rfl
  have hafter' : f.after.Ok m' :=
    h.after_kept (fun _ _ _ hc => hc) (Frame.after_le_tokens (by omega)) hafter
  have hkind' := (h.frozen.node _ ht).kind.trans hkind
  have hstep := h.step
  rw [exec, if_pos h.inLifetime] at hstep
  cases hstep
  rw [Mem.ready_cons, Mem.ready_cons]
  obtain ⟨hborrowed, hshared, hdeferred, htask⟩ := resultVar_own (m.node f.task) f.task
  refine ⟨Nat.sub_pos_of_lt (by omega), ⟨hdst, hafter', hborrowed, hshared, hdeferred,
    fun n hn => ?_⟩, Mem.ready_nil⟩
  rw [htask] at hn
  cases hn
  exact hkind'

theorem moveResult_ready {f : Frame V} {r : Var}
    (h : Legal m spurious (.moveResult f r) m' push spawned) : m'.Ready push := by
  obtain ⟨-, hafter, -⟩ := h.ok
  have hafter' : f.after.Ok m' := by
    refine h.after_kept (fun _ _ _ hc => hc) (fun k => ?_) hafter
    have hvars := varTokens_nonneg f.env k
    have howns := r.owns_nonneg k
    simp only [Instr.tokens]
    omega
  have hstep := h.step
  rw [exec, if_pos h.inLifetime] at hstep
  simp only [Exec.moveResult] at hstep
  split at hstep
  · cases hstep
    rw [Mem.ready_append, Mem.ready_cons]
    exact ⟨ready_releaseVar _, hafter', Mem.ready_nil⟩
  · split at hstep
    · cases hstep
    · cases hstep
      rw [Mem.ready_append, Mem.ready_cons]
      exact ⟨ready_releaseVar _, hafter', Mem.ready_nil⟩

/-! ## The issuing thread -/

omit [Inhabited V] in
theorem assignVar_ready {m₁ : Mem V} {v : ℕ} {r : Var} {next : List (Instr V)}
    (h : Exec.assignVar m₁ v r next = .next m' push spawned) (hnext : m'.Ready next) :
    m'.Ready push := by
  unfold Exec.assignVar at h
  dsimp only at h
  split at h
  · cases h
  · cases h
    exact (Mem.ready_append _ _).mpr ⟨ready_releaseVar _, hnext⟩

theorem runOps_ready {env : List ℕ} {ops : List (Op V)} {after : After V}
    (h : Legal m spurious (.runOps env ops after) m' push spawned) : m'.Ready push := by
  have hafter : after.Ok m := h.ok
  have hafter' : after.Ok m' := by
    refine h.after_kept (fun _ _ _ hc => hc) (fun k => ?_) hafter
    have hvars := varTokens_nonneg env k
    simp only [Instr.tokens]
    omega
  have hnext : ∀ ops, m'.Ready [.runOps env ops after] := fun ops =>
    (Mem.ready_cons _ _).mpr ⟨hafter', Mem.ready_nil⟩
  have htame := h.tame
  have hstep := h.step
  rw [exec, if_pos h.inLifetime] at hstep
  rcases ops with _ | ⟨op, ops⟩
  · cases after with
    | exit =>
      cases hstep
      exact Mem.ready_nil
    | body t vals cells =>
      cases hstep
      exact (Mem.ready_cons _ _).mpr ⟨hafter', Mem.ready_nil⟩
  · cases op with
    | run dst args canThrow kind code =>
      cases hstep
      refine (Mem.ready_cons _ _).mpr ⟨⟨?_, fun v hv => ?_, hafter'⟩, Mem.ready_nil⟩
      · show 0 + args.length < startCountMask
        rw [Nat.zero_add]
        exact htame
      · obtain ⟨x, -, hx⟩ := Option.bind_eq_some_iff.mp hv
        exact List.mem_of_getElem? hx
    | move dst src =>
      simp only [Exec.runOps] at hstep
      split at hstep
      · split at hstep
        · cases hstep
        · split at hstep
          · cases hstep
          · exact assignVar_ready hstep (hnext ops)
      · cases hstep
    | toNode dst src => exact htame.elim
    | moveNode dst src => exact htame.elim
    | _ =>
      simp only [Exec.runOps] at hstep
      repeat' split at hstep
      all_goals first
        | exact assignVar_ready hstep (hnext ops)
        | (cases hstep
           simp only [Mem.ready_cons]
           first
             | exact ⟨hafter', Mem.ready_nil⟩
             | exact ⟨trivial, hafter', Mem.ready_nil⟩
             | exact ⟨trivial, trivial, hafter', Mem.ready_nil⟩)
        | cases hstep

/-! ## Waiting -/

theorem waitHead_ready {n : ℕ} (h : Legal m spurious (.waitHead n) m' push spawned) :
    m'.Ready push := by
  have hstep := h.step
  rw [exec, if_pos h.inLifetime] at hstep
  cases hstep
  split <;> simp [Instr.Ok]

theorem waitBlock_ready {n : ℕ} (h : Legal m spurious (.waitBlock n) m' push spawned) :
    m'.Ready push := by
  have hstep := h.step
  rw [exec, if_pos h.inLifetime, Exec.waitBlock] at hstep
  split at hstep
  · cases hstep
    simp [Instr.Ok]
  · cases hstep

theorem waitDone_ready {n : ℕ} (h : Legal m spurious (.waitDone n) m' push spawned) :
    m'.Ready push := by
  have hstep := h.step
  rw [exec, if_pos h.inLifetime, Exec.waitDone] at hstep
  split at hstep
  · cases hstep
    exact Mem.ready_nil
  · cases hstep

theorem waitRead_ready {v : ℕ} (h : Legal m spurious (.waitRead v) m' push spawned) :
    m'.Ready push := by
  have hstep := h.step
  rw [exec, if_pos h.inLifetime, Exec.waitRead] at hstep
  split at hstep
  · cases hstep
  · cases hstep
    exact Mem.ready_nil

/-! ## All instructions -/

/-- What a step pushes is in order. -/
theorem ready (h : Legal m spurious ins m' push spawned) : m'.Ready push := by
  cases ins with
  | release n k => exact h.release_ready
  | releaseSub n k => exact h.releaseSub_ready
  | destroy n => exact h.destroy_ready
  | freeNode n => exact h.freeNode_ready
  | deleteArc a => exact h.deleteArc_ready
  | releaseControl c => exact h.releaseControl_ready
  | addArc n a site => exact h.addArc_ready
  | addArcCas n a seen site => exact h.addArcCas_ready
  | removeBackArc n p => exact h.removeBackArc_ready
  | notifyNextWriter n p => exact h.notifyNextWriter_ready
  | setNextWriter n p d => exact h.setNextWriter_ready
  | storeCountdown t canThrow count => exact h.storeCountdown_ready
  | loadException t count => exact h.loadException_ready
  | findTerminal t count => exact h.findTerminal_ready
  | retainTerminal t c count => exact h.retainTerminal_ready
  | closeList t canThrow terminal count => exact h.closeList_ready
  | loadFailureFlag t r count => exact h.loadFailureFlag_ready
  | notifyArcs t canThrow failed r count => exact h.notifyArcs_ready
  | outLoad t i count refs => exact h.outLoad_ready
  | outCas t i count refs => exact h.outCas_ready
  | outSub t i count refs => exact h.outSub_ready
  | outNotify t i count refs => exact h.outNotify_ready
  | wakeup t refs => exact h.wakeup_ready
  | removePrerequisite n k => exact h.removePrerequisite_ready
  | publish n source p => exact h.publish_ready
  | publishControl n source => exact h.publishControl_ready
  | retainSignal n c => exact h.retainSignal_ready
  | mark n b => exact h.mark_ready
  | markLoad n b => exact h.markLoad_ready
  | markCheck n b word => exact h.markCheck_ready
  | markCas n b word => exact h.markCas_ready
  | execute t => exact h.execute_ready
  | invoke t => exact h.invoke_ready
  | finish t env vals cells => exact h.finish_ready
  | storeStart t => exact h.storeStart_ready
  | addLife t => exact h.addLife_ready
  | forwardFailure t => exact h.forwardFailure_ready
  | setup f => exact h.setup_ready
  | assignHead f n p a => exact h.assignHead_ready
  | assignFailure f n p a => exact h.assignFailure_ready
  | assignIncrement f n p a => exact h.assignIncrement_ready
  | redirect n q t p a => exact h.redirect_ready
  | moveArcs n q t p r => exact h.moveArcs_ready
  | bind f => exact h.bind_ready
  | moveResult f r => exact h.moveResult_ready
  | runOps env ops after => exact h.runOps_ready
  | waitHead n => exact h.waitHead_ready
  | waitBlock n => exact h.waitBlock_ready
  | waitDone n => exact h.waitDone_ready
  | waitRead v => exact h.waitRead_ready
  | spawn n =>
    have hstep := h.step
    rw [exec, if_pos h.inLifetime] at hstep
    cases hstep
    exact Mem.ready_nil
  | waitStatus v =>
    have hstep := h.step
    rw [exec, if_pos h.inLifetime] at hstep
    cases hstep
    exact Mem.ready_nil

/-- A new thread starts in order. -/
theorem spawned_ready (h : Legal m spurious ins m' push spawned) :
    ∀ l ∈ spawned, m'.Ready l := by
  intro l hl
  rcases exec_spawned h.step l hl with ⟨n, rfl⟩ | ⟨env, ops, rfl⟩
  · simp [Instr.Ok]
  · simp [Instr.Ok, After.Ok]

end Legal

end Oox
