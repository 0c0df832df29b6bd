import Oox.Versions.StoreKept

/-!
# What an instruction knows about versions stays true

The versions that an instruction works on keep their storages, and the vars of a caller belong
to its thread. A body's results go to vars and nodes that other threads leave alone while the
task runs, because the task keeps their owners.
-/

set_option autoImplicit false

namespace Oox

open Library

variable {V : Type}

/-- A running task keeps the nodes whose storages it writes. -/
def WritesLive (m : Mem V) : Prop :=
  ∀ t < m.nodes.size, (m.node t).phase = .running → ∀ arg ∈ (m.node t).args,
    arg.mode.isWriter = true → ∀ o, m.Belongs (some o) arg.ptr.storage → (m.node o).status = .live

variable [Inhabited V]

namespace Legal

variable {m m' : Mem V} {spurious : Bool} {ins j : Instr V} {push rest : List (Instr V)}
variable {spawned : List (List (Instr V))}

/-- The var that a live task has returned stays as it is. -/
theorem inner_settled (h : Legal m spurious ins m' push spawned) {t : ℕ} (ht : t < m.nodes.size)
    (hkind : (m.node t).kind = .task) (hlive : (m.node t).status = .live)
    (hset : (m.var (m.node t).inner).currentTask ≠ none) :
    m'.var (m.node t).inner = m.var (m.node t).inner := by
  have hok := h.mem.inner t ht hkind
  have hheld := h.inner_not_held ht hkind
  by_contra hne
  rcases h.changes.var _ hok.lt with heq | hchange
  · exact hne heq
  · cases ins with
    | destroy q =>
      obtain ⟨hinner, hsetq, -⟩ := hchange
      obtain ⟨hq, hkindq⟩ := h.destroys hsetq
      obtain rfl := inner_inj hq ht hkindq hkind (h.balance_le _) hinner
      obtain ⟨-, hstatus, -⟩ := owed_del (h.owed (k := .del t) (by simp [Instr.tokens]))
      rw [hlive] at hstatus
      cases hstatus
    | invoke q => exact hne (h.invoke_var_same hok.lt)
    | finish q env vals cells =>
      rcases hchange with ⟨w, hcell⟩ | ⟨hinner, -⟩ | ⟨hmem, -⟩
      · exact h.ok.2 w hcell
      · obtain ⟨hq, -, hkindq⟩ := h.runs (t := q) finish_exec
        obtain rfl := inner_inj hq ht hkindq hkind (h.balance_le _) hinner
        exact hset (hok.unset h.ok.1)
      · have hone := one_le_varTokens hmem
        simp [Instr.tokens, running, one, arms] at hheld
        omega
    | setup f =>
      have hone := f.le_tokens_var (c := f.count) hchange.1
      simp only [Instr.tokens] at hheld
      omega
    | moveResult f r =>
      have hone := one_le_varTokens (h.ok.1 _ hchange.1)
      have howns := r.owns_nonneg (.var (m.node t).inner)
      have hafter := f.after.tokens_nonneg (.var (m.node t).inner)
      simp only [Instr.tokens] at hheld
      omega
    | runOps env ops after =>
      have hone := one_le_varTokens hchange.1
      have hafter := after.tokens_nonneg (.var (m.node t).inner)
      simp only [Instr.tokens] at hheld
      omega
    | _ => exact hchange.elim

/-- Arguments are recorded only while the task is set up. -/
theorem args_fixed (h : Legal m spurious ins m' push spawned) {t : ℕ} (ht : t < m.nodes.size)
    (hphase : (m.node t).phase ≠ .setup) : (m'.node t).args = (m.node t).args := by
  rcases (h.changes.node t ht).args with heq | hchange
  · exact heq
  · cases ins with
    | setup f =>
      obtain ⟨rfl, -⟩ := hchange
      exact absurd (h.sets_up (f := f) fun _ => le_rfl).2.1 hphase
    | _ => exact hchange.elim

/-- A body goes on writing to the storages it was given. -/
theorem after_stored (h : Legal m spurious ins m' push spawned) (hstore : StoreOk m)
    (hwrites : WritesLive m) {after : After V}
    (hrun : ∀ t ∈ after.task, t < m.nodes.size ∧ (m.node t).phase = .running)
    (hafter : after.Stored m) : after.Stored m' := by
  cases after with
  | exit => trivial
  | body t vals cells =>
    obtain ⟨ht, hphase⟩ := hrun t List.mem_cons_self
    intro n hn
    obtain ⟨arg, harg, hmode, hleads⟩ := hafter n hn
    refine ⟨arg, ?_, hmode, ?_⟩
    · rw [h.args_fixed ht (by simp [hphase])]
      exact harg
    · have hargs := hstore.arg t ht arg harg
      have hkept := hwrites t ht hphase arg harg hmode
      cases hptr : arg.ptr with
      | plain s =>
        rw [hptr] at hleads
        exact hleads
      | forwarded v =>
        have howner := hargs.owner
        rw [hptr] at hleads howner hkept
        obtain ⟨hstorage, q, hq⟩ := hleads
        obtain ⟨-, o, ho, hkind, rfl, rfl⟩ := howner
        have hlive := hkept o ⟨o, ho, hkind, rfl, rfl⟩
        have hsame := h.inner_settled ho hkind hlive (by simp [hq])
        exact ⟨by rw [hsame, hstorage], q, by rw [hsame, hq]⟩

/-- The task of a caller's body runs. -/
theorem after_runs (h : Legal m spurious ins m' push spawned) (hwith : With m ins j)
    {after : After V} (hj : ∀ k, after.tokens k ≤ j.tokens k) :
    ∀ t ∈ after.task, t < m.nodes.size ∧ (m.node t).phase = .running := by
  intro t ht
  cases after with
  | exit => cases ht
  | body q vals cells =>
    obtain rfl := List.mem_singleton.mp ht
    have hle := hj (.exec t)
    have hone : (After.body t vals cells : After V).tokens (.exec t) = 1 := by
      simp [After.tokens, running, one, arms]
    have hsum := hwith (.exec t)
    have hpos := h.nonneg (.exec t)
    obtain ⟨hlt, hphase, -⟩ := owed_exec (n := t) (m := m) (by omega)
    exact ⟨hlt, hphase⟩

/-- Another call of `run` goes on as it was. -/
theorem frame_stored (h : Legal m spurious ins m' push spawned) (hstore : StoreOk m)
    (hwrites : WritesLive m) (hwith : With m ins j) {f : Frame V} {c : ℕ}
    (hj : ∀ k, f.tokens c k ≤ j.tokens k) (hok : f.Ok m c)
    (hframe : f.Stored m) : f.Stored m' where
  port := by
    have hsetup := (Frame.le_tokens_setup (f := f) (c := c)).trans (hj _)
    have howed : 0 < -balance m (.setup f.task) := by
      have hsum := hwith (.setup f.task)
      have hpos := h.nonneg (.setup f.task)
      omega
    have ht := (owed_setup howed).1
    have hargs : (m'.node f.task).args = (m.node f.task).args := by
      rcases (h.changes.node f.task ht).args with heq | hchange
      · exact heq
      · cases ins with
        | setup f' =>
          have hzero := h.not_held hwith hsetup fun hpos => (owed_setup hpos).2.2
          have hone := Frame.le_tokens_setup (f := f') (c := f'.count)
          rw [← hchange.1] at hone
          simp only [Instr.tokens] at hzero
          omega
        | _ => exact hchange.elim
    rw [← hframe.port]
    unfold Node.written
    rw [hargs]
  env v hv n hn := by
    have hvar := (Frame.le_tokens_var (c := c) hv).trans (hj _)
    rw [h.var_same hwith hvar] at hn ⊢
    have hlt : v < m.vars.size := by
      have hsum := hwith (.var v)
      have hpos := h.nonneg (.var v)
      exact (owed_var (by omega)).1
    exact (hframe.env v hv n hn).stable ((h.mem.var v hlt).slot n hn).1 h.frozen
  after := by
    refine h.after_stored hstore hwrites ?_ hframe.after
    refine h.after_runs hwith fun k => ?_
    exact (Frame.after_le_tokens (by have := hok.1; omega) k).trans (hj k)

/-- What an instruction knows about versions stays true over the steps of others. -/
theorem stored_stable (h : Legal m spurious ins m' push spawned) (hstore : StoreOk m)
    (hwrites : WritesLive m) (hwith : ∀ x ∈ j :: rest, With m ins x) (hok : j.Ok m)
    (hj : j.Stored m rest) : j.Stored m' rest := by
  have hself : With m ins j := hwith j List.mem_cons_self
  have hsite : ∀ {n a : ℕ} {site : AddSite V}, (∀ k, site.tokens n a k ≤ j.tokens k) →
      site.Ok m n a → site.Stored m → site.Stored m' := by
    intro n a site hle hsok hs
    cases site with
    | assign f p =>
      refine h.frame_stored hstore hwrites hself (fun k => ?_) hsok.frame hs
      have hone := one_nonneg (.arc a n) k
      have hk := hle k
      simp only [AddSite.tokens] at hk
      omega
    | assignTo f p => exact hsok.elim
    | ownBack f =>
      refine h.frame_stored hstore hwrites hself (fun k => ?_) hsok.2 hs
      have hone := one_nonneg (.arc a n) k
      have hk := hle k
      simp only [AddSite.tokens] at hk
      omega
    | _ => trivial
  have hassign : ∀ {f : Frame V} {n p a : ℕ}, AssignOk m f n p a →
      (∀ k, one (.arc a n) k + f.tokens (f.count + 1) k ≤ j.tokens k) → f.Stored m →
      f.Stored m' := by
    intro f n p a hassign hle hs
    refine h.frame_stored hstore hwrites hself (fun k => ?_) hassign.frame hs
    have hone := one_nonneg (.arc a n) k
    have hk := hle k
    omega
  cases j with
  | addArc n a site => exact hsite (fun _ => le_rfl) hok hj
  | addArcCas n a seen site => exact hsite (fun _ => le_rfl) hok hj
  | setNextWriter n p d =>
    have hpasses : Passes m n p d := hj
    exact hpasses.stable h.frozen
  | redirect n q t p a =>
    have hfollows : Follows m n q t p := hj
    exact hfollows.stable h.frozen
  | moveArcs n q t p r =>
    have hfollows : Follows m n q t p := hj
    exact hfollows.stable h.frozen
  | finish t env vals cells =>
    have hafter : (After.body t vals cells : After V).Stored m := hj
    refine h.after_stored hstore hwrites (h.after_runs hself fun k => ?_) hafter
    have hvars := varTokens_nonneg env k
    simp only [Instr.tokens, After.tokens]
    omega
  | setup f => exact h.frame_stored hstore hwrites hself (fun _ => le_rfl) hok hj
  | bind f => exact h.frame_stored hstore hwrites hself (fun _ => le_rfl) hok.2 hj
  | assignHead f n p a => exact hassign hok.1 (fun _ => le_rfl) hj
  | assignFailure f n p a => exact hassign hok.1 (fun _ => le_rfl) hj
  | assignIncrement f n p a => exact hassign hok.1 (fun _ => le_rfl) hj
  | moveResult f r =>
    refine ⟨hj.1.stable h.frozen, ?_⟩
    refine h.after_stored hstore hwrites (h.after_runs hself fun k => ?_) hj.2
    have hvars := varTokens_nonneg f.env k
    have howns := r.owns_nonneg k
    simp only [Instr.tokens]
    omega
  | runOps env ops after =>
    refine h.after_stored hstore hwrites (h.after_runs hself fun k => ?_) hj
    have hvars := varTokens_nonneg env k
    simp only [Instr.tokens]
    omega
  | waitStatus v => exact hj
  | waitRead v =>
    obtain ⟨⟨x, hx, hpos⟩, n, htask⟩ := hj
    refine ⟨⟨x, hx, hpos⟩, n, ?_⟩
    rw [h.var_same (hwith x (List.mem_cons_of_mem _ hx)) hpos]
    exact htask
  | _ => trivial

end Legal

end Oox
