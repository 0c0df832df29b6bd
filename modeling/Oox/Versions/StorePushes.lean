import Oox.Versions.StoreStable

/-!
# What a step leaves on its stack

Most instructions push nothing that speaks of versions. The others pass on what they know: a
call of `run` from argument to argument, a redirect to the arcs it moves, a var that is dropped
to the end marker of its version, a body's arguments to the storages its results go to.
-/

set_option autoImplicit false

namespace Oox

open Library

variable {V : Type}

/-! ## Instructions that know nothing about versions -/

/-- An instruction that carries nothing knows nothing about versions. -/
theorem Instr.bare_stored {j : Instr V} (hj : j.bare = true) (m : Mem V) (rest : List (Instr V)) :
    j.Stored m rest := by
  have hsite : ∀ {site : AddSite V}, site.bare = true → site.Stored m := by
    intro site hs
    cases site <;> trivial
  cases j with
  | addArc n a site => exact hsite hj
  | addArcCas n a seen site => exact hsite hj
  | _ => trivial

/-- Such instructions may be pushed on every stack. -/
theorem stackOk_bare {m : Mem V} {push rest : List (Instr V)} (hpush : ∀ j ∈ push, j.bare = true)
    (hrest : StackOk Instr.Stored m rest) : StackOk Instr.Stored m (push ++ rest) := by
  induction push with
  | nil => exact hrest
  | cons j push ih =>
    refine ⟨Instr.bare_stored (hpush j List.mem_cons_self) m _, ih fun x hx => ?_⟩
    exact hpush x (List.mem_cons_of_mem _ hx)

/-! ## Vars that are dropped -/

/-- The end marker of a dropped var ends the var's version. -/
theorem releaseVar_stored {m : Mem V} {u : Var} {l : List (Instr V)} (hu : u.Stored m)
    (hl : StackOk Instr.Stored m l) : StackOk Instr.Stored m (releaseVar u ++ l) := by
  cases htask : u.currentTask with
  | none =>
    unfold releaseVar
    rw [htask]
    exact hl
  | some n =>
    unfold releaseVar
    rw [htask]
    exact ⟨hu.passes htask, hl⟩

theorem assignVar_stored {m m' : Mem V} {v : ℕ} {r : Var} {next push rest : List (Instr V)}
    {spawned : List (List (Instr V))} (h : Exec.assignVar m v r next = .next m' push spawned)
    (hu : (m.var v).Stored m') (hnext : StackOk Instr.Stored m' (next ++ rest)) :
    StackOk Instr.Stored m' (push ++ rest) := by
  unfold Exec.assignVar at h
  dsimp only at h
  split at h
  · cases h
  · cases h
    rw [List.append_assoc]
    exact releaseVar_stored hu hnext

/-! ## Calls that go on -/

variable [Inhabited V]

namespace Legal

variable {m m' : Mem V} {spurious : Bool} {ins : Instr V} {push rest : List (Instr V)}
variable {spawned : List (List (Instr V))}

/-- The body a call returns to is running. -/
theorem after_own (h : Legal m spurious ins m' push spawned) {after : After V}
    (hle : ∀ k, after.tokens k ≤ ins.tokens k) :
    ∀ t ∈ after.task, t < m.nodes.size ∧ (m.node t).phase = .running := by
  intro t ht
  cases after with
  | exit => cases ht
  | body q vals cells =>
    obtain rfl := List.mem_singleton.mp ht
    have hexec := hle (.exec t)
    have hone : (After.body t vals cells : After V).tokens (.exec t) = 1 := by
      simp [After.tokens, running, one, arms]
    obtain ⟨hlt, hphase, -⟩ := h.runs (t := t) (by omega)
    exact ⟨hlt, hphase⟩

/-- A call goes on with the arguments its task has and the vars of its caller. -/
theorem frame_own (h : Legal m spurious ins m' push spawned) (hstore : StoreOk m)
    (hwrites : WritesLive m) {f : Frame V} {c : ℕ} (hle : ∀ k, f.tokens c k ≤ ins.tokens k)
    (hok : f.Ok m c) (hne : ∀ f, ins ≠ .setup f) (hvars : ∀ v ∈ f.env, m'.var v = m.var v)
    (hframe : f.Stored m) : f.Stored m' where
  port := by
    rw [← hframe.port]
    unfold Node.written
    rw [h.args_same hne (h.sets_up hle).1]
  env v hv n hn := by
    rw [hvars v hv] at hn ⊢
    have hvar := (Frame.le_tokens_var (c := c) hv).trans (hle _)
    have hlt := (owed_var (h.owed (k := .var v) (by omega))).1
    exact (hframe.env v hv n hn).stable ((h.mem.var v hlt).slot n hn).1 h.frozen
  after := by
    refine h.after_stored hstore hwrites (h.after_own fun k => ?_) hframe.after
    exact (Frame.after_le_tokens (by have := hok.1; omega) k).trans (hle k)

omit [Inhabited V] in
theorem frame_count {f : Frame V} (hframe : f.Stored m) (c : ℕ) (args : List Arg) :
    ({ f with count := c, args := args } : Frame V).Stored m :=
  ⟨hframe.port, hframe.env, hframe.after⟩

/-- The call that a call site of `add_arc` belongs to goes on. -/
theorem site_own (h : Legal m spurious ins m' push spawned) (hstore : StoreOk m)
    (hwrites : WritesLive m) {n a : ℕ} {site : AddSite V}
    (hle : ∀ k, site.tokens n a k ≤ ins.tokens k) (hok : site.Ok m n a)
    (hne : ∀ f, ins ≠ .setup f) (hvars : ∀ v, m'.var v = m.var v) (hsite : site.Stored m) :
    site.Stored m' := by
  cases site with
  | assign f p =>
    refine h.frame_own hstore hwrites (c := f.count + 1) (fun k => ?_) hok.frame hne
      (fun v _ => hvars v) hsite
    have hone := one_nonneg (.arc a n) k
    have hk := hle k
    simp only [AddSite.tokens] at hk
    omega
  | assignTo f p => exact hok.elim
  | ownBack f =>
    refine h.frame_own hstore hwrites (c := f.count) (fun k => ?_) hok.2 hne
      (fun v _ => hvars v) hsite
    have hone := one_nonneg (.arc a n) k
    have hk := hle k
    simp only [AddSite.tokens] at hk
    omega
  | _ => trivial

/-- A step of bookkeeping changes no var. -/
theorem vars_quiet (h : Legal m spurious ins m' push spawned) (hquiet : ins.quiet = true) (v : ℕ) :
    m'.var v = m.var v := by
  have hvars := ((exec_quiet spurious hquiet).of_next h.step).vars
  unfold Mem.var
  rw [hvars]

theorem addArc_stored {n a : ℕ} {site : AddSite V}
    (h : Legal m spurious (.addArc n a site) m' push spawned) (hstore : StoreOk m)
    (hwrites : WritesLive m) (hins : (Instr.addArc n a site : Instr V).Stored m rest)
    (hrest : StackOk Instr.Stored m' rest) : StackOk Instr.Stored m' (push ++ rest) := by
  have hsite : site.Stored m' :=
    h.site_own hstore hwrites (fun _ => le_rfl) h.ok (fun f hf => by cases hf)
      (h.vars_quiet rfl) hins
  have hstep := h.step
  rw [exec, if_pos h.inLifetime, Exec.addArc] at hstep
  split at hstep
  · cases hstep
    exact ⟨hsite, hrest⟩
  · cases site with
    | assign f p =>
      cases hstep
      exact ⟨hsite, hrest⟩
    | assignTo f p => exact h.ok.elim
    | thrown =>
      cases hstep
      exact stackOk_bare (by simp [Instr.bare]) hrest
    | signal =>
      cases hstep
      exact stackOk_bare (by simp [Instr.bare]) hrest
    | forward t =>
      cases hstep
      refine stackOk_bare ?_ hrest
      split <;> simp [Instr.bare]
    | _ => cases hstep

theorem addArcCas_stored {n a : ℕ} {seen : List ℕ} {site : AddSite V}
    (h : Legal m spurious (.addArcCas n a seen site) m' push spawned) (hstore : StoreOk m)
    (hwrites : WritesLive m) (hins : (Instr.addArcCas n a seen site : Instr V).Stored m rest)
    (hrest : StackOk Instr.Stored m' rest) : StackOk Instr.Stored m' (push ++ rest) := by
  have hsite : site.Stored m' :=
    h.site_own (n := n) (a := a) hstore hwrites (fun _ => le_rfl) h.ok (fun f hf => by cases hf)
      (h.vars_quiet rfl) hins
  have hstep := h.step
  rw [exec, if_pos h.inLifetime, Exec.addArcCas] at hstep
  split at hstep
  · cases site with
    | assign f p =>
      cases hstep
      exact ⟨frame_count hsite _ _, hrest⟩
    | assignTo f p => exact h.ok.elim
    | ownBack f =>
      cases hstep
      exact ⟨hsite, hrest⟩
    | _ =>
      cases hstep
      exact stackOk_bare (by simp [Exec.added, Instr.bare]) hrest
  · cases hstep
    exact ⟨hsite, hrest⟩

/-- The arc of a late reader: the call goes on. -/
theorem assign_own (h : Legal m spurious ins m' push spawned) (hstore : StoreOk m)
    (hwrites : WritesLive m) {f : Frame V} {n p a : ℕ} (hassign : AssignOk m f n p a)
    (hle : ∀ k, one (.arc a n) k + f.tokens (f.count + 1) k ≤ ins.tokens k)
    (hne : ∀ f, ins ≠ .setup f) (hvars : ∀ v, m'.var v = m.var v) (hframe : f.Stored m) :
    f.Stored m' := by
  refine h.frame_own hstore hwrites (c := f.count + 1) (fun k => ?_) hassign.frame hne
    (fun v _ => hvars v) hframe
  have hone := one_nonneg (.arc a n) k
  have hk := hle k
  omega

theorem assignHead_stored {f : Frame V} {n p a : ℕ}
    (h : Legal m spurious (.assignHead f n p a) m' push spawned) (hstore : StoreOk m)
    (hwrites : WritesLive m) (hins : (Instr.assignHead f n p a : Instr V).Stored m rest)
    (hrest : StackOk Instr.Stored m' rest) : StackOk Instr.Stored m' (push ++ rest) := by
  have hframe : f.Stored m' := h.assign_own hstore hwrites h.ok.1 (fun _ => le_rfl)
    (fun f hf => by cases hf) (h.vars_quiet rfl) hins
  have hstep := h.step
  rw [exec, if_pos h.inLifetime, Exec.assignHead] at hstep
  split at hstep
  · cases hstep
    exact ⟨hframe, hrest⟩
  · cases hstep
    exact ⟨hframe, hrest⟩

theorem assignFailure_stored {f : Frame V} {n p a : ℕ}
    (h : Legal m spurious (.assignFailure f n p a) m' push spawned) (hstore : StoreOk m)
    (hwrites : WritesLive m) (hins : (Instr.assignFailure f n p a : Instr V).Stored m rest)
    (hrest : StackOk Instr.Stored m' rest) : StackOk Instr.Stored m' (push ++ rest) := by
  have hframe : f.Stored m' := h.assign_own hstore hwrites h.ok.1 (fun _ => le_rfl)
    (fun f hf => by cases hf) (h.vars_quiet rfl) hins
  have hstep := h.step
  rw [exec, if_pos h.inLifetime] at hstep
  cases hstep
  rw [List.append_assoc]
  refine stackOk_bare ?_ ⟨hframe, hrest⟩
  split <;> simp [Instr.bare]

theorem assignIncrement_stored {f : Frame V} {n p a : ℕ}
    (h : Legal m spurious (.assignIncrement f n p a) m' push spawned) (hstore : StoreOk m)
    (hwrites : WritesLive m) (hins : (Instr.assignIncrement f n p a : Instr V).Stored m rest)
    (hrest : StackOk Instr.Stored m' rest) : StackOk Instr.Stored m' (push ++ rest) := by
  have hframe : f.Stored m' := h.assign_own hstore hwrites h.ok.1 (fun _ => le_rfl)
    (fun f hf => by cases hf) (h.vars_quiet rfl) hins
  have hstep := h.step
  rw [exec, if_pos h.inLifetime, Exec.assignIncrement_eq] at hstep
  dsimp only at hstep
  split at hstep
  · cases hstep
    exact ⟨hframe, hrest⟩
  · cases hstep

theorem redirect_stored {n q t p a : ℕ}
    (h : Legal m spurious (.redirect n q t p a) m' push spawned)
    (hins : (Instr.redirect n q t p a : Instr V).Stored m rest)
    (hrest : StackOk Instr.Stored m' rest) : StackOk Instr.Stored m' (push ++ rest) := by
  have hfollows : Follows m n q t p := hins
  have hstep := h.step
  rw [exec, if_pos h.inLifetime] at hstep
  cases hstep
  exact ⟨hfollows.stable h.frozen, hrest⟩

theorem moveArcs_stored {n q t p : ℕ} {r : List ℕ}
    (h : Legal m spurious (.moveArcs n q t p r) m' push spawned)
    (hins : (Instr.moveArcs n q t p r : Instr V).Stored m rest)
    (hrest : StackOk Instr.Stored m' rest) : StackOk Instr.Stored m' (push ++ rest) := by
  have hfollows : Follows m n q t p := hins
  have hkept := hfollows.stable h.frozen
  have hstep := h.step
  rw [exec, if_pos h.inLifetime] at hstep
  cases r with
  | nil =>
    cases hstep
    exact ⟨⟨p, hkept⟩, hrest⟩
  | cons b r =>
    cases hstep
    exact ⟨trivial, hkept, hrest⟩

theorem bind_stored {f : Frame V} (h : Legal m spurious (.bind f) m' push spawned)
    (hstore : StoreOk m) (hwrites : WritesLive m)
    (hins : (Instr.bind f : Instr V).Stored m rest)
    (hrest : StackOk Instr.Stored m' rest) : StackOk Instr.Stored m' (push ++ rest) := by
  have hframe : f.Stored m := hins
  obtain ⟨ht, -, hkind⟩ := h.sets_up (f := f) (c := f.count) fun _ => le_rfl
  have hafter : f.after.Stored m' := by
    refine h.after_stored hstore hwrites (h.after_own fun k => ?_) hframe.after
    exact Frame.after_le_tokens (by have := h.ok.2.1; omega) k
  have hresult := (resultVar_stored ht hkind).stable h.frozen
  have hstep := h.step
  rw [exec, if_pos h.inLifetime] at hstep
  cases hstep
  exact ⟨trivial, ⟨hresult, hafter⟩, hrest⟩

theorem destroy_stored {n : ℕ} (h : Legal m spurious (.destroy n) m' push spawned)
    (hstore : StoreOk m) (hrest : StackOk Instr.Stored m' rest) :
    StackOk Instr.Stored m' (push ++ rest) := by
  have hvar : (m.node n).innerSet = true → (m.var (m.node n).inner).Stored m' := by
    intro hset
    obtain ⟨hn, hkind⟩ := h.destroys hset
    exact (hstore.var _ (h.mem.inner n hn hkind).lt).stable h.frozen
  have hstep := h.step
  rw [exec, if_pos h.inLifetime] at hstep
  simp only [Exec.destroy] at hstep
  split at hstep
  · rename_i hset
    cases hstep
    rw [List.append_assoc]
    exact releaseVar_stored (hvar hset) ⟨trivial, hrest⟩
  · cases hstep
    exact ⟨trivial, hrest⟩

/-- A body writes to the storages of its task's written arguments. -/
theorem invoke_stored {t : ℕ} (h : Legal m spurious (.invoke t) m' push spawned)
    (hstore : StoreOk m) (hwrites : WritesLive m) (hrest : StackOk Instr.Stored m' rest) :
    StackOk Instr.Stored m' (push ++ rest) := by
  obtain ⟨ht, hphase, -⟩ := h.runs (t := t) (by simp [Instr.tokens, running, one, arms])
  have hargs := h.args_fixed ht (by simp [hphase])
  have hcells : ∀ n, StoragePtr.result n ∈ Exec.writtenCells m (m.node t).args →
      ∃ arg ∈ (m'.node t).args, arg.mode.isWriter = true ∧ m'.LeadsTo n arg.ptr := by
    intro n hn
    obtain ⟨arg, hmem, hresolve⟩ := List.mem_map.mp hn
    obtain ⟨harg, hmode⟩ := List.mem_filter.mp hmem
    refine ⟨arg, hargs ▸ harg, hmode, ?_⟩
    have howner := (hstore.arg t ht arg harg).owner
    have hkept := hwrites t ht hphase arg harg hmode
    cases hptr : arg.ptr with
    | plain s =>
      rw [hptr] at hresolve
      exact hresolve
    | forwarded v =>
      rw [hptr] at hresolve howner hkept
      obtain ⟨-, o, ho, hkind, rfl, rfl⟩ := howner
      have hlive := hkept o ⟨o, ho, hkind, rfl, rfl⟩
      have hsame := h.invoke_var_same (h.mem.inner o ho hkind).lt
      have hstorage : (m.var (m.node o).inner).storage = .result n := hresolve
      refine ⟨by rw [hsame, hstorage], ?_⟩
      rw [hsame]
      cases htask : (m.var (m.node o).inner).currentTask with
      | some q => exact ⟨q, rfl⟩
      | none =>
        have hnull := hstore.inner o ho hkind hlive htask
        rw [hstorage] at hnull
        cases hnull
  have hstep := h.step
  rw [exec, if_pos h.inLifetime] at hstep
  simp only [Exec.invoke] at hstep
  split at hstep
  · cases hstep
  · cases hstep
    exact ⟨hcells, hrest⟩

theorem moveResult_stored {f : Frame V} {r : Var}
    (h : Legal m spurious (.moveResult f r) m' push spawned) (hstore : StoreOk m)
    (hwrites : WritesLive m) (hins : (Instr.moveResult f r : Instr V).Stored m rest)
    (hrest : StackOk Instr.Stored m' rest) : StackOk Instr.Stored m' (push ++ rest) := by
  have hafter : f.after.Stored m' := by
    refine h.after_stored hstore hwrites (h.after_own fun k => ?_) hins.2
    have hvars := varTokens_nonneg f.env k
    have howns := r.owns_nonneg k
    simp only [Instr.tokens]
    omega
  have hresult := hins.1.stable h.frozen
  have hdst : ∀ v, f.dst = some v → (m.var v).Stored m' := by
    intro v hv
    have hmem := h.ok.1 v hv
    have hlt := (h.var_of_env (e := f.env) (fun w hw => by
      have hone := one_le_varTokens hw
      have howns := r.owns_nonneg (.var w)
      have hpos := f.after.tokens_nonneg (.var w)
      simp only [Instr.tokens]
      omega) hmem).1
    exact (hstore.var v hlt).stable h.frozen
  have hstep := h.step
  rw [exec, if_pos h.inLifetime, Exec.moveResult] at hstep
  split at hstep
  · cases hstep
    rw [List.append_assoc]
    exact releaseVar_stored hresult ⟨hafter, hrest⟩
  · rename_i v hv
    dsimp only at hstep
    split at hstep
    · cases hstep
    · cases hstep
      rw [List.append_assoc]
      exact releaseVar_stored (hdst v hv) ⟨hafter, hrest⟩

/-- The vars of a call name earlier versions, as long as they do not change. -/
theorem frame_env {f : Frame V} (h : Legal m spurious (.setup f) m' push spawned)
    (hframe : f.Stored m) {v : ℕ} (hv : v ∈ f.env) {n : ℕ} (hn : (m.var v).currentTask = some n) :
    Precedes m' n (m.var v).currentPort f.task f.port :=
  (hframe.env v hv n hn).stable ((h.frame_var hv).2.slot n hn).1 h.frozen

theorem frame_after {f : Frame V} (h : Legal m spurious (.setup f) m' push spawned)
    (hstore : StoreOk m) (hwrites : WritesLive m) (hframe : f.Stored m) : f.after.Stored m' := by
  refine h.after_stored hstore hwrites (h.after_own fun k => ?_) hframe.after
  exact Frame.after_le_tokens (by have := h.ok.1; omega) k

/-- A writer makes the next version of its var, and its call goes on with the next port. -/
theorem setup_writer {f : Frame V} (h : Legal m spurious (.setup f) m' push spawned)
    (hstore : StoreOk m) (hwrites : WritesLive m) (hframe : f.Stored m) {x v q : ℕ}
    {mode : AccessMode} {l : List Arg} (hargs : f.args = .var x mode :: l) (hv : v ∈ f.env)
    (htask : (m.var v).currentTask = some q) (hmode : mode.isWriter = true)
    (hnodes : m'.nodes = (m.record f.task (argOf (m.var v) q mode)).nodes)
    (hvars : ∀ w, m'.var w = if w = v then (m.var v).takenBy f.task f.port else m.var w) :
    Follows m' q (m.var v).currentPort f.task f.port ∧ (f.afterWriter l).Stored m' := by
  obtain ⟨ht, -, hkind⟩ := h.sets_up (f := f) (c := f.count) fun _ => le_rfl
  have htaken := h.takenBy_stored hstore hframe hv htask hmode hnodes
  have hversion := ((hstore.var v (h.frame_var hv).1).version q htask).stable h.frozen
  have hslot := h.slot_of_writes ⟨x, mode, l, hargs, hmode⟩
  have hsame := h.frozen.node f.task ht
  have hwritten : (m'.node f.task).written =
      (m.node f.task).written ++ [argOf (m.var v) q mode] := by
    unfold Mem.node
    rw [hnodes]
    show ((m.record f.task (argOf (m.var v) q mode)).node f.task).written = _
    rw [Mem.node_record_self, written_record hmode]
    rfl
  have hover : Over m' (q, (m.var v).currentPort) (f.task, f.port) := by
    refine ⟨(m.node f.task).written.length, argOf (m.var v) q mode, hframe.port.symm, ?_, rfl⟩
    show (m'.node f.task).written[_]? = _
    rw [hwritten, List.getElem?_append_right le_rfl, Nat.sub_self]
    rfl
  refine ⟨⟨⟨ht.trans_le h.frozen.nodes_le, hsame.kind.trans hkind⟩,
    hslot.trans_eq hsame.slots.symm, ⟨_, hversion, htaken.version f.task rfl⟩,
    h.frame_env hframe hv htask, hover⟩, ?_, fun w hw n hn => ?_,
    h.frame_after hstore hwrites hframe⟩
  · show (m'.node f.task).written.length + 1 = f.port + 1
    rw [hwritten, List.length_append, List.length_singleton, hframe.port]
  · show Precedes m' n (m'.var w).currentPort f.task (f.port + 1)
    rw [hvars] at hn ⊢
    split at hn
    · rename_i heq
      rw [if_pos heq]
      obtain rfl : f.task = n := Option.some.inj hn
      exact fun _ => .inr ⟨rfl, Nat.lt_succ_self _⟩
    · rename_i hne
      rw [if_neg hne]
      intro hk
      exact (h.frame_env hframe hw hn hk).imp id fun ⟨heq, hlt⟩ => ⟨heq, Nat.lt_succ_of_lt hlt⟩

/-- A call of `run` after one of its arguments was set up. -/
theorem setup_stored {f : Frame V} (h : Legal m spurious (.setup f) m' push spawned)
    (hstore : StoreOk m) (hwrites : WritesLive m)
    (hins : (Instr.setup f : Instr V).Stored m rest)
    (hrest : StackOk Instr.Stored m' rest) : StackOk Instr.Stored m' (push ++ rest) := by
  have hframe : f.Stored m := hins
  obtain ⟨ht, -, hkind⟩ := h.sets_up (f := f) (c := f.count) fun _ => le_rfl
  have hafter := h.frame_after hstore hwrites hframe
  obtain ⟨hsetup, -⟩ := h.setup_step
  cases hsetup with
  | done hargs => exact ⟨hframe, hrest⟩
  | plain hargs => exact ⟨⟨hframe.port, hframe.env, hframe.after⟩, hrest⟩
  | @fresh x v mode l hargs hv hempty hown =>
    refine ⟨⟨?_, fun w hw n hn => ?_, hafter⟩, hrest⟩
    · rw [← hframe.port]
      show ((m.newNode _).node f.task).written.length + 1 = _
      rw [Mem.node_newNode, if_neg (by omega)]
    · rw [Mem.var_setVar] at hn ⊢
      split at hn
      · -- a storage node comes before every task
        obtain rfl : m.nodes.size = n := Option.some.inj hn
        intro hk
        have hnode := (h.changes.newNode m.nodes.size le_rfl (Nat.lt_succ_self _)).2
        rw [hnode] at hk
        cases hk
      · rename_i hne
        rw [if_neg hne]
        exact h.frame_env hframe hw hn
  | @read x v q mode l hargs hv htask hmode hpolicy =>
    refine ⟨⟨?_, fun w hw n hn => h.frame_env hframe hw hn, hafter⟩, hrest⟩
    rw [← hframe.port]
    show ((m.record f.task (argOf (m.var v) q mode)).node f.task).written.length + 1 = _
    rw [Mem.node_record_self, written_record_reader hmode]
  | write hargs hv htask hmode hown hpolicy hport hnow =>
    obtain ⟨hfollows, hnext⟩ := h.setup_writer hstore hwrites hframe hargs hv htask hmode rfl
      fun w => Mem.var_setVar _ _ _ _
    exact ⟨⟨f.port, hfollows⟩, hnext, hrest⟩
  | redirect hargs hv htask hmode hown hpolicy hport hdeferred =>
    obtain ⟨hfollows, hnext⟩ := h.setup_writer hstore hwrites hframe hargs hv htask hmode rfl
      fun w => Mem.var_setVar _ _ _ _
    exact ⟨hfollows, hnext, hrest⟩

/-- An operation of a thread drops the var it replaces, or starts a call with nothing set up. -/
theorem runOps_stored {env : List ℕ} {ops : List (Op V)} {after : After V}
    (h : Legal m spurious (.runOps env ops after) m' push spawned) (hstore : StoreOk m)
    (hwrites : WritesLive m) (hins : (Instr.runOps env ops after : Instr V).Stored m rest)
    (hrest : StackOk Instr.Stored m' rest) : StackOk Instr.Stored m' (push ++ rest) := by
  have hafter : after.Stored m' := by
    refine h.after_stored hstore hwrites (h.after_own fun k => ?_) hins
    have hvars := varTokens_nonneg env k
    simp only [Instr.tokens]
    omega
  have hnext : ∀ l, StackOk Instr.Stored m' ([Instr.runOps env l after] ++ rest) :=
    fun l => ⟨hafter, hrest⟩
  have hheld : ∀ l, ∀ v ∈ env, 0 < (Instr.runOps env l after : Instr V).tokens (.var v) := by
    intro l v hv
    have hone := one_le_varTokens hv
    have hpos := after.tokens_nonneg (.var v)
    simp only [Instr.tokens]
    omega
  have hvar : ∀ v ∈ env, v < m.vars.size ∧ (m.var v).Stored m' := by
    intro v hv
    have hlt := (h.var_of_env (e := env) (hheld ops) hv).1
    exact ⟨hlt, (hstore.var v hlt).stable h.frozen⟩
  have htame := h.tame
  have hstep := h.step
  rw [exec, if_pos h.inLifetime] at hstep
  cases ops with
  | nil =>
    cases after with
    | exit =>
      cases hstep
      exact hrest
    | body t vals cells =>
      cases hstep
      exact ⟨hafter, hrest⟩
  | cons op ops =>
    cases op with
    | toNode dst src => exact htame.elim
    | moveNode dst src => exact htame.elim
    | empty x canThrow =>
      simp only [Exec.runOps] at hstep
      split at hstep
      · cases hstep
      · rename_i w hw
        exact assignVar_stored hstep (hvar w (List.mem_of_getElem? hw)).2 (hnext ops)
    | value x canThrow v =>
      simp only [Exec.runOps] at hstep
      split at hstep
      · cases hstep
      · rename_i w hw
        exact assignVar_stored hstep (hvar w (List.mem_of_getElem? hw)).2 (hnext ops)
    | deferred x canThrow =>
      simp only [Exec.runOps] at hstep
      split at hstep
      · cases hstep
      · rename_i w hw
        exact assignVar_stored hstep (hvar w (List.mem_of_getElem? hw)).2 (hnext ops)
    | destroy x =>
      simp only [Exec.runOps] at hstep
      split at hstep
      · cases hstep
      · rename_i w hw
        exact assignVar_stored hstep (hvar w (List.mem_of_getElem? hw)).2 (hnext ops)
    | move dst src =>
      simp only [Exec.runOps] at hstep
      split at hstep
      · rename_i d s hd hs
        split at hstep
        · cases hstep
        · have hold : ((m.setVar s { m.var s with currentTask := none }).var d).Stored m' := by
            rw [Mem.var_setVar]
            split
            · exact .none rfl
            · exact (hvar d (List.mem_of_getElem? hd)).2
          split at hstep
          · cases hstep
          · exact assignVar_stored hstep hold (hnext ops)
      · cases hstep
    | run dst args canThrow kind code =>
      have hnodes : ∀ v ∈ env, ∀ n, (m.var v).currentTask = some n → n < m.nodes.size :=
        fun v hv n hn => ((hstore.var v (hvar v hv).1).version n hn).lt
      cases hstep
      refine ⟨⟨?_, fun v hv n hn => ?_, hafter⟩, hrest⟩
      · show ((m.newNode _).node m.nodes.size).written.length + 1 = 1
        rw [Mem.node_newNode, if_pos rfl]
        rfl
      · have hsame : ((m.newNode (taskNode args canThrow kind code m.vars.size)).newVar {}).var v =
            m.var v := by
          have hlt := (hvar v hv).1
          rw [Mem.var_newVar, Mem.vars_newNode, if_neg (by omega), Mem.var_newNode]
        rw [hsame] at hn ⊢
        exact fun _ => .inl (hnodes v hv n hn)
    | cancel x =>
      simp only [Exec.runOps] at hstep
      repeat' split at hstep
      all_goals first
        | (cases hstep; exact hnext ops)
        | (cases hstep; exact ⟨trivial, hnext ops⟩)
        | cases hstep
    | wait x =>
      simp only [Exec.runOps] at hstep
      split at hstep
      · cases hstep
      · rename_i v hv
        split at hstep
        · cases hstep
        · cases hstep
          have hkept := hheld ops v (List.mem_of_getElem? hv)
          exact ⟨trivial, ⟨_, List.mem_cons_self, hkept⟩, hnext ops⟩
    | get x =>
      simp only [Exec.runOps] at hstep
      split at hstep
      · cases hstep
      · rename_i v hv
        split at hstep
        · cases hstep
        · rename_i n htask
          cases hstep
          have hkept := hheld ops v (List.mem_of_getElem? hv)
          exact ⟨trivial, ⟨⟨_, List.mem_cons_self, hkept⟩, n, htask⟩, hnext ops⟩
    | fork xs locals ops' =>
      cases hstep
      exact hnext ops

/-! ## All instructions -/

/-- What a step pushes knows the versions it works on. -/
theorem pushes_stored (h : Legal m spurious ins m' push spawned) (hstore : StoreOk m)
    (hwrites : WritesLive m) (hins : ins.Stored m rest)
    (hrest : StackOk Instr.Stored m' rest) : StackOk Instr.Stored m' (push ++ rest) := by
  cases hbare : ins.pushesBare with
  | true => exact stackOk_bare (exec_bare hbare h.step) hrest
  | false =>
    cases ins with
    | destroy n => exact h.destroy_stored hstore hrest
    | addArc n a site => exact h.addArc_stored hstore hwrites hins hrest
    | addArcCas n a seen site => exact h.addArcCas_stored hstore hwrites hins hrest
    | invoke t => exact h.invoke_stored hstore hwrites hrest
    | setup f => exact h.setup_stored hstore hwrites hins hrest
    | assignHead f n p a => exact h.assignHead_stored hstore hwrites hins hrest
    | assignFailure f n p a => exact h.assignFailure_stored hstore hwrites hins hrest
    | assignIncrement f n p a => exact h.assignIncrement_stored hstore hwrites hins hrest
    | redirect n q t p a => exact h.redirect_stored hins hrest
    | moveArcs n q t p r => exact h.moveArcs_stored hins hrest
    | bind f => exact h.bind_stored hstore hwrites hins hrest
    | moveResult f r => exact h.moveResult_stored hstore hwrites hins hrest
    | runOps env ops after => exact h.runOps_stored hstore hwrites hins hrest
    | _ => cases hbare

theorem spawned_stored (h : Legal m spurious ins m' push spawned) :
    ∀ l ∈ spawned, StackOk Instr.Stored m' l := by
  intro l hl
  rcases exec_spawned h.step l hl with ⟨n, rfl⟩ | ⟨env, ops, rfl⟩
  · exact ⟨trivial, trivial, trivial⟩
  · exact ⟨trivial, trivial⟩

end Legal

end Oox
