import Oox.Preservation.Legal

/-!
# What a step leaves to other instructions

An instruction that holds its tokens can rely on what it knew before the step of another
thread: the facts its `Ok` states stay true.
-/

set_option autoImplicit false

namespace Oox

open Library

variable {V : Type} [Inhabited V]

namespace Legal

variable {m m' : Mem V} {spurious : Bool} {ins j : Instr V} {push : List (Instr V)}
variable {spawned : List (List (Instr V))}

/-- A token of which the memory owes one is not shared. -/
theorem not_held (h : Legal m spurious ins m' push spawned) (hwith : With m ins j) {k : Token}
    (hj : 1 ≤ j.tokens k) (hone : 0 < -balance m k → -balance m k ≤ 1) : ins.tokens k = 0 := by
  have hsum := hwith k
  have hpos := h.nonneg k
  have hle := hone (by omega)
  omega

/-! ## Nodes -/

/-- A finished node stays finished. -/
theorem finished (h : Legal m spurious ins m' push spawned) {n : ℕ} (hn : n < m.nodes.size)
    (hfin : (m.node n).phase = .finished) : (m'.node n).phase = .finished := by
  rcases (h.changes.node n hn).phase with heq | hchange
  · rw [heq, hfin]
  · cases ins with
    | addArc n' a site =>
      cases site with
      | forward t =>
        obtain ⟨rfl, -⟩ := hchange
        have hphase := (forwarding_of_site h.covered).2
        rw [hfin] at hphase
        cases hphase
      | _ => exact hchange.elim
    | addArcCas n' a seen site =>
      cases site with
      | forward t =>
        obtain ⟨rfl, -⟩ := hchange
        have hphase := (forwarding_of_site (n := n') (a := a) h.covered).2
        rw [hfin] at hphase
        cases hphase
      | _ => exact hchange.elim
    | closeList t canThrow terminal count => exact hchange.2.1
    | removePrerequisite n' k =>
      obtain ⟨rfl, -⟩ := hchange
      have hpre := h.covered (.pre n)
      have hk : 0 < k := h.ok
      simp only [Instr.tokens, one_self, mul_one] at hpre
      have hle := (owed_pre (n := n) (m := m) (by omega) hpre).2
      rw [hfin] at hle
      simp only [Phase.prerequisites] at hle
      omega
    | storeStart t =>
      obtain ⟨rfl, -⟩ := hchange
      have hexec := h.covered (.exec n)
      simp only [Instr.tokens, running, one_self, arms] at hexec
      have hphase := (owed_exec (n := n) (m := m) (by omega)).2.1
      rw [hfin] at hphase
      cases hphase
    | bind f =>
      obtain ⟨rfl, -⟩ := hchange
      have hsetup := h.covered (.setup f.task)
      have hone := f.le_tokens_setup (c := f.count)
      simp only [Instr.tokens] at hsetup
      have hphase := (owed_setup (n := f.task) (m := m) (by omega)).2.1
      rw [hfin] at hphase
      cases hphase
    | _ => exact hchange.elim

/-- A list that was closed or redirected stays so. -/
theorem head_same (h : Legal m spurious ins m' push spawned) {n : ℕ} (hn : n < m.nodes.size)
    (hclosed : ∀ l, (m.node n).head ≠ .list l) : (m'.node n).head = (m.node n).head := by
  rcases (h.changes.node n hn).head with heq | hchange
  · exact heq
  · cases ins with
    | addArcCas n' a seen site => exact absurd hchange.2.1 (hclosed _)
    | closeList t canThrow terminal count =>
      obtain ⟨-, ⟨l, hl⟩, -⟩ := hchange
      exact absurd hl (hclosed l)
    | redirect n' q t p a =>
      obtain ⟨rfl, -⟩ := hchange
      obtain ⟨hkind, -, hredirect, -⟩ := h.ok
      have hdone := (h.mem.node n hn).deferred hkind
      cases hhead : (m.node n).head with
      | list l => exact absurd hhead (hclosed l)
      | done => simp [hhead, Head.isDone] at hdone
      | terminal b => simp [hhead, Head.isDone] at hdone
      | redirect d => exact absurd hhead (hredirect d)
    | _ => exact hchange.elim

/-- Only the holder of the right to set the next writer redirects a list. -/
theorem not_redirected (h : Legal m spurious ins m' push spawned) {n : ℕ}
    (hn : n < m.nodes.size) (hfresh : ∀ d, (m.node n).head ≠ .redirect d)
    (hcap : ins.tokens (.cap n 0) = 0) : ∀ d, (m'.node n).head ≠ .redirect d := by
  intro d hd
  rcases (h.changes.node n hn).head with heq | hchange
  · exact hfresh d (heq ▸ hd)
  · cases ins with
    | addArcCas n' a seen site =>
      rw [hchange.2.2] at hd
      cases hd
    | closeList t canThrow terminal count =>
      rw [hchange.2.2.1] at hd
      cases terminal <;> cases hd
    | redirect n' q t p a =>
      obtain ⟨rfl, -⟩ := hchange
      obtain ⟨-, rfl, -⟩ := h.ok
      simp [Instr.tokens, one] at hcap
    | _ => exact hchange.elim

/-- A body has not returned a var while another instruction has the right to run its task. -/
theorem inner_unset (h : Legal m spurious ins m' push spawned) (hwith : With m ins j) {t : ℕ}
    (hj : 1 ≤ j.tokens (.exec t)) (hset : (m.node t).innerSet = false) :
    (m'.node t).innerSet = false := by
  have hexec := h.not_held hwith hj fun hpos => (owed_exec hpos).2.2
  have ht : t < m.nodes.size := by
    have hsum := hwith (.exec t)
    exact (owed_exec (n := t) (m := m) (by omega)).1
  rcases (h.changes.node t ht).innerSet with heq | hchange
  · rw [heq, hset]
  · cases ins with
    | finish t' env vals cells =>
      obtain ⟨rfl, -⟩ := hchange
      have hvars := varTokens_nonneg env (.exec t)
      simp [Instr.tokens, running, arms] at hexec
      omega
    | destroy n => exact hchange.2
    | _ => exact hchange.elim

/-- A next writer that was set stays set. -/
theorem writer_set (h : Legal m spurious ins m' push spawned) {n p : ℕ} (hn : n < m.nodes.size)
    (hset : ((m.node n).out p).nextWriter ≠ .null) : ((m'.node n).out p).nextWriter ≠ .null := by
  rcases (h.changes.node n hn).nextWriter p with heq | hchange
  · rwa [heq]
  · cases ins with
    | setNextWriter n' p' d =>
      obtain ⟨-, -, hd, -⟩ := hchange
      rw [hd]
      exact h.ok.1
    | outCas t i count refs =>
      obtain ⟨-, -, -, hd⟩ := hchange
      simp [hd]
    | _ => exact hchange.elim

/-! ## Readers -/

/-- A reader that was counted stays counted. -/
theorem counted_le (h : Legal m spurious ins m' push spawned) (q p : ℕ) :
    counted m q p ≤ counted m' q p := by
  have hkeep : ∀ a < m.arcs.size, (m.arc a).reads.map Prod.snd = some (q, p) →
      (m.arc a).role = .charged ∨ (m.arc a).role = .spent →
      (m'.arc a).reads = (m.arc a).reads ∧
        ((m'.arc a).role = .charged ∨ (m'.arc a).role = .spent) := by
    intro a ha hreads hrole
    rcases h.changes.arc a ha with heq | hchange
    · rw [heq]
      exact ⟨rfl, hrole⟩
    · cases ins with
      | addArc n b site =>
        rw [hchange.2]
        exact ⟨rfl, .inr rfl⟩
      | addArcCas n b seen site =>
        obtain ⟨rfl, hx⟩ := hchange
        cases site with
        | forward t =>
          have hcov : Covered m (.addArc n a (.forward t)) := h.covered
          have hoffer := (arc_of_site hcov).2.2.2.2
          have hrole' := (Arc.token_offer hoffer).2.1
          simp [hrole'] at hrole
        | _ =>
          rw [hx]
          exact ⟨rfl, hrole⟩
      | freeNode n =>
        rw [hchange.2]
        exact ⟨rfl, .inr rfl⟩
      | deleteArc b =>
        rw [hchange.2]
        exact ⟨rfl, .inr rfl⟩
      | notifyArcs t canThrow failed r count =>
        rcases hchange.2 with ⟨hx, -⟩ | ⟨-, hx⟩
        · rw [hx]
          exact ⟨rfl, .inr rfl⟩
        · rw [hx]
          exact ⟨rfl, .inl rfl⟩
      | assignHead f n p' b =>
        obtain ⟨rfl, -⟩ := hchange
        have hwaiting := (arc_of_assign h.mem h.ok.1 h.covered).2.2.2.1
        simp [hwaiting] at hrole
      | assignIncrement f n p' b =>
        rw [hchange.2]
        exact ⟨rfl, .inl rfl⟩
      | moveArcs n q' t p' r =>
        have hlisted := one_le_listedTokens (n := n) (List.mem_of_mem_head? hchange.1)
        have hcov := h.covered (.listed a n)
        have hcap := one_nonneg (.cap n q') (.listed a n)
        have hpre := one_nonneg (.pre t) (.listed a n)
        simp only [Instr.tokens] at hcov
        obtain ⟨-, -, -, hsite, -, hlive⟩ := arc_of_listed h.mem (t := n) (a := a) (by omega)
        rcases hrole with hcharged | hspent
        · have hkind := ((h.mem.arc a ha).site (.inl hcharged)).2
          rw [hsite, h.ok.1] at hkind
          cases hkind
        · simp [hspent] at hlive
      | _ => exact hchange.elim
  have hle : ∀ a ∈ Finset.range m.arcs.size,
      (if (m.arc a).reads.map Prod.snd = some (q, p) ∧
        ((m.arc a).role = .charged ∨ (m.arc a).role = .spent) then (1 : ℤ) else 0) ≤
      if (m'.arc a).reads.map Prod.snd = some (q, p) ∧
        ((m'.arc a).role = .charged ∨ (m'.arc a).role = .spent) then 1 else 0 := by
    intro a ha
    split
    · rename_i hcond
      obtain ⟨hreads, hrole⟩ := hkeep a (Finset.mem_range.mp ha) hcond.1 hcond.2
      rw [if_pos ⟨hreads ▸ hcond.1, hrole⟩]
    · split <;> decide
  unfold counted Heap.sum
  apply (Finset.sum_le_sum hle).trans
  apply Finset.sum_le_sum_of_subset_of_nonneg (Finset.range_mono h.frozen.arcs_le)
  intro a _ _
  split <;> decide

theorem counters_ok (h : Legal m spurious ins m' push spawned) {t i : ℕ} {count : List ℤ}
    (hok : CountersOk m t i count) : CountersOk m' t i count := by
  intro p hi hp
  have hle := h.counted_le t p
  have hbias := hok p hi hp
  omega

/-! ## Vars -/

/-- Consuming the arguments of a body that writes no var object leaves the vars alone. -/
theorem invoke_var {t : ℕ} (htame : (Instr.invoke t : Instr V).Tame m)
    (h : Exec.invoke m t = .next m' push spawned) {v : ℕ} (hv : v < m.vars.size) :
    m'.var v = m.var v := by
  unfold Exec.invoke at h
  simp only at h
  split at h
  · cases h
  · rename_i m₁ vals hconsume
    have hsame := consumeAll_same htame hconsume
    cases h
    rw [Mem.var_newVars, Mem.vars_setNode, hsame.vars, if_neg (by omega)]
    exact hsame.var v

/-- Whoever holds a var is the only one to change it. -/
theorem var_same (h : Legal m spurious ins m' push spawned) (hwith : With m ins j) {v : ℕ}
    (hj : 1 ≤ j.tokens (.var v)) : m'.var v = m.var v := by
  have hno := h.not_held hwith hj fun hpos => (owed_var hpos).2
  have howed : 0 < -balance m (.var v) := by
    have hsum := hwith (.var v)
    omega
  have hv := (owed_var howed).1
  have hinner : ∀ t < m.nodes.size, (m.node t).kind = .task → v ≠ (m.node t).inner := by
    rintro t ht hkind rfl
    have hle := inner_not_owed ht hkind
    omega
  by_contra hne
  rcases h.changes.var v hv with heq | hchange
  · exact hne heq
  · cases ins with
    | destroy n =>
      have hdel := h.covered (.del n)
      simp only [Instr.tokens, one_self] at hdel
      have hn := (owed_del (n := n) (m := m) (by omega)).1
      exact hinner n hn ((h.mem.node n hn).inner hchange.2.1) hchange.1
    | invoke t =>
      have hstep := h.step
      rw [exec, if_pos h.inLifetime] at hstep
      exact hne (invoke_var h.tame hstep hv)
    | finish t env vals cells =>
      have hexec := h.covered (.exec t)
      have henv := varTokens_nonneg env (.exec t)
      simp only [Instr.tokens, running, one_self, arms] at hexec
      obtain ⟨ht, hphase, -⟩ := owed_exec (n := t) (m := m) (by omega)
      rcases hchange with ⟨w, hcell⟩ | ⟨hv', -⟩ | ⟨henv, -⟩
      · exact h.ok.2 w hcell
      · exact hinner t ht ((h.mem.node t ht).task (by simp [hphase])) hv'
      · have hone := one_le_varTokens henv
        simp [Instr.tokens, running, one, arms] at hno
        omega
    | setup f =>
      have hone := f.le_tokens_var (c := f.count) hchange.1
      simp only [Instr.tokens] at hno
      omega
    | moveResult f r =>
      have hone := one_le_varTokens (h.ok.1 v hchange.1)
      have howns := r.owns_nonneg (.var v)
      have hafter := f.after.tokens_nonneg (.var v)
      simp only [Instr.tokens] at hno
      omega
    | runOps env ops after =>
      have hone := one_le_varTokens hchange.1
      have hafter := after.tokens_nonneg (.var v)
      simp only [Instr.tokens] at hno
      omega
    | _ => exact hchange.elim

/-! ## Instructions -/

variable (h : Legal m spurious ins m' push spawned) (hwith : With m ins j)

include h in
theorem task_stays {n : ℕ} (hn : n < m.nodes.size ∧ (m.node n).kind = .task) :
    n < m'.nodes.size ∧ (m'.node n).kind = .task :=
  ⟨hn.1.trans_le h.frozen.nodes_le, (h.frozen.node n hn.1).kind.trans hn.2⟩

include h in
theorem finished_stays {n : ℕ} (hn : m.Finished n) : m'.Finished n :=
  ⟨hn.lt.trans_le h.frozen.nodes_le, h.finished hn.lt hn.phase⟩

include h in
theorem slots_stay {n : ℕ} (hn : m.Finished n) {count : List ℤ}
    (hlen : count.length = (m.node n).slots) : count.length = (m'.node n).slots := by
  rw [(h.frozen.node n hn.lt).slots, hlen]

include h hwith in
/-- Nobody else makes the body of a task return. -/
theorem after_ok {after : After V} (hj : ∀ k, after.tokens k ≤ j.tokens k) (hok : after.Ok m) :
    after.Ok m' := by
  cases after with
  | exit => trivial
  | body t vals cells =>
    have hexec := hj (.exec t)
    simp only [After.tokens, running, one_self, arms] at hexec
    exact ⟨h.inner_unset hwith (by omega) hok.1, hok.2⟩

include h hwith in
theorem frame_ok {f : Frame V} {c : ℕ} (hj : ∀ k, f.tokens c k ≤ j.tokens k) (hok : f.Ok m c) :
    f.Ok m' c :=
  ⟨hok.1, hok.2.1, h.after_ok hwith
    (fun k => (Frame.after_le_tokens (by have := hok.1; omega) k).trans (hj k)) hok.2.2⟩

include h hwith in
theorem assign_ok {f : Frame V} {n p a : ℕ}
    (hj : ∀ k, one (.arc a n) k + f.tokens (f.count + 1) k ≤ j.tokens k)
    (hok : AssignOk m f n p a) : AssignOk m' f n p a := by
  have hframe : ∀ k, f.tokens (f.count + 1) k ≤ j.tokens k := by
    intro k
    have hone := one_nonneg (.arc a n) k
    have hle := hj k
    omega
  have harc : m'.arc a = m.arc a := by
    apply h.arc_same hwith (k := .arc a n) rfl
    have hle := hj (.arc a n)
    rwa [f.tokens_eq_zero _ rfl, one_self] at hle
  obtain ⟨v, hv, hsource⟩ := hok.source
  have hvar : m'.var v = m.var v :=
    h.var_same hwith ((Frame.le_tokens_var hv).trans (hframe _))
  refine ⟨?_, ?_, ?_, h.frame_ok hwith hframe hok.frame, v, hv, ?_⟩
  · rw [harc, hok.kind]
  · rw [harc, hok.node]
  · rw [harc, hok.port]
  · rw [hvar]
    exact hsource

include h hwith in
theorem site_ok {n a : ℕ} {site : AddSite V} (hj : ∀ k, site.tokens n a k ≤ j.tokens k)
    (hok : site.Ok m n a) : site.Ok m' n a := by
  cases site with
  | assign f p => exact h.assign_ok hwith hj hok
  | assignTo f p => exact hok.elim
  | ownBack f =>
    refine ⟨hok.1, h.frame_ok hwith (fun k => ?_) hok.2⟩
    have hle := hj k
    have hone := one_nonneg (.arc a n) k
    simp only [AddSite.tokens] at hle
    omega
  | forward t =>
    have harc : m'.arc a = m.arc a := by
      apply h.arc_same hwith (k := .offer a n) rfl
      exact (AddSite.tokens_arc n a (.forward t : AddSite V)).ge.trans (hj _)
    show (m'.arc a).node = t
    rw [harc]
    exact hok
  | _ => trivial

include h hwith in
/-- A list a late reader found closed stays closed. -/
theorem late_ok {f : Frame V} {n p a : ℕ}
    (hj : ∀ k, one (.arc a n) k + f.tokens (f.count + 1) k ≤ j.tokens k)
    (hok : AssignOk m f n p a ∧ ∀ l, (m.node n).head ≠ .list l) :
    AssignOk m' f n p a ∧ ∀ l, (m'.node n).head ≠ .list l := by
  obtain ⟨v, hv, htask, -⟩ := hok.1.source
  have hvar : v < m.vars.size := by
    have hle := hj (.var v)
    have hone := one_nonneg (.arc a n) (.var v)
    have htoken := Frame.le_tokens_var (c := f.count + 1) hv
    have hsum := hwith (.var v)
    have hpos := h.nonneg (.var v)
    exact (owed_var (m := m) (by omega)).1
  have hn := ((h.mem.var v hvar).slot n htask).1
  exact ⟨h.assign_ok hwith hj hok.1, by rw [h.head_same hn hok.2]; exact hok.2⟩

include h hwith in
/-- What an instruction relies on survives the step of another one. -/
theorem ok_stable (hok : j.Ok m) : j.Ok m' := by
  have hown : ∀ k, 0 < j.tokens k → 0 < -balance m k := by
    intro k hk
    have hsum := hwith k
    have hpos := h.nonneg k
    omega
  have hslots : ∀ t, 0 < j.tokens (.exec t) → (m'.node t).slots = (m.node t).slots :=
    fun t ht => (h.frozen.node t (owed_exec (hown _ ht)).1).slots
  cases j with
  | release n k => exact fun hk => h.finished_stays (hok hk)
  | releaseSub n k => exact fun hk => h.finished_stays (hok hk)
  | addArc n a site => exact h.site_ok hwith (fun _ => le_rfl) hok
  | addArcCas n a seen site => exact h.site_ok hwith (fun _ => le_rfl) hok
  | storeCountdown t canThrow count =>
    exact ⟨hok.1.trans_eq (hslots t (completing_exec.ge.trans_lt' one_pos)).symm,
      h.counters_ok hok.2⟩
  | loadException t count =>
    exact ⟨hok.1.trans (hslots t (completing_exec.ge.trans_lt' one_pos)).symm,
      h.counters_ok hok.2⟩
  | findTerminal t count =>
    exact ⟨hok.1.trans (hslots t (completing_exec.ge.trans_lt' one_pos)).symm,
      h.counters_ok hok.2⟩
  | retainTerminal t c count =>
    exact ⟨hok.1.trans (hslots t (completing_exec.ge.trans_lt' one_pos)).symm,
      h.counters_ok hok.2⟩
  | closeList t canThrow terminal count =>
    refine ⟨hok.1.trans (hslots t ?_).symm, h.counters_ok hok.2⟩
    have hexec : completing t count (.exec t) = 1 := completing_exec
    unfold completing at hexec
    cases terminal <;> simp [Instr.tokens, hexec, one]
  | loadFailureFlag t r count =>
    exact ⟨h.slots_stay hok.2.2 hok.1, h.counters_ok hok.2.1, h.finished_stays hok.2.2⟩
  | notifyArcs t canThrow failed r count =>
    exact ⟨h.slots_stay hok.2.2 hok.1, h.counters_ok hok.2.1, h.finished_stays hok.2.2⟩
  | outLoad t i count refs =>
    exact ⟨h.slots_stay hok.2.2 hok.1, h.counters_ok hok.2.1, h.finished_stays hok.2.2⟩
  | outCas t i count refs =>
    obtain ⟨hlen, hcount, hfin, hi⟩ := hok
    exact ⟨h.slots_stay hfin hlen, h.counters_ok hcount, h.finished_stays hfin, hi⟩
  | outSub t i count refs =>
    obtain ⟨hlen, hcount, hfin, hi, hbias, hset⟩ := hok
    have hle := h.counted_le t i
    exact ⟨h.slots_stay hfin hlen, h.counters_ok hcount, h.finished_stays hfin, hi, by omega,
      h.writer_set hfin.lt hset⟩
  | outNotify t i count refs =>
    obtain ⟨hlen, hcount, hfin, hi⟩ := hok
    exact ⟨h.slots_stay hfin hlen, h.counters_ok hcount, h.finished_stays hfin, hi⟩
  | wakeup t refs => exact h.finished_stays hok
  | invoke t => exact h.inner_unset hwith (by simp [Instr.tokens, running, one, arms]) hok
  | finish t env vals cells =>
    refine ⟨h.inner_unset hwith ?_ hok.1, hok.2⟩
    have hvars := varTokens_nonneg env (.exec t)
    simp only [Instr.tokens, running, one_self, arms]
    omega
  | publish n source p => exact h.task_stays hok
  | publishControl n source => exact h.task_stays hok
  | retainSignal n c => exact h.task_stays hok
  | storeStart t =>
    have ht := (owed_exec (n := t) (m := m)
      (hown _ (by simp [Instr.tokens, running, one, arms]))).1
    exact (h.frozen.node t ht).resultKind.trans hok
  | setup f => exact h.frame_ok hwith (fun _ => le_rfl) hok
  | bind f => exact ⟨hok.1, h.frame_ok hwith (fun _ => le_rfl) hok.2⟩
  | assignHead f n p a => exact h.late_ok hwith (fun _ => le_rfl) hok
  | assignFailure f n p a => exact h.late_ok hwith (fun _ => le_rfl) hok
  | assignIncrement f n p a => exact h.late_ok hwith (fun _ => le_rfl) hok
  | redirect n q t p a =>
    obtain ⟨hkind, rfl, hfresh, ht, hp⟩ := hok
    have hcap : (Instr.redirect n 0 t p a : Instr V).tokens (.cap n 0) = 1 := by
      simp [Instr.tokens, one]
    have hn := (owed_cap (hown (.cap n 0) (by omega))).1
    have hno := h.not_held hwith hcap.ge fun hpos => (owed_cap hpos).2.2.2
    exact ⟨(h.frozen.node n hn).kind.trans hkind, rfl, h.not_redirected hn hfresh hno,
      ht.trans_le h.frozen.nodes_le, hp.trans_eq (h.frozen.node t ht).slots.symm⟩
  | moveArcs n q t p r =>
    obtain ⟨hkind, ht, hp⟩ := hok
    have hlisted := listedTokens_eq_zero (n := n) (l := r) (k := .cap n q) rfl
    have hn := (owed_cap (hown (.cap n q) (by simp [Instr.tokens, one, hlisted]))).1
    exact ⟨(h.frozen.node n hn).kind.trans hkind, ht.trans_le h.frozen.nodes_le,
      hp.trans_eq (h.frozen.node t ht).slots.symm⟩
  | moveResult f r =>
    obtain ⟨hdst, hafter, hborrowed, hshared, hdeferred, hkind⟩ := hok
    refine ⟨hdst, h.after_ok hwith (fun k => ?_) hafter, hborrowed, hshared, hdeferred,
      fun n htask => ?_⟩
    · have hvars := varTokens_nonneg f.env k
      have howns := r.owns_nonneg k
      simp only [Instr.tokens]
      omega
    · have hcap := Var.one_le_owns htask
      have hvars := varTokens_nonneg f.env (.cap n r.currentPort)
      have hafter := f.after.tokens_nonneg (.cap n r.currentPort)
      have howed := hown (.cap n r.currentPort) (by simp only [Instr.tokens]; omega)
      exact (h.frozen.node n (owed_cap howed).1).kind.trans (hkind n htask)
  | runOps env ops after =>
    refine h.after_ok hwith (fun k => ?_) hok
    have hvars := varTokens_nonneg env k
    simp only [Instr.tokens]
    omega
  | removePrerequisite n k => exact hok
  | setNextWriter n p d => exact hok
  | _ => trivial

end Legal

end Oox
