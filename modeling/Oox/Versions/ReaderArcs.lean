import Oox.Versions.Storage

/-!
# The arcs of readers

An arc that was made for a reader waits in the list of the task that makes the version, is then
charged to the version's countdown, and is spent when the reader completes; it is spent at once
when nobody waits for the version's readers. Every step keeps this.
-/

set_option autoImplicit false

namespace Oox

open Library

variable {V : Type}

section Roles

variable {m m' : Mem V} {x x' : Arc}

/-- An arc without a reader. -/
theorem ArcStored.plain (h : x.reads = none) : ArcStored m x where
  reads _ := h
  complete r q p hr := by simp [h] at hr
  spent r q p hr := by simp [h] at hr

/-- An arc that waits. -/
theorem ArcStored.waiting (hkind : x.kind = .flowOnly ∨ x.kind = .exceptionSignal → x.reads = none)
    (hrole : x.role = .waiting) : ArcStored m x where
  reads := hkind
  complete r q p _ hw := absurd hrole hw
  spent r q p _ hs := by simp [hrole] at hs

/-- An arc that is charged to the version of a completed task. -/
theorem ArcStored.charged (hkind : x.kind = .backOnly) (hrole : x.role = .charged)
    (hcomplete : ∀ r q p, x.reads = some (r, (q, p)) → (m.node q).phase = .finished) :
    ArcStored m x where
  reads hk := by simp [hkind] at hk
  complete r q p hr _ := hcomplete r q p hr
  spent r q p _ hs := by simp [hrole] at hs

/-- The kinds of arcs that no reader was made for. -/
theorem ArcOk.kind_of_role (h : ArcOk m x)
    (hrole : x.role = .offered ∨ x.role = .descriptor ∨ x.role = .payload) :
    x.kind = .flowOnly ∨ x.kind = .exceptionSignal := by
  have hallows := h.kind
  cases hk : x.kind <;> rcases hrole with hr | hr | hr <;> simp_all [ArcKind.Allows]

end Roles

variable [Inhabited V]

namespace Legal

variable {m m' : Mem V} {spurious : Bool} {ins : Instr V} {push : List (Instr V)}
variable {spawned : List (List (Instr V))}

/-- A version that nobody takes over stays so. -/
theorem noOwner_stays (h : Legal m spurious ins m' push spawned) {n p : ℕ} (hn : n < m.nodes.size)
    (hnone : ((m.node n).out p).nextWriter = .noOwner) :
    ((m'.node n).out p).nextWriter = .noOwner := by
  rcases (h.changes.node n hn).nextWriter p with heq | hchange
  · rw [heq, hnone]
  · cases ins with
    | setNextWriter n' p' d =>
      obtain ⟨-, -, -, hopen⟩ := hchange
      simp [hnone] at hopen
    | outCas t i count refs =>
      obtain ⟨-, -, hopen, -⟩ := hchange
      simp [hnone] at hopen
    | _ => exact hchange.elim

/-- What is known about a reader's arc does not depend on later steps. -/
theorem arcStored_stays (h : Legal m spurious ins m' push spawned) {x : Arc} (hok : ArcOk m x)
    (hx : ArcStored m x) : ArcStored m' x where
  reads := hx.reads
  complete r q p hr hw := h.finished (hok.reads r q p hr).2.1 (hx.complete r q p hr hw)
  spent r q p hr hs := by
    obtain ⟨⟨hreader, -⟩, hq, -⟩ := hok.reads r q p hr
    exact (hx.spent r q p hr hs).imp (h.finished hreader) (h.noOwner_stays hq)

/-- An arc that a call of `add_arc` hands back to be deleted has no reader. -/
theorem rejected_reads (h : Legal m spurious ins m' push spawned) {n a : ℕ} {site : AddSite V}
    (hstore : StoreOk m) (hins : ins = .addArc n a site) (hne : m'.arc a ≠ m.arc a) :
    (m.arc a).reads = none := by
  subst hins
  obtain ⟨ha, -, -, -, htoken⟩ := arc_of_site h.covered
  have hrole : (m.arc a).role = .offered ∨ (m.arc a).role = .payload := by
    have hstep := h.step
    rw [exec, if_pos h.inLifetime] at hstep
    simp only [Exec.addArc] at hstep
    split at hstep
    · cases hstep
      exact absurd rfl hne
    · cases site with
      | thrown => exact .inr (Arc.token_payload htoken).2.1
      | signal => exact .inr (Arc.token_payload htoken).2.1
      | forward t => exact .inl (Arc.token_offer htoken).2.1
      | assign f p =>
        cases hstep
        exact absurd rfl hne
      | assignTo f p =>
        cases hstep
        exact absurd rfl hne
      | ownBack f => cases hstep
      | back => cases hstep
      | moved => cases hstep
  apply (hstore.arc a ha).reads
  exact (h.mem.arc a ha).kind_of_role (hrole.imp id .inr)

/-- The next arc of a closed list after it was processed. -/
theorem notified_stored {t : ℕ} {canThrow failed : Bool} {r : List ℕ} {count : List ℤ} {a : ℕ}
    (h : Legal m spurious (.notifyArcs t canThrow failed r count) m' push spawned)
    (ha : a < m.arcs.size) (hx : ArcStored m (m.arc a)) (hhead : r.head? = some a)
    (hnone : (m.arc a).kind = .flowBack →
      ((m.node t).out (m.arc a).port).nextWriter = .noOwner) :
    ArcStored m { m.arc a with role := .spent, handled := (m.arc a).handled + 1 } := by
  have hok := h.mem.arc a ha
  have hallows := hok.kind
  obtain ⟨-, hsite, hrole⟩ := h.notified_arc hhead
  cases hkind : (m.arc a).kind with
  | flowOnly => exact .plain (hx.reads (.inl hkind))
  | exceptionSignal => exact .plain (hx.reads (.inr hkind))
  | flowBack =>
    have hwaiting : (m.arc a).role = .waiting := by
      rw [hkind] at hallows
      rcases hallows with hw | hs
      · exact hw
      · simp [hs] at hrole
    have hreads := hok.flowBack hkind hwaiting
    refine ⟨hx.reads, fun q s p hr _ => ?_, fun q s p hr _ => .inr ?_⟩
    · obtain ⟨-, rfl, rfl⟩ : _ ∧ (m.arc a).site = s ∧ (m.arc a).port = p := by
        simpa [hreads] using hr
      rw [hsite]
      exact h.ok.2.2.phase
    · obtain ⟨-, rfl, rfl⟩ : _ ∧ (m.arc a).site = s ∧ (m.arc a).port = p := by
        simpa [hreads] using hr
      rw [hsite]
      exact hnone hkind
  | backOnly =>
    have hcharged : (m.arc a).role = .charged := by
      rw [hkind] at hallows
      rcases hallows with hc | hs
      · exact hc
      · simp [hs] at hrole
    have hreads := hok.charged hcharged
    refine ⟨hx.reads, fun q s p hr _ => hx.complete q s p hr (by simp [hcharged]),
      fun q s p hr _ => .inl ?_⟩
    obtain ⟨rfl, -⟩ : (m.arc a).site = q ∧ _ := by simpa [hreads] using hr
    rw [hsite]
    exact h.ok.2.2.phase
  | flowCopy =>
    rw [hkind] at hallows
    exact hallows.elim
  | forwardCopy =>
    rw [hkind] at hallows
    exact hallows.elim

theorem arc_stored (h : Legal m spurious ins m' push spawned) (hstore : StoreOk m) {a : ℕ}
    (ha : a < m.arcs.size) : ArcStored m' (m'.arc a) := by
  have hok := h.mem.arc a ha
  have hx := hstore.arc a ha
  by_cases heq : m'.arc a = m.arc a
  · rw [heq]
    exact h.arcStored_stays hok hx
  · have hchange := (h.changes.arc a ha).resolve_left heq
    cases ins with
    | addArc n b site =>
      obtain ⟨rfl, hx'⟩ := hchange
      rw [hx']
      exact .plain (h.rejected_reads hstore rfl heq)
    | addArcCas n b seen site =>
      obtain ⟨rfl, hx'⟩ := hchange
      have hcov : Covered m (.addArc n a site) := h.covered
      obtain ⟨-, -, -, -, htoken⟩ := arc_of_site hcov
      have hstays := h.arcStored_stays hok hx
      rw [hx']
      cases site with
      | forward t =>
        apply ArcStored.plain
        exact hx.reads (hok.kind_of_role (.inl (Arc.token_offer htoken).2.1))
      | _ => exact ⟨hstays.reads, hstays.complete, hstays.spent⟩
    | freeNode n =>
      obtain ⟨hhead, hx'⟩ := hchange
      obtain ⟨hn, hstatus, -⟩ := owed_del (h.owed (k := .del n) (by simp [Instr.tokens]))
      have hdead : (m.node n).status ≠ .dead := by simp [hstatus]
      rw [hx']
      apply ArcStored.plain
      apply hx.reads
      apply hok.kind_of_role
      rcases hhead with hhead | hhead
      · obtain ⟨-, -, htoken⟩ := arc_of_head (k := .payload a n) rfl hn hdead
          (by simp [hhead, Head.tokens]) (h.balance_le _)
        exact .inr (.inr (Arc.token_payload htoken).2.1)
      · obtain ⟨-, -, htoken⟩ := arc_of_head (k := .descriptor a n) rfl hn hdead
          (by simp [hhead, Head.tokens]) (h.balance_le _)
        exact .inr (.inl (Arc.token_descriptor htoken).2.1)
    | deleteArc b =>
      obtain ⟨rfl, hx'⟩ := hchange
      obtain ⟨-, -, htoken⟩ := owed_arc (k := .spent a) rfl (h.owed (by simp [Instr.tokens]))
      have hrole := (Arc.token_spent htoken).2
      have hstays := h.arcStored_stays hok hx
      rw [hx']
      exact ⟨hstays.reads, fun r q p hr _ => hstays.complete r q p hr (by simp [hrole]),
        fun r q p hr _ => hstays.spent r q p hr hrole⟩
    | notifyArcs t canThrow failed r count =>
      obtain ⟨hhead, ⟨hx', hnone⟩ | ⟨hkind, hx'⟩⟩ := hchange
      · rw [hx']
        have hspent : ArcOk m { m.arc a with role := .spent, handled := (m.arc a).handled + 1 } :=
          hok.spent rfl rfl (h.notified_arc hhead).1 rfl
        exact h.arcStored_stays hspent (h.notified_stored ha hx hhead hnone)
      · obtain ⟨-, hsite, hrole⟩ := h.notified_arc hhead
        have hwaiting : (m.arc a).role = .waiting := by
          have hallows := hok.kind
          rw [hkind] at hallows
          rcases hallows with hw | hs
          · exact hw
          · simp [hs] at hrole
        have hreads := hok.flowBack hkind hwaiting
        rw [hx']
        refine .charged rfl rfl fun q s p hr => ?_
        obtain ⟨-, rfl, -⟩ : _ ∧ (m.arc a).site = s ∧ _ := by simpa [hreads] using hr
        rw [hsite]
        exact h.finished h.ok.2.2.lt h.ok.2.2.phase
    | assignHead f n p b =>
      obtain ⟨rfl, d, hhead, -⟩ := hchange
      obtain ⟨v, hv, htask, -⟩ := h.ok.1.source
      have hlt := (owed_var (h.owed (k := .var v) (by
        have hone := Frame.le_tokens_var (c := f.count + 1) hv
        have harc := one_nonneg (.arc a n) (.var v)
        simp only [Instr.tokens]
        omega))).1
      exact absurd hhead ((h.mem.var v hlt).fresh n htask d)
    | assignIncrement f n p b =>
      obtain ⟨rfl, hx'⟩ := hchange
      obtain ⟨-, -, -, -, -, -, hreads⟩ := arc_of_assign h.mem h.ok.1 h.covered
      obtain ⟨-, hn, -⟩ := hok.reads _ _ _ hreads
      rw [hx']
      refine .charged rfl rfl fun r q p' hr => ?_
      obtain ⟨-, rfl, -⟩ : _ ∧ n = q ∧ _ := by simpa [hreads] using hr
      apply h.finished hn
      by_contra hphase
      obtain ⟨l, hl⟩ := (h.mem.node n hn).opened hphase
      exact h.ok.2 l hl
    | moveArcs n q t p r =>
      obtain ⟨hhead, hx'⟩ := hchange
      obtain ⟨-, -, -, hwaiting⟩ := h.moved_arc hhead
      rw [hx']
      refine .waiting (fun hkind => ?_) hwaiting
      show (m.arc a).reads.map _ = none
      rw [hx.reads hkind]
      rfl
    | _ => exact hchange.elim

theorem arc_stored_new (h : Legal m spurious ins m' push spawned) {a : ℕ}
    (hge : m.arcs.size ≤ a) (ha : a < m'.arcs.size) : ArcStored m' (m'.arc a) := by
  obtain ⟨-, hbirth⟩ := h.changes.newArc a hge ha
  cases ins with
  | retainTerminal t c count =>
    rw [hbirth.2]
    exact .plain rfl
  | retainSignal n c =>
    rw [hbirth.2]
    exact .plain rfl
  | finish t env vals cells =>
    rw [show m'.arc a = _ from hbirth]
    exact .plain rfl
  | addLife t =>
    obtain ⟨n, -, hx⟩ := hbirth
    rw [hx]
    exact .plain rfl
  | setup f =>
    obtain ⟨v, n, -, -, ⟨-, hx⟩ | hx⟩ := hbirth
    · rw [hx]
      exact .plain rfl
    · rw [hx]
      exact .waiting (fun hk => by simp at hk) rfl
  | _ => exact hbirth.elim

/-- Only spent arcs are deleted. -/
theorem deleted_spent (h : Legal m spurious ins m' push spawned) (hstore : StoreOk m) {a : ℕ}
    (ha : a < m'.arcs.size) (hdead : (m'.arc a).alive = false) : (m'.arc a).role = .spent := by
  by_cases hold : a < m.arcs.size
  · have hsame := hstore.deleted a hold
    by_cases heq : m'.arc a = m.arc a
    · rw [heq] at hdead ⊢
      exact hsame hdead
    · have hchange := (h.changes.arc a hold).resolve_left heq
      cases ins with
      | addArc n b site => rw [hchange.2]
      | addArcCas n b seen site =>
        obtain ⟨rfl, hx'⟩ := hchange
        have hcov : Covered m (.addArc n a site) := h.covered
        rw [hx', (arc_of_site hcov).2.1] at hdead
        cases hdead
      | freeNode n => rw [hchange.2]
      | deleteArc b => rw [hchange.2]
      | notifyArcs t canThrow failed r count =>
        obtain ⟨hhead, ⟨hx', -⟩ | ⟨-, hx'⟩⟩ := hchange
        · rw [hx']
        · have halive : (m.arc a).alive = true :=
            h.alive (by cases r <;> simp_all [touchesArcs])
          rw [hx'] at hdead
          simp [halive] at hdead
      | assignHead f n p b =>
        obtain ⟨rfl, d, -, hx'⟩ := hchange
        rw [hx'] at hdead ⊢
        exact hsame hdead
      | assignIncrement f n p b =>
        obtain ⟨rfl, hx'⟩ := hchange
        rw [hx', (arc_of_assign h.mem h.ok.1 h.covered).2.1] at hdead
        cases hdead
      | moveArcs n q t p r =>
        obtain ⟨-, hx'⟩ := hchange
        rw [hx'] at hdead ⊢
        exact hsame hdead
      | _ => exact hchange.elim
  · obtain ⟨-, hbirth⟩ := h.changes.newArc a (by omega) ha
    cases ins with
    | retainTerminal t c count =>
      rw [hbirth.2] at hdead
      cases hdead
    | retainSignal n c =>
      rw [hbirth.2] at hdead
      cases hdead
    | finish t env vals cells =>
      rw [show m'.arc a = _ from hbirth] at hdead
      cases hdead
    | addLife t =>
      obtain ⟨n, -, hx⟩ := hbirth
      rw [hx] at hdead
      cases hdead
    | setup f =>
      obtain ⟨v, n, -, -, ⟨-, hx⟩ | hx⟩ := hbirth
      · rw [hx] at hdead
        cases hdead
      · rw [hx] at hdead
        cases hdead
    | _ => exact hbirth.elim

end Legal

end Oox
