import Oox.Preservation.Nodes

/-!
# Arcs after a step

A step leaves every arc well formed, the arcs it makes included: the version an arc was made
for stays known while the arc is moved, charged and spent.
-/

set_option autoImplicit false

namespace Oox

open Library

variable {V : Type}

/-! ## Arcs that change their role -/

section Roles

variable {m m' : Mem V} {x x' : Arc}

theorem ArcKind.Allows.spent {kind : ArcKind} {role : ArcRole} (h : kind.Allows role) :
    kind.Allows .spent := by
  cases kind <;> simp_all [ArcKind.Allows]

/-- A well-formed arc stays so while the program allocates nodes. -/
theorem ArcOk.mono (h : ArcOk m x) (hfrozen : Frozen m m') : ArcOk m' x where
  kind := h.kind
  accepted := h.accepted
  flowBack := h.flowBack
  charged := h.charged
  reads r q p hreads := by
    obtain ⟨⟨hr, hkind⟩, hq, hp⟩ := h.reads r q p hreads
    exact ⟨⟨hr.trans_le hfrozen.nodes_le, (hfrozen.node r hr).kind.trans hkind⟩,
      hq.trans_le hfrozen.nodes_le, hp.trans_eq (hfrozen.node q hq).slots.symm⟩
  port hrole := by
    obtain ⟨hn, hp⟩ := h.port hrole
    exact ⟨hn.trans_le hfrozen.nodes_le, hp.trans_eq (hfrozen.node _ hn).slots.symm⟩
  descriptor hrole := by
    obtain ⟨hn, hp⟩ := h.descriptor hrole
    exact ⟨hn.trans_le hfrozen.nodes_le, hp.trans_eq (hfrozen.node _ hn).slots.symm⟩
  payload hrole := by
    obtain ⟨hn, hkind⟩ := h.payload hrole
    exact ⟨hn.trans_le hfrozen.nodes_le, (hfrozen.node _ hn).kind.trans hkind⟩

/-- An arc that is about to be deleted, or was. -/
theorem ArcOk.spent (h : ArcOk m x) (hkind : x'.kind = x.kind) (hrole : x'.role = .spent)
    (heq : x'.accepted = x'.handled) (hreads : x'.reads = x.reads) : ArcOk m x' where
  kind := by
    rw [hkind, hrole]
    exact h.kind.spent
  accepted := .inl heq
  flowBack _ hw := by simp [hrole] at hw
  charged hc := by simp [hrole] at hc
  reads := by
    rw [hreads]
    exact h.reads
  port hw := by simp [hrole] at hw
  descriptor hd := by simp [hrole] at hd
  payload hp := by simp [hrole] at hp

/-- An arc that became one unit of the countdown of the version it was made for. -/
theorem ArcOk.charge (h : ArcOk m x) (hkind : x'.kind = .backOnly) (hrole : x'.role = .charged)
    (heq : x'.accepted = x'.handled) (hreads : x'.reads = x.reads)
    (hversion : x.reads = some (x'.site, (x'.node, x'.port))) : ArcOk m x' where
  kind := by
    rw [hkind, hrole]
    exact .inl rfl
  accepted := .inl heq
  flowBack hk := by simp [hkind] at hk
  charged _ := hreads.trans hversion
  reads := by
    rw [hreads]
    exact h.reads
  port hw := by simp [hrole] at hw
  descriptor hd := by simp [hrole] at hd
  payload hp := by simp [hrole] at hp

/-- An arc that `add_arc` put into a list. -/
theorem ArcOk.accept (h : ArcOk m x) (heq : x.accepted = x.handled)
    (hrole : x.role = .waiting ∨ x.role = .charged ∨ x.role = .payload) :
    ArcOk m { x with accepted := x.accepted + 1 } where
  kind := h.kind
  accepted := .inr ⟨congrArg (· + 1) heq, hrole⟩
  flowBack := h.flowBack
  charged := h.charged
  reads := h.reads
  port := h.port
  descriptor := h.descriptor
  payload := h.payload

/-- The arc of a forwarding task that the inner task accepted. -/
theorem ArcOk.forwarded (h : ArcOk m x) (heq : x.accepted = x.handled)
    (hrole : x.role = .offered) :
    ArcOk m { x with accepted := x.accepted + 1, role := .waiting } := by
  have hkind : x.kind = .flowOnly := by
    have hallows := h.kind
    rw [hrole] at hallows
    cases hk : x.kind <;> simp_all [ArcKind.Allows]
  exact
    { kind := by rw [hkind]; exact .inl rfl
      accepted := .inr ⟨congrArg (· + 1) heq, .inl rfl⟩
      flowBack := fun hk => by simp [hkind] at hk
      charged := fun hc => by cases hc
      reads := h.reads
      port := fun _ => h.port (.inr hrole)
      descriptor := fun hd => by cases hd
      payload := fun hp => by cases hp }

/-- A waiting arc that is sent to another version. -/
theorem ArcOk.reroute (h : ArcOk m x) (hkind : x'.kind = x.kind) (hrole : x.role = .waiting)
    (hrole' : x'.role = .waiting) (heq : x'.accepted = x'.handled)
    (hversion : x'.site < m.nodes.size ∧ x'.port < (m.node x'.site).slots)
    (hflow : x'.kind = .flowBack → x'.reads = some (x'.node, (x'.site, x'.port)))
    (hreads : ∀ r q p, x'.reads = some (r, (q, p)) →
      (r < m.nodes.size ∧ (m.node r).kind = .task) ∧ q = x'.site ∧ p = x'.port) :
    ArcOk m x' where
  kind := by
    rw [hkind, hrole', ← hrole]
    exact h.kind
  accepted := .inl heq
  flowBack hk _ := hflow hk
  charged hc := by simp [hrole'] at hc
  reads r q p hr := by
    obtain ⟨hreader, rfl, rfl⟩ := hreads r q p hr
    exact ⟨hreader, hversion⟩
  port _ := hversion
  descriptor hd := by simp [hrole'] at hd
  payload hp := by simp [hrole'] at hp

/-- A new exception payload. -/
theorem ArcOk.newPayload {n c : ℕ} (hn : n < m.nodes.size) (hkind : (m.node n).kind = .task) :
    ArcOk m (Exec.payloadArc n c) where
  kind := .inl rfl
  accepted := .inl rfl
  flowBack hk := by cases hk
  charged hc := by cases hc
  reads r q p hr := by cases hr
  port hw := by simp [Exec.payloadArc] at hw
  descriptor hd := by cases hd
  payload _ := ⟨hn, hkind⟩

end Roles

variable [Inhabited V]

namespace Legal

variable {m m' : Mem V} {spurious : Bool} {ins : Instr V} {push : List (Instr V)}
variable {spawned : List (List (Instr V))}

/-! ## Old arcs -/

/-- The next arc of a closed list was accepted and not processed yet. -/
theorem notified_arc {t : ℕ} {canThrow failed : Bool} {r : List ℕ} {count : List ℤ} {a : ℕ}
    (h : Legal m spurious (.notifyArcs t canThrow failed r count) m' push spawned)
    (ha : r.head? = some a) :
    (m.arc a).accepted = (m.arc a).handled + 1 ∧ (m.arc a).site = t ∧
      ((m.arc a).role = .waiting ∨ (m.arc a).role = .charged ∨ (m.arc a).role = .payload) := by
  have hlisted := one_le_listedTokens (n := t) (List.mem_of_mem_head? ha)
  have hcount : counters t 0 count (.listed a t) = 0 := counters_eq_zero (by simp) (by simp)
  have hcov := h.covered (.listed a t)
  simp only [Instr.tokens, hcount] at hcov
  obtain ⟨-, -, heq, hsite, -, hrole⟩ := arc_of_listed h.mem (t := t) (a := a) (by omega)
  exact ⟨heq, hsite, hrole⟩

/-- The next arc of a deferred var waits for its writer. -/
theorem moved_arc {n q t p : ℕ} {r : List ℕ} {a : ℕ}
    (h : Legal m spurious (.moveArcs n q t p r) m' push spawned) (ha : r.head? = some a) :
    a < m.arcs.size ∧ (m.arc a).accepted = (m.arc a).handled + 1 ∧ (m.arc a).site = n ∧
      (m.arc a).role = .waiting := by
  have hlisted := one_le_listedTokens (n := n) (List.mem_of_mem_head? ha)
  have hcov := h.covered (.listed a n)
  have hcap := one_nonneg (.cap n q) (.listed a n)
  have hpre := one_nonneg (.pre t) (.listed a n)
  simp only [Instr.tokens] at hcov
  obtain ⟨ha, -, heq, hsite, -, hrole⟩ := arc_of_listed h.mem (t := n) (a := a) (by omega)
  refine ⟨ha, heq, hsite, ?_⟩
  rcases hrole with hwaiting | hother
  · exact hwaiting
  · have hkind := ((h.mem.arc a ha).site hother).2
    rw [hsite, h.ok.1] at hkind
    cases hkind

/-- A redirected list names the slot of the first writer. -/
theorem redirected (h : Legal m spurious ins m' push spawned) {n d : ℕ}
    (hlive : (m.node n).status = .live) (hhead : (m.node n).head = .redirect d) :
    (m.arc d).node < m.nodes.size ∧ (m.arc d).port < (m.node (m.arc d).node).slots := by
  obtain ⟨hd, -, htoken⟩ := arc_of_head (k := .descriptor d n) rfl (h.mem.lt_of_live hlive)
    (by simp [hlive]) (by simp [hhead, Head.tokens]) (h.balance_le _)
  exact (h.mem.arc d hd).descriptor (Arc.token_descriptor htoken).2.1

theorem arc_ok (h : Legal m spurious ins m' push spawned) {a : ℕ} (ha : a < m.arcs.size) :
    ArcOk m' (m'.arc a) := by
  have hok := h.mem.arc a ha
  rcases h.changes.arc a ha with heq | hchange
  · rw [heq]
    exact hok.mono h.frozen
  · refine ArcOk.mono ?_ h.frozen
    cases ins with
    | addArc n b site =>
      obtain ⟨rfl, hx⟩ := hchange
      obtain ⟨-, -, heq, -, -⟩ := arc_of_site h.covered
      rw [hx]
      exact hok.spent rfl rfl heq rfl
    | addArcCas n b seen site =>
      obtain ⟨rfl, hx⟩ := hchange
      have hcov : Covered m (.addArc n a site) := h.covered
      obtain ⟨-, -, heq, -, htoken⟩ := arc_of_site hcov
      rw [hx]
      cases site with
      | forward t => exact hok.forwarded heq (Arc.token_offer htoken).2.1
      | thrown => exact hok.accept heq (.inr (.inr (Arc.token_payload htoken).2.1))
      | signal => exact hok.accept heq (.inr (.inr (Arc.token_payload htoken).2.1))
      | _ => exact hok.accept heq ((Arc.token_arc htoken).2.1.imp id .inl)
    | freeNode n =>
      obtain ⟨hhead, hx⟩ := hchange
      obtain ⟨hn, hstatus, -⟩ := owed_del (h.owed (k := .del n) (by simp [Instr.tokens]))
      have hdead : (m.node n).status ≠ .dead := by simp [hstatus]
      rw [hx]
      refine hok.spent rfl rfl ?_ rfl
      rcases hhead with hhead | hhead
      · obtain ⟨-, -, htoken⟩ := arc_of_head (k := .payload a n) rfl hn hdead
          (by simp [hhead, Head.tokens]) (h.balance_le _)
        exact (Arc.token_payload htoken).1
      · obtain ⟨-, -, htoken⟩ := arc_of_head (k := .descriptor a n) rfl hn hdead
          (by simp [hhead, Head.tokens]) (h.balance_le _)
        exact (Arc.token_descriptor htoken).1
    | deleteArc b =>
      obtain ⟨rfl, hx⟩ := hchange
      obtain ⟨-, -, htoken⟩ := owed_arc (k := .spent a) rfl (h.owed (by simp [Instr.tokens]))
      rw [hx]
      exact hok.spent rfl rfl (Arc.token_spent htoken).1 rfl
    | notifyArcs t canThrow failed r count =>
      obtain ⟨hhead, hx⟩ := hchange
      obtain ⟨heq, hsite, hrole⟩ := h.notified_arc hhead
      rcases hx with ⟨hx, -⟩ | ⟨hkind, hx⟩
      · rw [hx]
        exact hok.spent rfl rfl heq rfl
      · have hwaiting : (m.arc a).role = .waiting := by
          have hallows := hok.kind
          rw [hkind] at hallows
          rcases hallows with hw | hs
          · exact hw
          · simp [hs] at hrole
        have hreads := hok.flowBack hkind hwaiting
        rw [hsite] at hreads
        rw [hx]
        exact hok.charge rfl rfl heq rfl hreads
    | assignHead f n p b =>
      obtain ⟨rfl, d, hhead, hx⟩ := hchange
      obtain ⟨-, -, heq, hwaiting, -, -, hreads⟩ := arc_of_assign h.mem h.ok.1 h.covered
      have hlive : (m.node n).status = .live := h.live List.mem_cons_self
      rw [hx]
      refine hok.reroute rfl hwaiting hwaiting heq (h.redirected hlive hhead) (fun _ => ?_) ?_
      · show some _ = some ((m.arc a).node, _)
        rw [h.ok.1.node]
      · intro r q p hr
        cases hr
        exact ⟨(hok.reads _ _ _ hreads).1, rfl, rfl⟩
    | assignIncrement f n p b =>
      obtain ⟨rfl, hx⟩ := hchange
      obtain ⟨-, -, heq, -, -, -, hreads⟩ := arc_of_assign h.mem h.ok.1 h.covered
      rw [← h.ok.1.port] at hreads
      rw [hx]
      exact hok.charge rfl rfl heq rfl hreads
    | moveArcs n q t p r =>
      obtain ⟨hhead, hx⟩ := hchange
      obtain ⟨-, heq, hsite, hwaiting⟩ := h.moved_arc hhead
      rw [hx]
      refine hok.reroute rfl hwaiting hwaiting heq h.ok.2 (fun hkind => ?_) ?_
      · show (m.arc a).reads.map _ = _
        rw [hok.flowBack hkind hwaiting]
        rfl
      · intro r q' p' hr
        obtain ⟨⟨r', q, p⟩, hreads, heq'⟩ := Option.map_eq_some_iff.mp hr
        cases heq'
        exact ⟨(hok.reads _ _ _ hreads).1, rfl, rfl⟩
    | _ => exact hchange.elim

/-! ## New arcs -/

/-- A call of `run` works on a task in its set-up. -/
theorem sets_up (h : Legal m spurious ins m' push spawned) {f : Frame V} {c : ℕ}
    (hf : ∀ k, f.tokens c k ≤ ins.tokens k) :
    f.task < m.nodes.size ∧ (m.node f.task).phase = .setup ∧ (m.node f.task).kind = .task := by
  have hone := f.le_tokens_setup (c := c)
  have hle := hf (.setup f.task)
  obtain ⟨ht, hphase, -⟩ := owed_setup (h.owed (k := .setup f.task) (by omega))
  exact ⟨ht, hphase, (h.mem.node _ ht).task (by simp [hphase])⟩

omit [Inhabited V] in
/-- A call of `run` has a slot for the next writer argument. -/
theorem le_tokens_cap {f : Frame V} {c : ℕ} (hwrites : f.Writes) :
    1 ≤ f.tokens c (.cap f.task f.port) := by
  obtain ⟨x, mode, rest, hargs, hmode⟩ := hwrites
  have hmem : f.port ∈ Finset.Ico f.port (f.port + (f.args.filter Arg.isWriter).length) := by
    simp [hargs, Arg.isWriter, hmode]
  have hcaps := Finset.single_le_sum (s := Finset.Ico f.port
    (f.port + (f.args.filter Arg.isWriter).length))
    (f := fun q => one (.cap f.task q) (.cap f.task f.port)) (fun q _ => one_nonneg _ _) hmem
  have hresult := one_nonneg (.cap f.task 0) (.cap f.task f.port)
  have hafter := f.after.tokens_nonneg (.cap f.task f.port)
  have hvars := varTokens_nonneg f.env (.cap f.task f.port)
  rw [one_self] at hcaps
  unfold Frame.tokens
  rw [one_of_ne (t := .setup f.task) (by simp), one_of_ne (t := .pre f.task) (by simp), mul_zero]
  omega

/-- The slot of the next writer argument exists. -/
theorem slot_of_writes {f : Frame V} (h : Legal m spurious (.setup f) m' push spawned)
    (hwrites : f.Writes) : f.port < (m.node f.task).slots := by
  have hcap := le_tokens_cap (c := f.count) hwrites
  have howed := h.owed (k := .cap f.task f.port) (by simp only [Instr.tokens]; omega)
  exact (owed_cap howed).2.1

/-- A var of a thread names a slot of an allocated node. -/
theorem var_of_env (h : Legal m spurious ins m' push spawned) {e : List ℕ}
    (hvars : ∀ v ∈ e, 1 ≤ ins.tokens (.var v)) {v : ℕ} (hv : v ∈ e) :
    v < m.vars.size ∧ VarOk m (m.var v) := by
  have hone := hvars v hv
  have hlt := (owed_var (h.owed (k := .var v) (by omega))).1
  exact ⟨hlt, h.mem.var v hlt⟩

theorem arc_new (h : Legal m spurious ins m' push spawned) {a : ℕ} (hge : m.arcs.size ≤ a)
    (ha : a < m'.arcs.size) : ArcOk m' (m'.arc a) := by
  obtain ⟨-, hbirth⟩ := h.changes.newArc a hge ha
  refine ArcOk.mono ?_ h.frozen
  cases ins with
  | retainTerminal t c count =>
    have hexec : completing t count (.exec t) = 1 := completing_exec
    obtain ⟨ht, -, hkind⟩ := h.runs (t := t) (by
      rw [completing] at hexec
      simp only [Instr.tokens]
      omega)
    rw [hbirth.2]
    exact .newPayload ht hkind
  | retainSignal n c =>
    rw [hbirth.2]
    exact .newPayload h.ok.1 h.ok.2
  | finish t env vals cells =>
    obtain ⟨ht, -, hkind⟩ := h.runs finish_exec
    rw [show m'.arc a = _ from hbirth]
    exact .newPayload ht hkind
  | addLife t =>
    obtain ⟨n, htask, hx⟩ := hbirth
    obtain ⟨ht, hphase, -⟩ := owed_forward (h.owed (k := .forward t)
      (by simp [Instr.tokens, arms]))
    have hinner := h.mem.inner t ht ((h.mem.node t ht).task (by simp [hphase]))
    obtain ⟨hn, hp⟩ := (h.mem.var _ hinner.lt).slot n htask
    rw [hx]
    exact
      { kind := .inr (.inl rfl)
        accepted := .inl rfl
        flowBack := fun hk => by cases hk
        charged := fun hc => by cases hc
        reads := fun r q p hr => by cases hr
        port := fun _ => ⟨hn, (Nat.zero_le _).trans_lt hp⟩
        descriptor := fun hd => by cases hd
        payload := fun hp => by cases hp }
  | setup f =>
    obtain ⟨v, n, hv, htask, hx⟩ := hbirth
    obtain ⟨ht, -, hkind⟩ := h.sets_up (f := f) fun _ => le_rfl
    obtain ⟨-, hvar⟩ := h.var_of_env (fun v hv => Frame.le_tokens_var hv) hv
    obtain ⟨hn, hp⟩ := hvar.slot n htask
    rcases hx with ⟨hwrites, hx⟩ | hx
    · rw [hx]
      exact
        { kind := .inr (.inr (.inl rfl))
          accepted := .inl rfl
          flowBack := fun hk => by cases hk
          charged := fun hc => by cases hc
          reads := fun r q p hr => by cases hr
          port := fun hw => by simp at hw
          descriptor := fun _ => ⟨ht, h.slot_of_writes hwrites⟩
          payload := fun hp => by cases hp }
    · rw [hx]
      exact
        { kind := .inl rfl
          accepted := .inl rfl
          flowBack := fun _ _ => rfl
          charged := fun hc => by cases hc
          reads := fun r q p hr => by
            cases hr
            exact ⟨⟨ht, hkind⟩, hn, hp⟩
          port := fun _ => ⟨hn, hp⟩
          descriptor := fun hd => by cases hd
          payload := fun hp => by cases hp }
  | _ => exact hbirth.elim

omit [Inhabited V] in
/-- No step brings an arc back. -/
theorem alive_of_change {a : ℕ} {x x' : Arc} (hchange : ArcChange m a x x' ins)
    (halive : x'.alive = true) : x.alive = true := by
  cases ins with
  | deleteArc b =>
    rw [hchange.2] at halive
    cases halive
  | notifyArcs t canThrow failed r count =>
    rcases hchange.2 with ⟨hx, -⟩ | ⟨-, hx⟩
    · rwa [hx] at halive
    · rwa [hx] at halive
  | assignHead f n p b =>
    obtain ⟨-, d, -, hx⟩ := hchange
    rwa [hx] at halive
  | addArc n b site => rwa [hchange.2] at halive
  | addArcCas n b seen site => rwa [hchange.2] at halive
  | freeNode n => rwa [hchange.2] at halive
  | assignIncrement f n p b => rwa [hchange.2] at halive
  | moveArcs n q t p r => rwa [hchange.2] at halive
  | _ => exact hchange.elim

/-- An arc that is alive was allocated. -/
theorem arc_lt (h : Legal m spurious ins m' push spawned) {a : ℕ}
    (halive : (m'.arc a).alive = true) : a < m'.arcs.size := by
  by_contra hge
  apply hge
  apply lt_of_lt_of_le _ h.frozen.arcs_le
  apply h.mem.arc_lt
  rcases h.changes.arcAt a (.inr (by omega)) with heq | hchange
  · rwa [heq] at halive
  · exact alive_of_change hchange halive

/-- A payload that is alive was allocated. -/
theorem control_lt (h : Legal m spurious ins m' push spawned) {c : ℕ}
    (halive : (m'.control c).alive = true) : c < m'.controls.size := by
  by_contra hge
  apply hge
  apply lt_of_lt_of_le _ h.changes.controls_le
  apply h.mem.control_lt
  exact (h.changes.controlAt c (.inr (by omega))).2 halive

end Legal

end Oox
