import Oox.Versions.MemorySafety

/-!
# The readers of a version that was handed over

An arc that still waits is in the open list of its producer, in the hands of the thread that
closed the list, or on its way there. In each case the slot of its version is not notified: the
producer has not finished, its counters are not subtracted yet, or the var that named the version
still names it. So when a slot has been notified no arc for the version waits, and none is
counted any more: its readers have finished.
-/

set_option autoImplicit false

namespace Oox

open Library

variable {V : Type}

/-! ## Where an arc is -/

section Balance

theorem one_of_arc {k t : Token} {a : ℕ} (hk : k.arc? = some a) (ht : t.arc? = none) :
    one t k = 0 := by
  apply one_of_ne
  rintro rfl
  rw [hk] at ht
  cases ht

/-- A node has the arcs in its head. -/
theorem nodeBalance_arc {k : Token} {a : ℕ} (hk : k.arc? = some a) (n : ℕ) (x : Node V) :
    nodeBalance n x k = if x.status = .dead then 0 else x.head.tokens n k := by
  have hone : ∀ t : Token, t.arc? = none → one t k = 0 := fun t => one_of_arc hk
  have harms : arms n 0 k = 0 := by
    cases k <;> simp_all [arms, Token.arc?]
  have hsupply : armSupply n x.phase x.out k = 0 := by
    cases k <;> simp_all [armSupply, Token.arc?]
  have hpending : x.phase.pending n k = 0 := by
    cases x.phase <;> simp [Phase.pending, hone (.life n) rfl, hone (.exec n) rfl, harms]
  have hrights : x.phase.rights n k = 0 := by
    cases x.phase <;>
      simp [Phase.rights, hone (.exec n) rfl, hone (.setup n) rfl, hone (.forward n) rfl]
  have hlocals : varTokens x.locals k = 0 :=
    varTokens_eq_zero (by cases k <;> simp_all [Token.arc?, Token.var?])
  have hslot : ∀ p, slotBalance n p (x.out p) k = 0 := by
    intro p
    have hnext : (x.out p).nextWriter.tokens k = 0 := by
      cases (x.out p).nextWriter with
      | owner o => exact hone _ rfl
      | node d => exact hone _ rfl
      | _ => rfl
    simp [slotBalance, hnext, hone (.life n) rfl, hone (.back n p) rfl, hone (.hand n p) rfl,
      hone (.fire n p) rfl, hone (.cap n p) rfl]
  simp [nodeBalance, hpending, hrights, hsupply, hlocals, hslot, hone (.pre n) rfl,
    hone (.life n) rfl, hone (.del n) rfl, hone (.var x.inner) rfl]

/-- What the nodes have of an arc, against the arc. -/
theorem balance_arc (m : Mem V) {k : Token} {a : ℕ} (hk : k.arc? = some a)
    (ha : a < m.arcs.size) (halive : (m.arc a).alive = true) (htoken : k = (m.arc a).token a) :
    balance m k ≤
      m.nodes.sum (fun n x => if x.status = .dead then 0 else x.head.tokens n k) - 1 := by
  have hone : ∀ t : Token, t.arc? = none → one t k = 0 := fun t => one_of_arc hk
  have hvars : m.vars.sum (fun v u => varBalance v u k) = 0 := by
    refine Finset.sum_eq_zero fun v _ => ?_
    have howns : ∀ u : Var, u.owns k = 0 := by
      intro u
      unfold Var.owns
      cases u.currentTask with
      | none => rfl
      | some q =>
        cases u.owner with
        | none => simp [hone (.cap q u.currentPort) rfl]
        | some o => simp [hone (.cap q u.currentPort) rfl, hone (.life o) rfl]
    simp [varBalance, howns, hone (.var v) rfl]
  have hcontrols : m.controls.sum (fun c x => controlBalance c x k) = 0 :=
    Finset.sum_eq_zero fun c _ => by simp [controlBalance, hone (.control c) rfl]
  have hleft : varTokens m.left k = 0 :=
    varTokens_eq_zero (by cases k <;> simp_all [Token.arc?, Token.var?])
  have hbalance : ∀ b (x : Arc), arcBalance b x k = if x.alive then -one (x.token b) k else 0 := by
    intro b x
    have hcarries : x.carries k = 0 := by
      unfold Arc.carries
      split <;> first | exact hone _ rfl | rfl
    simp [arcBalance, hcarries, hone (.control x.control) rfl]
  have harcs : m.arcs.sum (fun b x => arcBalance b x k) ≤ -1 := by
    have hle := Heap.le_sum ha (f := fun b x => -arcBalance b x k) fun b _ _ => by
      have hpos := one_nonneg ((m.arcs.cell b).token b) k
      rw [hbalance]
      split <;> omega
    have hself : arcBalance a (m.arcs.cell a) k = -1 := by
      unfold Mem.arc at halive htoken
      rw [hbalance, if_pos halive, ← htoken, one_self]
    simp only [Heap.sum, Finset.sum_neg_distrib] at hle ⊢
    omega
  simp only [balance, nodeBalance_arc hk, hvars, hcontrols, hleft]
  omega

end Balance

/-- An arc that is alive is in the head of a node, or some instruction has it. -/
theorem Law.arc_holder {c : State V} (h : Law c) {a : ℕ} (ha : a < c.mem.arcs.size)
    (halive : (c.mem.arc a).alive = true) {k : Token} (hk : k.arc? = some a)
    (htoken : k = (c.mem.arc a).token a) :
    (∃ n < c.mem.nodes.size, (c.mem.node n).status ≠ .dead ∧ 0 < (c.mem.node n).head.tokens n k) ∨
      ∃ l ∈ c.threads, ∃ ins ∈ l, 0 < ins.tokens k := by
  have hlaw := h k
  have hle := balance_arc c.mem hk ha halive htoken
  by_cases hnodes : 0 < c.mem.nodes.sum fun n x =>
      if x.status = .dead then 0 else x.head.tokens n k
  · left
    obtain ⟨n, hn, hpos⟩ := Heap.exists_pos_of_sum_pos _ _ hnodes
    split at hpos
    · exact absurd hpos (lt_irrefl _)
    · rename_i hstatus
      exact ⟨n, hn, hstatus, hpos⟩
  · right
    exact exists_pos_of_threadSum_pos (by omega)

/-! ## Instructions that have an arc -/

/-- The instructions that have an arc on its way to the list of `n`. -/
theorem Instr.arc_cases {ins : Instr V} {a n : ℕ} (h : 0 < ins.tokens (.arc a n)) :
    (∃ site, site.arcToken n a = .arc a n ∧
        (ins = .addArc n a site ∨ ∃ seen, ins = .addArcCas n a seen site)) ∨
      ∃ f p, ins = .assignHead f n p a ∨ ins = .assignFailure f n p a ∨
        ins = .assignIncrement f n p a := by
  have hone : ∀ t : Token, t.arc? = none → one t (.arc a n) = 0 := fun t => one_of_arc rfl
  have hframe : ∀ (f : Frame V) c, f.tokens c (.arc a n) = 0 := fun f c => f.tokens_eq_zero c rfl
  have hcount : ∀ t i count, counters t i count (.arc a n) = 0 := fun t i count =>
    counters_eq_zero (by simp) (by simp)
  have hlisted : ∀ t r, listedTokens t r (.arc a n) = 0 := by
    intro t r
    unfold listedTokens
    exact List.sum_eq_zero (by simp [one])
  have hvars : ∀ vs, varTokens vs (.arc a n) = 0 := fun vs => varTokens_eq_zero rfl
  have hafter : ∀ after : After V, after.tokens (.arc a n) = 0 := by
    intro after
    cases after <;> simp [After.tokens, running, one, arms]
  have harc : ∀ b q, 0 < one (.arc b q) (.arc a n) → b = a ∧ q = n := by
    intro b q hpos
    by_contra hno
    rw [one_of_ne (by simpa [eq_comm] using hno)] at hpos
    exact absurd hpos (lt_irrefl _)
  have hsite : ∀ {q b : ℕ} {site : AddSite V}, 0 < site.tokens q b (.arc a n) →
      b = a ∧ q = n ∧ site.arcToken n a = .arc a n := by
    intro q b site hpos
    cases site with
    | thrown => simp [AddSite.tokens, one] at hpos
    | signal => simp [AddSite.tokens, one] at hpos
    | forward t => simp [AddSite.tokens, one, arms] at hpos
    | _ =>
      simp only [AddSite.tokens, hframe, add_zero] at hpos
      obtain ⟨rfl, rfl⟩ := harc _ _ hpos
      exact ⟨rfl, rfl, rfl⟩
  cases ins with
  | addArc q b site =>
    obtain ⟨rfl, rfl, htoken⟩ := hsite h
    exact .inl ⟨site, htoken, .inl rfl⟩
  | addArcCas q b seen site =>
    obtain ⟨rfl, rfl, htoken⟩ := hsite h
    exact .inl ⟨site, htoken, .inr ⟨seen, rfl⟩⟩
  | assignHead f q p b =>
    simp only [Instr.tokens, hframe, add_zero] at h
    obtain ⟨rfl, rfl⟩ := harc _ _ h
    exact .inr ⟨f, p, .inl rfl⟩
  | assignFailure f q p b =>
    simp only [Instr.tokens, hframe, add_zero] at h
    obtain ⟨rfl, rfl⟩ := harc _ _ h
    exact .inr ⟨f, p, .inr (.inl rfl)⟩
  | assignIncrement f q p b =>
    simp only [Instr.tokens, hframe, add_zero] at h
    obtain ⟨rfl, rfl⟩ := harc _ _ h
    exact .inr ⟨f, p, .inr (.inr rfl)⟩
  | closeList t canThrow terminal count =>
    cases terminal <;> simp [Instr.tokens, running, hcount, one, arms] at h
  | setNextWriter q p d => cases d <;> simp [Instr.tokens, NextWriter.tokens, one] at h
  | moveResult f r =>
    have howns : r.owns (.arc a n) = 0 := by
      unfold Var.owns
      cases r.currentTask with
      | none => rfl
      | some q => cases r.owner <;> simp [one]
    simp [Instr.tokens, howns, hvars, hafter] at h
  | _ => simp [Instr.tokens, running, hcount, hlisted, hvars, hafter, hframe, one, arms] at h

/-- The instructions that have an arc of a list that was taken. -/
theorem Instr.listed_cases {ins : Instr V} {a n : ℕ} (h : 0 < ins.tokens (.listed a n)) :
    (∃ canThrow failed r count, ins = .notifyArcs n canThrow failed r count) ∨
      (∃ r count, ins = .loadFailureFlag n r count) ∨ ∃ q t p r, ins = .moveArcs n q t p r := by
  have hframe : ∀ (f : Frame V) c, f.tokens c (.listed a n) = 0 :=
    fun f c => f.tokens_eq_zero c rfl
  have hcount : ∀ t i count, counters t i count (.listed a n) = 0 := fun t i count =>
    counters_eq_zero (by simp) (by simp)
  have hvars : ∀ vs, varTokens vs (.listed a n) = 0 := fun vs => varTokens_eq_zero rfl
  have hafter : ∀ after : After V, after.tokens (.listed a n) = 0 := by
    intro after
    cases after <;> simp [After.tokens, running, one, arms]
  have hlisted : ∀ {t r}, 0 < listedTokens t r (.listed a n) → t = n := by
    intro t r hpos
    obtain ⟨x, hx, hpos'⟩ := exists_pos_of_sum_pos hpos
    by_contra hne
    rw [one_of_ne (by simp [Ne.symm hne])] at hpos'
    exact absurd hpos' (lt_irrefl _)
  have hsite : ∀ (q b : ℕ) (site : AddSite V), site.tokens q b (.listed a n) = 0 := by
    intro q b site
    cases site <;> simp [AddSite.tokens, hframe, one, arms]
  cases ins with
  | notifyArcs t canThrow failed r count =>
    simp only [Instr.tokens, hcount, add_zero] at h
    obtain rfl := hlisted h
    exact .inl ⟨canThrow, failed, r, count, rfl⟩
  | loadFailureFlag t r count =>
    simp only [Instr.tokens, hcount, add_zero] at h
    obtain rfl := hlisted h
    exact .inr (.inl ⟨r, count, rfl⟩)
  | moveArcs q i t p r =>
    simp only [Instr.tokens, one_of_ne (t := .cap q i) (k := .listed a n) (by simp),
      one_of_ne (t := .pre t) (k := .listed a n) (by simp), add_zero] at h
    obtain rfl := hlisted h
    exact .inr (.inr ⟨i, t, p, r, rfl⟩)
  | closeList t canThrow terminal count =>
    cases terminal <;> simp [Instr.tokens, running, hcount, one, arms] at h
  | setNextWriter q p d => cases d <;> simp [Instr.tokens, NextWriter.tokens, one] at h
  | moveResult f r =>
    have howns : r.owns (.listed a n) = 0 := by
      unfold Var.owns
      cases r.currentTask with
      | none => rfl
      | some q => cases r.owner <;> simp [one]
    simp [Instr.tokens, howns, hvars, hafter] at h
  | _ => simp [Instr.tokens, running, hcount, hsite, hvars, hafter, hframe, one, arms] at h

/-! ## Readers that wait -/

namespace Stored

variable {c : State V} {a r n p : ℕ}

/-- While a var on a stack names a version, the version is not notified. -/
theorem notified_of_source (h : Stored c) (hbound : Bounded c.mem) {l : List (Instr V)}
    (hl : l ∈ c.threads) {ins : Instr V} (hins : ins ∈ l) {f : Frame V} (hassign : AssignOk c.mem f n p a)
    (htokens : ∀ v, f.tokens (f.count + 1) (.var v) ≤ ins.tokens (.var v)) :
    ((c.mem.node n).out p).notified = 0 := by
  have hmem := h.safe.sound.mem
  obtain ⟨v, hv, htask, hport⟩ := hassign.source
  have hpos := (Frame.le_tokens_var (c := f.count + 1) hv).trans (htokens v)
  have hlt := (owed_var (Int.lt_of_lt_of_le one_pos (hpos.trans (h.covered hbound hl hins _)))).1
  have hn := ((hmem.var v hlt).slot n htask).1
  have hopen := hmem.open_of_var (h.balance_le hbound) hlt htask
  rw [hport] at hopen
  exact hmem.notified_of_open hn hopen

/-- An arc on its way to a list is not waited for in vain. -/
theorem notified_of_way (h : Stored c) (hbound : Bounded c.mem) (hport : (c.mem.arc a).port = p)
    {l : List (Instr V)} (hl : l ∈ c.threads) {ins : Instr V} (hins : ins ∈ l)
    (harc : 0 < ins.tokens (.arc a n)) : ((c.mem.node n).out p).notified = 0 := by
  have hmem := h.safe.sound.mem
  have hok := h.safe.sound.ready l hl ins hins
  obtain ⟨rest, hsuffix, hanchored⟩ := (h.safe.anchored l hl).exists_rest hins
  have hbelow : Held (.pre n) rest → ((c.mem.node n).out p).notified = 0 := by
    rintro ⟨x, hx, hpos⟩
    have hx' : x ∈ l := hsuffix.subset (List.mem_cons_of_mem _ hx)
    exact h.waits (hpos.trans_le (h.covered hbound hl hx' _)) p
  have hsite : ∀ {site : AddSite V}, site.arcToken n a = .arc a n → site.Ok c.mem n a →
      site.Aims c.mem rest n → (∀ k, site.tokens n a k ≤ ins.tokens k) →
      ((c.mem.node n).out p).notified = 0 := by
    intro site htoken hsok haims htokens
    cases site with
    | assign f q =>
      have hq : p = q := hport.symm.trans hsok.port
      rw [hq]
      apply h.notified_of_source hbound hl hins hsok
      intro v
      have hle := htokens (.var v)
      have hone := one_nonneg (.arc a n) (.var v)
      simp only [AddSite.tokens] at hle
      omega
    | assignTo f q => exact hsok.elim
    | ownBack f =>
      obtain ⟨rfl, -⟩ := hsok
      have hsetup := (Frame.le_tokens_setup (f := f) (c := f.count)).trans
        ((le_add_of_nonneg_left (one_nonneg (.arc a f.task) _)).trans (htokens (.setup f.task)))
      obtain ⟨hn, hphase, -⟩ := owed_setup (m := c.mem) (n := f.task)
        (Int.lt_of_lt_of_le one_pos (hsetup.trans (h.covered hbound hl hins _)))
      exact hmem.notified_of_phase hn (by simp [hphase]) p
    | back => exact hbelow haims
    | moved => exact hbelow haims
    | thrown => cases htoken
    | signal => cases htoken
    | forward t => cases htoken
  have hsource : ∀ {f : Frame V} {q : ℕ}, AssignOk c.mem f n q a →
      (∀ v, f.tokens (f.count + 1) (.var v) ≤ ins.tokens (.var v)) →
      ((c.mem.node n).out p).notified = 0 := by
    intro f q hassign htokens
    have hq : p = q := hport.symm.trans hassign.port
    rw [hq]
    exact h.notified_of_source hbound hl hins hassign htokens
  rcases Instr.arc_cases harc with ⟨site, htoken, rfl | ⟨seen, rfl⟩⟩ | ⟨f, q, rfl | rfl | rfl⟩
  · exact hsite htoken hok hanchored.aims fun _ => le_rfl
  · exact hsite htoken hok hanchored.aims fun _ => le_rfl
  · exact hsource hok.1 fun v => by simp [Instr.tokens, one]
  · exact hsource hok.1 fun v => by simp [Instr.tokens, one]
  · exact hsource hok.1 fun v => by simp [Instr.tokens, one]

/-- The thread that works off the list of a task has not handed its slots over. -/
theorem notified_of_taken (h : Stored c) (hbound : Bounded c.mem) (hp : p < (c.mem.node n).slots)
    (hkind : (c.mem.node n).kind ≠ .deferred) {l : List (Instr V)} (hl : l ∈ c.threads)
    {ins : Instr V} (hins : ins ∈ l) (hlisted : 0 < ins.tokens (.listed a n)) :
    ((c.mem.node n).out p).notified = 0 := by
  have hmem := h.safe.sound.mem
  have hok := h.safe.sound.ready l hl ins hins
  have hcov := h.covered hbound hl hins
  have hcounters : ∀ {count : List ℤ}, count.length = (c.mem.node n).slots →
      (∀ k, counters n 0 count k ≤ ins.tokens k) → ((c.mem.node n).out p).notified = 0 := by
    intro count hlen htokens
    have hhand : counters n 0 count (.hand n p) = 1 :=
      counters_hand (Nat.zero_le p) (by omega)
    have hle := (htokens (.hand n p)).trans (hcov (.hand n p))
    obtain ⟨hn, -, -, hhanded, -⟩ := owed_hand (m := c.mem) (n := n) (p := p) (by omega)
    exact hmem.notified_of_handed hn (.inl hhanded)
  rcases Instr.listed_cases hlisted with ⟨canThrow, failed, r, count, rfl⟩ | ⟨r, count, rfl⟩ |
    ⟨q, t, i, r, rfl⟩
  · exact hcounters hok.1 fun k => le_add_of_nonneg_left (listedTokens_nonneg n r k)
  · exact hcounters hok.1 fun k => le_add_of_nonneg_left (listedTokens_nonneg n r k)
  · exact absurd hok.1 hkind

/-- The list of a node whose slot is notified is closed. -/
theorem notified_of_head (h : Stored c) (hkind : (c.mem.node n).kind ≠ .deferred)
    (hn : n < c.mem.nodes.size) {k : Token} {q : ℕ} (hk : k = .listed a n ∨ k = .arc a n)
    (hhead : 0 < (c.mem.node q).head.tokens q k) : ((c.mem.node n).out p).notified = 0 := by
  have hmem := h.safe.sound.mem
  cases hq : (c.mem.node q).head with
  | list l =>
    rw [hq] at hhead
    have hnode : q = n := by
      obtain ⟨b, -, hpos⟩ := exists_pos_of_sum_pos hhead
      by_contra hne
      rcases hk with rfl | rfl
      · rw [one_of_ne (by simp [Ne.symm hne])] at hpos
        exact absurd hpos (lt_irrefl _)
      · rw [one_of_ne (by simp)] at hpos
        exact absurd hpos (lt_irrefl _)
    subst hnode
    apply hmem.notified_of_phase hn
    intro hphase
    have hok := hmem.node q hn
    cases hself : (c.mem.node q).kind with
    | task =>
      have hdone := hok.closed hself hphase
      rw [hq] at hdone
      cases hdone
    | storage =>
      rw [hok.storage hself] at hq
      cases hq
    | deferred => exact hkind hself
  | done =>
    rw [hq] at hhead
    exact absurd hhead (lt_irrefl _)
  | terminal b =>
    rw [hq] at hhead
    rcases hk with rfl | rfl <;> simp [Head.tokens, one] at hhead
  | redirect b =>
    rw [hq] at hhead
    rcases hk with rfl | rfl <;> simp [Head.tokens, one] at hhead

/-- A version with a reader that waits is not notified. -/
theorem notified_of_waiting (h : Stored c) (hbound : Bounded c.mem) (ha : a < c.mem.arcs.size)
    (halive : (c.mem.arc a).alive = true) (hrole : (c.mem.arc a).role = .waiting)
    (hreads : (c.mem.arc a).reads = some (r, (n, p))) (hkind : (c.mem.node n).kind ≠ .deferred) :
    ((c.mem.node n).out p).notified = 0 := by
  have hmem := h.safe.sound.mem
  have hok := hmem.arc a ha
  obtain ⟨-, hn, hp⟩ := hok.reads _ _ _ hreads
  have hflow : (c.mem.arc a).kind = .flowBack := by
    have hallows := hok.kind
    have hplain := (h.store.arc a ha).reads
    rw [hrole] at hallows
    cases hk : (c.mem.arc a).kind <;> simp_all [ArcKind.Allows]
  have hself := hok.flowBack hflow hrole
  rw [hreads] at hself
  obtain ⟨-, hsite, hport⟩ : _ ∧ n = (c.mem.arc a).site ∧ p = (c.mem.arc a).port := by
    simpa using hself
  have htoken : (c.mem.arc a).token a = .listed a n ∨ (c.mem.arc a).token a = .arc a n := by
    unfold Arc.token
    rw [hrole, ← hsite]
    split
    · exact .inl rfl
    · exact .inr rfl
  have harc : ((c.mem.arc a).token a).arc? = some a := by
    rcases htoken with heq | heq <;> rw [heq] <;> rfl
  rcases h.safe.sound.law.arc_holder ha halive harc rfl with
    ⟨q, -, -, hhead⟩ | ⟨l, hl, ins, hins, hpos⟩
  · exact h.notified_of_head hkind hn htoken hhead
  · rcases htoken with heq | heq <;> rw [heq] at hpos
    · exact h.notified_of_taken hbound hp hkind hl hins hpos
    · exact h.notified_of_way hbound hport.symm hl hins hpos

/-- The readers of a version whose slot was notified have finished, unless nobody waits for
them. -/
theorem readers_finished (h : Stored c) (hbound : Bounded c.mem) (ha : a < c.mem.arcs.size)
    (hreads : (c.mem.arc a).reads = some (r, (n, p))) (hkind : (c.mem.node n).kind ≠ .deferred)
    (hnotified : ((c.mem.node n).out p).notified ≠ 0) :
    (c.mem.node r).phase = .finished ∨ ((c.mem.node n).out p).nextWriter = .noOwner := by
  have hmem := h.safe.sound.mem
  have hok := hmem.arc a ha
  have halive : (c.mem.arc a).role ≠ .spent → (c.mem.arc a).alive = true := by
    intro hrole
    by_contra hdead
    exact hrole (h.store.deleted a ha (by simpa using hdead))
  apply (h.store.arc a ha).spent _ _ _ hreads
  have hplain := (h.store.arc a ha).reads
  cases hrole : (c.mem.arc a).role with
  | spent => rfl
  | waiting =>
    exact absurd (h.notified_of_waiting hbound ha (halive (by simp [hrole])) hrole hreads hkind)
      hnotified
  | charged =>
    have hself := hok.charged hrole
    rw [hreads] at hself
    obtain ⟨-, rfl, rfl⟩ : _ ∧ n = (c.mem.arc a).node ∧ p = (c.mem.arc a).port := by
      simpa using hself
    exact absurd (notified_of_charged hmem ha (halive (by simp [hrole])) hrole
      (h.balance_le hbound _)) hnotified
  | offered =>
    rw [hplain (hok.kind_of_role (.inl hrole))] at hreads
    cases hreads
  | descriptor =>
    rw [hplain (hok.kind_of_role (.inr (.inl hrole)))] at hreads
    cases hreads
  | payload =>
    rw [hplain (hok.kind_of_role (.inr (.inr hrole)))] at hreads
    cases hreads

end Stored

end Oox
