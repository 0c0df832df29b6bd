import Oox.Lifetime.IssueAnchors

/-!
# Everything a step uses is alive

In a safe configuration the instruction on top of a stack finds every node and every arc that
it uses in its lifetime: the instruction has a right to it, or something below it on the stack
keeps it. What an instruction finds through storages and forwarded vars is the exception here;
it is the subject of a later module.
-/

set_option autoImplicit false

namespace Oox

open Library

variable {V : Type}

/-! ## An instruction about to run -/

/-- What a safe configuration says about the instruction on top of a stack. -/
structure Poised (m : Mem V) (ins : Instr V) (rest : List (Instr V)) : Prop where
  mem : MemOk m
  balance_le : ∀ k, balance m k ≤ 0
  bounded : Bounded m
  covered : Covered m ins
  below : ∀ x ∈ rest, Covered m x
  ok : ins.Ok m
  kept : ∀ n ∈ ins.needs, Kept m n rest
  aims : ins.Aims m rest

/-- The nodes that an instruction finds through storages and vars. -/
def Instr.far (m : Mem V) : Instr V → List ℕ
  | .invoke t => (m.node t).args.flatMap fun arg => argHolders m arg.ptr
  | .finish _ _ _ cells => cells.flatMap fun c => storageNodes m c
  | .waitStatus v => touches m (.waitStatus v)
  | .waitRead v => touches m (.waitRead v)
  | _ => []

/-- What an instruction finds through storages and vars is there. -/
structure Instr.FarLive (m : Mem V) (ins : Instr V) : Prop where
  live : ∀ n ∈ ins.far m, (m.node n).status = .live
  intact : m.Intact

namespace Poised

variable {m : Mem V} {ins : Instr V} {rest : List (Instr V)} {n a : ℕ}

theorem live_of_keeps (h : Poised m ins rest) (hkeeps : Keeps m n ins) :
    (m.node n).status = .live :=
  h.mem.live_of_keeps h.balance_le h.covered hkeeps

/-- The instruction's own right keeps the node. -/
theorem live_of_pin (h : Poised m ins rest) {k : Token} (hk : k.Pins n)
    (hpos : 0 < ins.tokens k) : (m.node n).status = .live :=
  h.live_of_keeps (.of_pin hk hpos)

/-- Something below keeps the node. -/
theorem live_of_need (h : Poised m ins rest) (hn : n ∈ ins.needs) :
    (m.node n).status = .live := by
  obtain ⟨x, hx, hkeeps⟩ := h.kept n hn
  exact h.mem.live_of_keeps h.balance_le (h.below x hx) hkeeps

/-! ## Nodes -/

/-- The var that an argument is read from keeps the task of its version. -/
theorem live_of_assign (h : Poised m ins rest) {f : Frame V} {p : ℕ} (hassign : AssignOk m f n p a)
    (htokens : ∀ v, f.tokens (f.count + 1) (.var v) ≤ ins.tokens (.var v)) :
    (m.node n).status = .live := by
  obtain ⟨v, hv, htask, -⟩ := hassign.source
  exact h.live_of_keeps (keeps_frame (htokens v) hv htask)

theorem live_of_frame (h : Poised m ins rest) {f : Frame V} {c : ℕ}
    (htokens : ∀ k, f.tokens c k ≤ ins.tokens k) : (m.node f.task).status = .live := by
  have hone : 1 ≤ f.tokens c (.setup f.task) := Frame.le_tokens_setup
  have hle := htokens (.setup f.task)
  exact h.live_of_pin (k := .setup f.task) rfl (by omega)

/-- The list that an arc is offered to belongs to a live node. -/
theorem live_of_site (h : Poised m ins rest) {site : AddSite V}
    (htokens : ∀ k, site.tokens n a k ≤ ins.tokens k) (hok : site.Ok m n a)
    (hneeds : site.needs n = ins.needs) (haims : site.Aims m rest n) :
    (m.node n).status = .live := by
  cases site with
  | assign f p =>
    apply h.live_of_assign hok
    intro v
    have hle := htokens (.var v)
    have hone := one_nonneg (.arc a n) (.var v)
    simp only [AddSite.tokens] at hle
    omega
  | assignTo f p => exact hok.elim
  | ownBack f =>
    obtain ⟨rfl, -⟩ := hok
    apply h.live_of_frame (c := f.count)
    intro k
    have hle := htokens k
    have hone := one_nonneg (.arc a f.task) k
    simp only [AddSite.tokens] at hle
    omega
  | forward t =>
    apply h.live_of_keeps
    refine .of_inner (.inr ?_) haims
    have hle := htokens (.forward t)
    simp only [AddSite.tokens, one_self, arms, one_of_ne (t := .offer a n) (k := .forward t)
      (by simp), one_of_ne (t := .life t) (k := .forward t) (by simp)] at hle
    omega
  | _ => exact h.live_of_need (hneeds ▸ List.mem_cons_self)

/-- Every node that an instruction uses is live. -/
theorem live (h : Poised m ins rest) (hfar : ins.FarLive m) (hn : n ∈ touches m ins) :
    (m.node n).status = .live := by
  have hok := h.ok
  have haims := h.aims
  cases ins with
  | release q k =>
    obtain rfl := List.mem_singleton.mp hn
    by_cases hk : k = 0
    · exact h.live_of_need (by simp [Instr.needs, hk])
    · exact h.live_of_pin (k := .life n) rfl (by simp [Instr.tokens]; omega)
  | releaseSub q k =>
    obtain rfl := List.mem_singleton.mp hn
    by_cases hk : k = 0
    · exact h.live_of_need (by simp [Instr.needs, hk])
    · exact h.live_of_pin (k := .life n) rfl (by simp [Instr.tokens]; omega)
  | addArc q b site =>
    obtain rfl := List.mem_singleton.mp hn
    exact h.live_of_site (fun _ => le_rfl) hok rfl haims
  | addArcCas q b seen site =>
    obtain rfl := List.mem_singleton.mp hn
    exact h.live_of_site (fun _ => le_rfl) hok rfl haims
  | removeBackArc q p =>
    obtain rfl := List.mem_singleton.mp hn
    exact h.live_of_pin (k := .back n p) rfl (by simp [Instr.tokens])
  | notifyNextWriter q p =>
    obtain rfl := List.mem_singleton.mp hn
    exact h.live_of_pin (k := .fire n p) rfl (by simp [Instr.tokens])
  | setNextWriter q p d =>
    obtain rfl := List.mem_singleton.mp hn
    have hnext := d.tokens_nonneg (.cap n p)
    exact h.live_of_pin (k := .cap n p) rfl (by simp only [Instr.tokens, one_self]; omega)
  | removePrerequisite q k =>
    obtain rfl := List.mem_singleton.mp hn
    have hpos : 0 < k := hok
    exact h.live_of_pin (k := .pre n) rfl (by simp [Instr.tokens, hpos])
  | spawn q =>
    obtain rfl := List.mem_singleton.mp hn
    exact h.live_of_pin (k := .exec n) rfl (by simp [Instr.tokens, running, one, arms])
  | publish q source p =>
    simp only [touches] at hn
    split at hn
    · exact h.live_of_need hn
    · exact h.live_of_need (by rw [List.mem_singleton.mp hn]; exact List.mem_cons_self)
  | publishControl q source => exact h.live_of_need hn
  | invoke t =>
    rcases List.mem_cons.mp hn with rfl | hmem
    · exact h.live_of_need List.mem_cons_self
    · exact hfar.live n hmem
  | finish t env vals cells =>
    rcases List.mem_cons.mp hn with rfl | hmem
    · exact h.live_of_need List.mem_cons_self
    · exact hfar.live n hmem
  | forwardFailure t =>
    obtain ⟨q, htask, -⟩ := haims
    simp only [touches, htask, Option.toList_some] at hn
    rcases List.mem_cons.mp hn with rfl | hmem
    · exact h.live_of_need List.mem_cons_self
    · obtain rfl := List.mem_singleton.mp hmem
      apply h.live_of_keeps
      exact .of_inner (.inl (by simp [Instr.tokens, running, one, arms])) htask
  | setup f =>
    obtain rfl := List.mem_singleton.mp hn
    exact h.live_of_frame (c := f.count) fun _ => le_rfl
  | bind f =>
    obtain rfl := List.mem_singleton.mp hn
    exact h.live_of_frame (c := f.count) fun _ => le_rfl
  | assignHead f q p b =>
    obtain rfl := List.mem_singleton.mp hn
    exact h.live_of_assign hok.1 fun v => by simp [Instr.tokens, one]
  | assignFailure f q p b =>
    obtain rfl := List.mem_singleton.mp hn
    exact h.live_of_assign hok.1 fun v => by simp [Instr.tokens, one]
  | assignIncrement f q p b =>
    obtain rfl := List.mem_singleton.mp hn
    exact h.live_of_assign hok.1 fun v => by simp [Instr.tokens, one]
  | redirect q p t i b =>
    obtain rfl := List.mem_singleton.mp hn
    exact h.live_of_pin (k := .cap n p) rfl (by simp [Instr.tokens, one])
  | destroy q => cases hn
  | freeNode q => cases hn
  | deleteArc b => cases hn
  | releaseControl c => cases hn
  | retainTerminal t c count => cases hn
  | moveArcs q p t i r => cases hn
  | moveResult f r => cases hn
  | runOps env ops after => cases hn
  | waitStatus v => exact hfar.live n hn
  | waitRead v => exact hfar.live n hn
  | _ => exact h.live_of_need hn

/-- Every task whose failures a waiting thread looks up is live. -/
theorem live_of_reported (h : Poised m ins rest) (hfar : ins.FarLive m) (hn : n ∈ reported m ins) :
    (m.node n).status = .live := by
  cases ins with
  | waitStatus v => exact h.live hfar hn
  | waitRead v => exact h.live hfar (List.mem_append_left _ hn)
  | _ => cases hn

/-! ## Arcs -/

theorem alive_of_token (h : Poised m ins rest) {k : Token} (hk : k.arc? = some a)
    (hpos : 0 < ins.tokens k) : (m.arc a).alive = true :=
  (owed_arc hk (hpos.trans_le (h.covered k))).2.1

/-- The arcs in the list of a live node, and its terminal arc, are alive. -/
theorem alive_of_head (h : Poised m ins rest) (hlive : (m.node n).status = .live)
    (ha : a ∈ touchesArcs.headArcs (m.node n).head) : (m.arc a).alive = true := by
  have hn := h.mem.node_lt n (by simp [hlive])
  cases hhead : (m.node n).head with
  | list l =>
    rw [hhead] at ha
    refine (arc_of_head (k := .listed a n) rfl hn (by simp [hlive]) ?_ (h.balance_le _)).2.1
    rw [hhead]
    exact one_le_listedTokens ha
  | terminal b =>
    rw [hhead] at ha
    obtain rfl := List.mem_singleton.mp ha
    refine (arc_of_head (k := .payload a n) rfl hn (by simp [hlive]) ?_ (h.balance_le _)).2.1
    simp [hhead, Head.tokens]
  | done =>
    rw [hhead] at ha
    cases ha
  | redirect b =>
    rw [hhead] at ha
    cases ha

theorem alive_of_listed (h : Poised m ins rest) {r : List ℕ} (ha : a ∈ r.take 1)
    (htokens : listedTokens n r (.listed a n) ≤ ins.tokens (.listed a n)) :
    (m.arc a).alive = true :=
  h.alive_of_token (k := .listed a n) rfl
    (Int.lt_of_lt_of_le one_pos ((one_le_listedTokens (List.mem_of_mem_take ha)).trans htokens))

/-- A var never names a task whose list redirects. -/
theorem not_redirect_of_assign (h : Poised m ins rest) {f : Frame V} {p d : ℕ}
    (hassign : AssignOk m f n p a)
    (htokens : ∀ v, f.tokens (f.count + 1) (.var v) ≤ ins.tokens (.var v)) :
    (m.node n).head ≠ .redirect d := by
  obtain ⟨v, hv, htask, -⟩ := hassign.source
  have hone := (Frame.le_tokens_var (c := f.count + 1) hv).trans (htokens v)
  have hlt := (owed_var (Int.lt_of_lt_of_le one_pos (hone.trans (h.covered _)))).1
  exact (h.mem.var v hlt).fresh n htask d

/-- Every arc that an instruction uses is alive. -/
theorem alive (h : Poised m ins rest) (hfar : ins.FarLive m) (ha : a ∈ touchesArcs m ins) :
    (m.arc a).alive = true := by
  have hok := h.ok
  cases ins with
  | deleteArc b =>
    obtain rfl := List.mem_singleton.mp ha
    exact h.alive_of_token (k := .spent a) rfl (by simp [Instr.tokens])
  | addArc q b site =>
    obtain rfl := List.mem_singleton.mp ha
    exact (arc_of_site h.covered).2.1
  | addArcCas q b seen site =>
    obtain rfl := List.mem_singleton.mp ha
    have hcov : Covered m (.addArc q a site) := h.covered
    exact (arc_of_site hcov).2.1
  | findTerminal t count => exact h.alive_of_head (h.live_of_need List.mem_cons_self) ha
  | publishControl q source =>
    exact h.alive_of_head (h.live_of_need (List.mem_cons_of_mem _ List.mem_cons_self)) ha
  | notifyArcs t canThrow failed r count =>
    refine h.alive_of_listed (n := t) ha ?_
    have hzero : counters t 0 count (.listed a t) = 0 := counters_eq_zero (by simp) (by simp)
    simp [Instr.tokens, hzero]
  | assignHead f q p b =>
    have hnot := fun d => h.not_redirect_of_assign (d := d) hok.1
      fun v => by simp [Instr.tokens, one]
    simp only [touchesArcs] at ha
    obtain rfl := List.mem_singleton.mp ha
    exact h.alive_of_token (k := .arc a q) rfl
      (by simp [Instr.tokens, Frame.tokens_eq_zero, Token.arc?])
  | assignIncrement f q p b =>
    obtain rfl := List.mem_singleton.mp ha
    exact h.alive_of_token (k := .arc a q) rfl
      (by simp [Instr.tokens, Frame.tokens_eq_zero, Token.arc?])
  | moveArcs q p t i r =>
    refine h.alive_of_listed (n := q) ha ?_
    simp [Instr.tokens, one]
  | waitStatus v =>
    obtain ⟨n, hn, ha⟩ := List.mem_flatMap.mp ha
    exact h.alive_of_head (h.live_of_reported hfar hn) ha
  | waitRead v =>
    obtain ⟨n, hn, ha⟩ := List.mem_flatMap.mp ha
    exact h.alive_of_head (h.live_of_reported hfar hn) ha
  | _ => cases ha

/-! ## Payloads -/

/-- The payload that a signal arc carries is alive with the arc. -/
theorem control_of_arc (h : Poised m ins rest) (ha : a < m.arcs.size)
    (halive : (m.arc a).alive = true) (hkind : (m.arc a).kind = .exceptionSignal) :
    (m.control (m.arc a).control).alive = true := by
  have hbal := h.balance_le (.control (m.arc a).control)
  -- the memory without the arc owes its reference
  have hwithout := balance_setArc m (.control (m.arc a).control) ha { m.arc a with alive := false }
  have hdead : arcBalance a { m.arc a with alive := false } (.control (m.arc a).control) = 0 := rfl
  have htoken : Token.control (m.arc a).control ≠ (m.arc a).token a := by
    unfold Arc.token
    split
    · simp
    · split <;> simp
  have hself : arcBalance a (m.arc a) (.control (m.arc a).control) = 1 := by
    have hcarries : (m.arc a).carries (.control (m.arc a).control) = 0 := by
      unfold Arc.carries
      split <;> simp [one]
    simp [arcBalance, halive, hkind, hcarries, one_of_ne htoken]
  have howed := owed_control (c := (m.arc a).control)
    (m := m.setArc a { m.arc a with alive := false }) (by omega)
  exact howed.2

/-- The payload in the terminal arc of a live node is alive. -/
theorem control_of_terminal (h : Poised m ins rest) (hlive : (m.node n).status = .live)
    (hhead : (m.node n).head = .terminal a) : (m.control (m.arc a).control).alive = true := by
  have hn := h.mem.node_lt n (by simp [hlive])
  obtain ⟨ha, halive, htoken⟩ := arc_of_head (k := .payload a n) rfl hn (by simp [hlive])
    (by simp [hhead, Head.tokens]) (h.balance_le _)
  have hrole := (Arc.token_payload htoken).2.1
  apply h.control_of_arc ha halive
  have hallows := (h.mem.arc a ha).kind
  cases hkind : (m.arc a).kind <;> simp_all [ArcKind.Allows]

/-- The payload of a signal in an open list is alive. -/
theorem control_of_list (h : Poised m ins rest) (hlive : (m.node n).status = .live) {l : List ℕ}
    (hhead : (m.node n).head = .list l) (ha : a ∈ l) (hkind : (m.arc a).kind = .exceptionSignal) :
    (m.control (m.arc a).control).alive = true := by
  have hn := h.mem.node_lt n (by simp [hlive])
  have hlisted : 1 ≤ (m.node n).head.tokens n (.listed a n) := by
    rw [hhead]
    exact one_le_listedTokens ha
  obtain ⟨ha', halive, -⟩ := arc_of_head (k := .listed a n) rfl hn (by simp [hlive]) hlisted
    (h.balance_le _)
  exact h.control_of_arc ha' halive hkind

/-- The payload that a live node leads to is alive. -/
theorem control_of_local (h : Poised m ins rest) (hlive : (m.node n).status = .live) {d : ℕ}
    (hd : localControl m n = some d) : (m.control d).alive = true := by
  unfold localControl at hd
  split at hd
  · rename_i a hhead
    obtain rfl := Option.some.inj hd
    exact h.control_of_terminal hlive hhead
  · rename_i l hhead
    obtain ⟨a, ha, rfl⟩ := Option.map_eq_some_iff.mp hd
    exact h.control_of_list hlive hhead (List.mem_of_find?_eq_some ha)
      (by simpa using List.find?_some ha)
  · cases hd

/-! ## Lifetimes -/

/-- An instruction about to run finds all it uses in its lifetime. -/
theorem inLifetime (h : Poised m ins rest) (hfar : ins.FarLive m) :
    Oox.inLifetime m ins = true := by
  have hdel : ∀ q, ins.tokens (.del q) = 1 → (m.node q).status = .destroying := by
    intro q hq
    have hcov := h.covered (.del q)
    exact (owed_del (m := m) (by omega)).2.1
  refine inLifetime_iff.mpr ⟨fun n => h.live hfar, fun a => h.alive hfar, fun d hd => ?_,
    fun v _ => hfar.intact v, ?_⟩
  · obtain ⟨n, hn, hd⟩ := List.mem_flatMap.mp hd
    exact h.control_of_local (h.live_of_reported hfar hn) (Option.mem_toList.mp hd)
  · cases ins with
    | destroy q => exact hdel q (by simp [Instr.tokens])
    | freeNode q => exact hdel q (by simp [Instr.tokens])
    | _ => trivial

end Poised

/-- The instruction on top of a stack of a safe configuration is about to run. -/
theorem Safe.poised [Inhabited V] {c : State V} (h : Safe c) (hbound : Bounded c.mem)
    {ins : Instr V} {rest : List (Instr V)} (hl : ins :: rest ∈ c.threads) :
    Poised c.mem ins rest := by
  have hpos := h.sound.holdings hbound
  have hstack := stack_le_owed (Balanced.backed h.sound.law) hpos hl
  have hanchored := (h.anchored _ hl).1
  refine ⟨h.sound.mem, fun k => ?_, hbound, h.sound.covered hbound hl, fun x hx k => ?_,
    h.sound.ready _ hl ins List.mem_cons_self, hanchored.kept, hanchored.aims⟩
  · have hlaw := h.sound.law k
    have hsum := threadSum_nonneg fun l hl ins hins => hpos l hl ins hins k
    omega
  · have hle := le_stackSum (k := k) (fun y hy => hpos _ hl y hy k) (List.mem_cons_of_mem ins hx)
    exact hle.trans (hstack k)

end Oox
