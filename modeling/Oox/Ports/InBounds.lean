import Oox.Ports.IssueSpends
import Oox.Ports.IssuePushes
import Oox.Preservation.Intact

/-!
# Every port names an existing slot

The invariant over whole runs, and what it says of a configuration: the pairs of node and port
that vars, arcs and redirect descriptors hold, and the indices of `out(port)` and `count[port]`.
-/

set_option autoImplicit false

namespace Oox

open Library

variable {V : Type}

/-- What holds of a configuration between two steps. -/
structure PortsSound (c : State V) : Prop where
  mem : c.mem.Placed
  backed : Backed claimBalance Instr.claims c
  placed : ∀ l ∈ c.threads, c.mem.AllPlaced l

/-- A turn that neither moves a node to a node nor issues a call with 1024 written vars. -/
def RegularTurn (c : State V) (e : Turn) : Prop :=
  ∀ ins rest, c.threads[e.thread]? = some (ins :: rest) → ins.Regular

variable [Inhabited V]

namespace PortsSound

variable {c c' c'' : State V} {e : Turn}

omit [Inhabited V] in
theorem holdings (c : State V) : Holdings Instr.claims c :=
  fun _ _ ins _ k => ins.claims_nonneg k

theorem portStep (h : PortsSound c) (he : RegularTurn c e) {ins : Instr V} {rest : List (Instr V)}
    {push : List (Instr V)} {spawned : List (List (Instr V))}
    (htop : c.threads[e.thread]? = some (ins :: rest))
    (hexec : exec c.mem e.choice ins = .next c'.mem push spawned) :
    PortStep c.mem e.choice ins c'.mem push spawned := by
  have hl : ins :: rest ∈ c.threads := List.mem_of_getElem? htop
  refine ⟨h.mem, fun k => ?_, h.placed _ hl ins List.mem_cons_self, he ins rest htop, hexec⟩
  have howed := stack_le_owed h.backed (holdings c) hl k
  have hle : ins.claims k ≤ stackSum Instr.claims (ins :: rest) k :=
    le_stackSum (fun j _ => j.claims_nonneg k) List.mem_cons_self
  exact hle.trans howed

theorem step (h : PortsSound c) (he : RegularTurn c e) (hstep : c.step exec e = some c') :
    PortsSound c' := by
  obtain ⟨ins, rest, push, spawned, htop, hexec, hthreads⟩ := Config.step_cases hstep
  have hport := h.portStep he htop hexec
  have hstacks : ∀ l ∈ c.threads, StackOk (fun m j _ => Instr.Placed m j) c.mem l :=
    fun l hl => stackOk_iff.mpr (h.placed l hl)
  refine ⟨hport.mem_placed, h.backed.step htop hport.spends hthreads, fun l hl => ?_⟩
  have hstacks' : StackOk (fun m j _ => Instr.Placed m j) c'.mem l := by
    refine stacks_step h.backed (holdings c) hstacks htop hthreads ?_ ?_ ?_ l hl
    · exact fun other _ hok hwith => hport.placed_stable (hwith other List.mem_cons_self) hok
    · intro hrest
      rw [stackOk_iff] at hrest ⊢
      exact (Mem.allPlaced_append _ _).mpr ⟨hport.push_placed, hrest⟩
    · exact fun l hl => stackOk_iff.mpr (hport.spawned_placed l hl)
  exact stackOk_iff.mp hstacks'

/-- The program starts without nodes and arcs, on empty vars. -/
theorem start (locals : ℕ) (ops : List (Op V)) : PortsSound (initial locals ops) := by
  have hnode : ∀ n, (initial locals ops).mem.node n = default := by
    intro n
    show ((Mem.initial V).newVars locals).nodes.cell n = _
    rw [Mem.nodes_newVars]
    rfl
  have hsize : (initial locals ops).mem.nodes.size = 0 := by
    show ((Mem.initial V).newVars locals).nodes.size = 0
    rw [Mem.nodes_newVars]
    rfl
  have harcs : (initial locals ops).mem.arcs.size = 0 := by
    show ((Mem.initial V).newVars locals).arcs.size = 0
    rw [Mem.arcs_newVars]
    rfl
  have hvars : (initial locals ops).mem.vars.size = locals := by
    show ((Mem.initial V).newVars locals).vars.size = locals
    rw [Mem.vars_newVars_size]
    exact Nat.zero_add locals
  have hvar : ∀ v, ((initial locals ops).mem.var v).currentTask = none := by
    intro v
    show (((Mem.initial V).newVars locals).var v).currentTask = none
    rw [Mem.var_newVars]
    split <;> rfl
  refine ⟨⟨?_, ?_, ?_, ?_, ?_, ?_, ?_, fun v => .empty (hvar v)⟩, fun k => ?_, fun l hl => ?_⟩
  · intro n hlive
    rw [hnode] at hlive
    cases hlive
  · exact fun n hn => absurd hn (by omega)
  · exact fun n hn => absurd hn (by omega)
  · exact fun n hn => absurd hn (by omega)
  · exact fun n hn => absurd hn (by omega)
  · exact fun a ha => absurd ha (by omega)
  · exact fun a ha => absurd ha (by omega)
  · have hzero : claimBalance (Mem.initial V) k = 0 := by
      cases k <;> simp [claimBalance, Mem.initial, Heap.empty, Heap.sum]
    show claimBalance ((Mem.initial V).newVars locals) k + threadSum Instr.claims _ k ≤ 0
    rw [claimBalance_newVars, hzero]
    simp [initial, Instr.claims]
  · obtain rfl := List.mem_singleton.mp hl
    refine (Mem.allPlaced_cons _ _).mpr ⟨fun v hv => ?_, Mem.allPlaced_nil⟩
    rw [hvars]
    exact List.mem_range.mp hv

theorem of_reach {locals : ℕ} {ops : List (Op V)}
    (h : Reach exec RegularTurn (initial locals ops) c) : PortsSound c :=
  h.invariant (start locals ops) fun _ _ _ hsound he hstep => hsound.step he hstep

end PortsSound

/-! ## What a configuration holds -/

/-- The calls `out(port)` of an operation, each with its node. -/
def Instr.outs (m : Mem V) : Instr V → List (ℕ × ℕ)
  | .removeBackArc n p => [(n, p)]
  | .notifyNextWriter n p => [(n, p)]
  | .setNextWriter n p _ => [(n, p)]
  | .storeCountdown t _ count => if count.length < (m.node t).slots then [(t, count.length)] else []
  | .notifyArcs t _ _ (a :: _) _ =>
    if (m.arc a).kind = .flowBack then [(t, (m.arc a).port)] else []
  | .outLoad t i _ _ => if i < (m.node t).slots then [(t, i)] else []
  | .outCas t i _ _ => [(t, i)]
  | .outSub t i _ _ => [(t, i)]
  | .outNotify t i _ _ => [(t, i)]
  | .assignIncrement _ n p _ => [(n, p)]
  | _ => []

/-- The accesses `count[port]` of an operation, each with the length of the array. -/
def Instr.counts (m : Mem V) : Instr V → List (ℕ × ℕ)
  | .notifyArcs _ _ _ (a :: _) count =>
    if (m.arc a).kind = .flowBack then [((m.arc a).port, count.length)] else []
  | .outCas _ i count _ => [(i, count.length)]
  | .outSub _ i count _ => [(i, count.length)]
  | _ => []

/-- The vars of a configuration: the var objects, and what the calls of `run` that are about to
end return. -/
def liveVars (c : State V) : List Var :=
  (List.range c.mem.vars.size).map c.mem.var ++ c.threads.flatMap fun l => l.filterMap Instr.returns

/-- Every port of a configuration names a slot of its node, and every access through a port is in
bounds: of the slots of the node, of the 1024 slots of the layout `out` casts to, and of the
counters. What a var has for its node is a pointer to one. A copy of another thread's var stands
for that var. -/
structure PortsInBounds (c : State V) : Prop where
  aimed : ∀ u ∈ liveVars c, u.wild = false
  var : ∀ u ∈ liveVars c, ∀ n, u.currentTask = some n → c.mem.HasSlot n u.currentPort
  distinct : (liveVars c).Pairwise fun u u' => u.borrowed = false → u'.borrowed = false →
    ∀ n, u.currentTask = some n → u'.currentTask = some n → u.currentPort ≠ u'.currentPort
  waiting : ∀ n < c.mem.nodes.size, ∀ l, (c.mem.node n).head = .list l → ∀ a ∈ l,
    (c.mem.arc a).kind ≠ .backOnly → c.mem.HasSlot n (c.mem.arc a).port
  back : ∀ a < c.mem.arcs.size, (c.mem.arc a).kind = .backOnly →
    c.mem.HasSlot (c.mem.arc a).node (c.mem.arc a).port
  redirect : ∀ n < c.mem.nodes.size, ∀ d, (c.mem.node n).head = .redirect d →
    c.mem.HasSlot (c.mem.arc d).node (c.mem.arc d).port
  outs : ∀ l ∈ c.threads, ∀ ins ∈ l, ∀ x ∈ ins.outs c.mem,
    c.mem.HasSlot x.1 x.2 ∧ x.2 < 1024
  counters : ∀ l ∈ c.threads, ∀ ins ∈ l, ∀ x ∈ ins.counts c.mem, x.1 < x.2

/-- Turn `e` gives port `p` of task `t` to a written var argument. -/
def Gives (c : State V) (e : Turn) (t p : ℕ) : Prop :=
  ∃ (f : Frame V) (below : List (Instr V)) (x : ℕ) (mode : AccessMode) (rest : List Arg) (v n : ℕ),
    c.threads[e.thread]? = some (.setup f :: below) ∧ f.task = t ∧ f.port = p ∧
    f.args = .var x mode :: rest ∧ mode.isWriter = true ∧ f.env[x]? = some v ∧
    (c.mem.var v).currentTask = some n

namespace PortsSound

variable {c c' c'' : State V} {e e' : Turn}

omit [Inhabited V]

/-- The slots an operation uses exist. -/
theorem outs_hasSlot {m : Mem V} {ins : Instr V} (hins : ins.Placed m) :
    ∀ x ∈ ins.outs m, m.HasSlot x.1 x.2 := by
  intro x hx
  cases ins with
  | removeBackArc n p =>
    obtain rfl := List.mem_singleton.mp hx
    exact hins
  | notifyNextWriter n p =>
    obtain rfl := List.mem_singleton.mp hx
    exact hins
  | setNextWriter n p d =>
    obtain rfl := List.mem_singleton.mp hx
    exact hins
  | storeCountdown t canThrow count =>
    simp only [Instr.outs] at hx
    split at hx
    · rename_i hless
      obtain rfl := List.mem_singleton.mp hx
      exact ⟨hins.1, hless⟩
    · cases hx
  | notifyArcs t canThrow failed r count =>
    cases r with
    | nil => cases hx
    | cons a r =>
      simp only [Instr.outs] at hx
      split at hx
      · rename_i hkind
        obtain rfl := List.mem_singleton.mp hx
        have hfits := hins.2 a List.mem_cons_self
        exact ⟨hins.1.node, hfits.forward (by rw [hkind]; simp)⟩
      · cases hx
  | outLoad t i count refs =>
    simp only [Instr.outs] at hx
    split at hx
    · rename_i hless
      obtain rfl := List.mem_singleton.mp hx
      exact ⟨hins.node, hless⟩
    · cases hx
  | outCas t i count refs =>
    obtain rfl := List.mem_singleton.mp hx
    exact ⟨hins.1.node, hins.2.trans_eq hins.1.length⟩
  | outSub t i count refs =>
    obtain rfl := List.mem_singleton.mp hx
    exact ⟨hins.1.node, hins.2.trans_eq hins.1.length⟩
  | outNotify t i count refs =>
    obtain rfl := List.mem_singleton.mp hx
    exact ⟨hins.1.node, hins.2.trans_eq hins.1.length⟩
  | assignIncrement f n p a =>
    obtain rfl := List.mem_singleton.mp hx
    exact hins.slot
  | _ => cases hx

/-- A task has one counter for each slot, so the counters an operation uses exist too. -/
theorem counters_lt {m : Mem V} {ins : Instr V} (hins : ins.Placed m) :
    ∀ x ∈ ins.counts m, x.1 < x.2 := by
  intro x hx
  cases ins with
  | notifyArcs t canThrow failed r count =>
    cases r with
    | nil => cases hx
    | cons a r =>
      simp only [Instr.counts] at hx
      split at hx
      · rename_i hkind
        obtain rfl := List.mem_singleton.mp hx
        have hfits := hins.2 a List.mem_cons_self
        exact (hfits.forward (by rw [hkind]; simp)).trans_eq hins.1.length.symm
      · cases hx
  | outCas t i count refs =>
    obtain rfl := List.mem_singleton.mp hx
    exact hins.2
  | outSub t i count refs =>
    obtain rfl := List.mem_singleton.mp hx
    exact hins.2
  | _ => cases hx

/-- What the live vars hold is part of what the memory and the stacks hold. -/
theorem liveVars_claims_le (c : State V) (k : Claim) :
    ((liveVars c).map fun u => u.claims k).sum ≤
      (c.mem.vars.sum fun _ u => u.claims k) + threadSum Instr.claims c.threads k := by
  have hstack : ∀ l : List (Instr V),
      ((l.filterMap Instr.returns).map fun u => u.claims k).sum ≤ stackSum Instr.claims l k := by
    intro l
    induction l with
    | nil => exact le_rfl
    | cons ins l ih =>
      have hins := ins.claims_nonneg k
      rw [stackSum_cons, List.filterMap_cons]
      cases hreturns : ins.returns with
      | none => exact ih.trans (le_add_of_nonneg_left hins)
      | some r =>
        have hr : ins.claims k = r.claims k := by
          cases ins with
          | moveResult f r' =>
            cases hreturns
            rfl
          | _ => cases hreturns
        rw [List.map_cons, List.sum_cons, hr]
        exact add_le_add_right ih _
  have hthreads : ((c.threads.flatMap fun l => l.filterMap Instr.returns).map
      fun u => u.claims k).sum ≤ threadSum Instr.claims c.threads k := by
    induction c.threads with
    | nil => exact le_rfl
    | cons l ls ih =>
      rw [List.flatMap_cons, List.map_append, List.sum_append, threadSum_cons]
      exact add_le_add (hstack l) ih
  have hvars : (((List.range c.mem.vars.size).map c.mem.var).map fun u => u.claims k).sum =
      c.mem.vars.sum fun _ u => u.claims k := by
    rw [List.map_map]
    rfl
  rw [liveVars, List.map_append, List.sum_append, hvars]
  exact add_le_add_right hthreads _

/-- A claim has one holder, so two live vars never name the same port. -/
theorem pairwise_claims {us : List Var}
    (h : ∀ k, (us.map fun u => u.claims k).sum ≤ 1) :
    us.Pairwise fun u u' => ∀ k, u.claims k + u'.claims k ≤ 1 := by
  induction us with
  | nil => exact List.Pairwise.nil
  | cons u us ih =>
    have hsum : ∀ k, u.claims k + (us.map fun u => u.claims k).sum ≤ 1 := by
      intro k
      have hk := h k
      rwa [List.map_cons, List.sum_cons] at hk
    refine List.pairwise_cons.mpr ⟨fun u' hu' k => ?_, ih fun k => ?_⟩
    · have hle : u'.claims k ≤ (us.map fun u => u.claims k).sum := by
        apply List.single_le_sum
        · intro x hx
          obtain ⟨w, -, rfl⟩ := List.mem_map.mp hx
          exact w.claims_nonneg k
        · exact List.mem_map.mpr ⟨u', hu', rfl⟩
      have hk := hsum k
      omega
    · have hpos := u.claims_nonneg k
      have hk := hsum k
      omega

theorem liveVars_distinct (h : PortsSound c) : (liveVars c).Pairwise fun u u' =>
    u.borrowed = false → u'.borrowed = false →
    ∀ n, u.currentTask = some n → u'.currentTask = some n → u.currentPort ≠ u'.currentPort := by
  have hsum : ∀ k, ((liveVars c).map fun u => u.claims k).sum ≤ 1 := by
    intro k
    have hlive := liveVars_claims_le c k
    have hbacked := h.backed k
    have hnodes := c.mem.nodes.sum_nonneg (fun _ x => x.head.claims k)
      fun n _ => Head.claims_nonneg _ k
    cases k <;> simp only [claimBalance] at hbacked <;> omega
  refine (pairwise_claims hsum).imp fun {u u'} hle hown hown' n htask htask' heq => ?_
  have hk := hle (.port n u'.currentPort)
  simp [Var.claims, hown, hown', htask, htask', heq] at hk

/-- Every live var names a slot. -/
theorem liveVars_hasSlot (h : PortsSound c) : ∀ u ∈ liveVars c, ∀ n, u.currentTask = some n →
    c.mem.HasSlot n u.currentPort := by
  intro u hu n htask
  rcases List.mem_append.mp hu with hmem | hmem
  · obtain ⟨v, -, rfl⟩ := List.mem_map.mp hmem
    exact (h.mem.var v).slot n htask
  · obtain ⟨l, hl, hmem⟩ := List.mem_flatMap.mp hmem
    obtain ⟨ins, hins, hreturns⟩ := List.mem_filterMap.mp hmem
    cases ins with
    | moveResult f r =>
      cases hreturns
      exact (h.placed l hl _ hins).1.slot n htask
    | _ => cases hreturns

/-- Every live var that is intact holds a pointer. -/
theorem liveVars_aimed (hintact : Intact c) : ∀ u ∈ liveVars c, u.wild = false := by
  intro u hu
  rcases List.mem_append.mp hu with hmem | hmem
  · obtain ⟨v, -, rfl⟩ := List.mem_map.mp hmem
    exact hintact.mem v
  · obtain ⟨l, hl, hmem⟩ := List.mem_flatMap.mp hmem
    obtain ⟨ins, hins, hreturns⟩ := List.mem_filterMap.mp hmem
    exact hintact.returned l hl ins hins u hreturns

/-- What the invariant says about the ports of a configuration. -/
theorem inBounds (h : PortsSound c) (hintact : Intact c) : PortsInBounds c where
  aimed := liveVars_aimed hintact
  var := h.liveVars_hasSlot
  distinct := h.liveVars_distinct
  waiting n hn l hhead a ha hkind := by
    have hfits := h.mem.list n hn l hhead a ha
    exact ⟨hn, hfits.forward hkind⟩
  back := h.mem.back
  redirect n hn d hhead := (h.mem.redirect n hn d hhead).2
  outs l hl ins hins x hx := by
    have hslot := outs_hasSlot (h.placed l hl ins hins) x hx
    exact ⟨hslot, hslot.port.trans_le (h.mem.slots _ hslot.node).2⟩
  counters l hl ins hins x hx := counters_lt (h.placed l hl ins hins) x hx

/-- The call that gives a port is placed. -/
theorem gives_frame (h : PortsSound c) {t p : ℕ} (hgives : Gives c e t p) :
    t < c.mem.nodes.size ∧ p = 1 + ((c.mem.node t).args.filter VarArg.isWriter).length := by
  obtain ⟨f, below, x, mode, rest, v, n, htop, rfl, rfl, -⟩ := hgives
  have hf : f.Placed c.mem :=
    h.placed _ (List.mem_of_getElem? htop) (.setup f) List.mem_cons_self
  exact ⟨hf.task, hf.port⟩

theorem gives_hasSlot (h : PortsSound c) {t p : ℕ} (hgives : Gives c e t p) :
    c.mem.HasSlot t p := by
  obtain ⟨f, below, x, mode, rest, v, n, htop, rfl, rfl, hargs, hwriter, -⟩ := hgives
  have hf : f.Placed c.mem :=
    h.placed _ (List.mem_of_getElem? htop) (.setup f) List.mem_cons_self
  have hslots := hf.slots
  have hfirst : Arg.isWriter (.var x mode) = true := hwriter
  rw [hargs, List.filter_cons_of_pos hfirst, List.length_cons] at hslots
  exact ⟨hf.task, by omega⟩

variable [Inhabited V]

/-- Giving a port records one more writer. -/
theorem gives_records (h : PortsSound c) {t p : ℕ} (hgives : Gives c e t p)
    (hstep : c.step exec e = some c') :
    ((c'.mem.node t).args.filter VarArg.isWriter).length = p := by
  have hframe := h.gives_frame hgives
  obtain ⟨f, below, x, mode, rest, v, n, htop, rfl, rfl, hargs, hwriter, henv, htask⟩ := hgives
  obtain ⟨ins, rest', push, spawned, htop', hexec, -⟩ := Config.step_cases hstep
  obtain ⟨rfl, -⟩ := List.cons.inj (Option.some.inj (htop.symm.trans htop'))
  have hrecord : ∃ arg : VarArg, arg.isWriter = true ∧
      (c'.mem.node f.task).args = (c.mem.node f.task).args ++ [arg] := by
    refine ⟨⟨mode, Exec.argPtr (c.mem.var v), (n, (c.mem.var v).currentPort)⟩, hwriter, ?_⟩
    unfold exec at hexec
    split at hexec
    · simp only [Exec.setup, hargs, henv, htask, hwriter, if_true] at hexec
      generalize c'.mem = m' at hexec
      repeat' split at hexec
      all_goals
        cases hexec
        try simp
    · cases hexec
  obtain ⟨arg, harg, heq⟩ := hrecord
  rw [heq, List.filter_append, List.length_append, List.filter_cons_of_pos harg, hframe.2]
  simp
  omega

/-- Ports of one call are given in increasing order. -/
theorem gives_lt (h : PortsSound c) (h'' : PortsSound c'') {t p p' : ℕ} (hgives : Gives c e t p)
    (hstep : c.step exec e = some c') (hfrozen : Frozen c'.mem c''.mem)
    (hgives' : Gives c'' e' t p') : p < p' := by
  have hrecord := h.gives_records hgives hstep
  have hlater := (h''.gives_frame hgives').2
  have ht : t < c'.mem.nodes.size := by
    obtain ⟨ins, rest, push, spawned, -, hexec, -⟩ := Config.step_cases hstep
    exact (h.gives_frame hgives).1.trans_le ((exec_frozen e.choice ins).of_next hexec).nodes_le
  have hprefix := (((hfrozen.node t ht).args).filter VarArg.isWriter).length_le
  omega

end PortsSound

/-! ## The result -/

/-- A regular turn that invokes no body with a var object as an argument that it writes. -/
def PortTurn (c : State V) (e : Turn) : Prop := RegularTurn c e ∧ SparingTurn c e

/-- In every state that a program reaches without writing over a var object, every port names an
existing slot of its node, no two vars share a port of one node, and all accesses through ports
are in bounds; the written arguments of one call get distinct slots of its task, in increasing
order. -/
theorem ports_in_bounds {locals : ℕ} {ops : List (Op V)} {c : State V}
    (h : Reach exec PortTurn (initial locals ops) c) :
    PortsInBounds c ∧ ∀ e t p, Gives c e t p → c.mem.HasSlot t p ∧
      ∀ c', c.step exec e = some c' → ∀ c'', Reach exec PortTurn c' c'' →
        ∀ e' p', Gives c'' e' t p' → p < p' := by
  have hregular : ∀ {c₁ c₂ : State V}, Reach exec PortTurn c₁ c₂ → Reach exec RegularTurn c₁ c₂ :=
    fun hreach => hreach.mono fun _ _ he => he.1
  have hsound := PortsSound.of_reach (hregular h)
  have hintact := Intact.of_reach (fun _ _ (he : PortTurn _ _) => he.2) h
  refine ⟨hsound.inBounds hintact, fun e t p hgives => ⟨hsound.gives_hasSlot hgives, ?_⟩⟩
  intro c' hstep c'' hreach e' p' hgives'
  have hturn : RegularTurn c e := by
    obtain ⟨f, below, x, mode, rest, v, n, htop, -⟩ := hgives
    intro ins rest' htop'
    obtain ⟨rfl, -⟩ := List.cons.inj (Option.some.inj (htop.symm.trans htop'))
    trivial
  have hlater : Reach exec RegularTurn (initial locals ops) c'' :=
    ((hregular h).step e hturn hstep).trans (hregular hreach)
  exact hsound.gives_lt (PortsSound.of_reach hlater) hgives hstep (frozen_of_reach hreach) hgives'

/-! ### A deferred var and a second writer -/

section Example

/-- The checks of a computed run: `RegularTurn`, `PortTurn`, and which port the next turn gives. -/
def regularTurn (c : State ℕ) (e : Turn) : Bool :=
  match c.threads[e.thread]? with
  | some (.runOps _ (op :: _) _ :: _) => decide op.Regular
  | _ => true

def portTurn (c : State ℕ) (e : Turn) : Bool :=
  regularTurn c e && match c.threads[e.thread]? with
    | some (ins :: _) => spares c.mem ins
    | _ => true

def givenPort (c : State ℕ) (e : Turn) : Option (ℕ × ℕ) :=
  match c.threads[e.thread]? with
  | some (.setup f :: _) =>
    match f.args with
    | .var x mode :: _ =>
      if mode.isWriter ∧ ((f.env[x]?).bind fun v => (c.mem.var v).currentTask).isSome then
        some (f.task, f.port)
      else none
    | _ => none
  | _ => none

theorem regularTurn_sound {c : State ℕ} {e : Turn} (h : regularTurn c e = true) :
    RegularTurn c e := by
  intro ins rest htop
  unfold regularTurn at h
  rw [htop] at h
  cases ins with
  | runOps env ops tid =>
    cases ops with
    | nil => trivial
    | cons op ops =>
      have hop : op.Regular := of_decide_eq_true h
      exact hop
  | _ => trivial

theorem portTurn_sound {c : State ℕ} {e : Turn} (h : portTurn c e = true) : PortTurn c e := by
  unfold portTurn at h
  rw [Bool.and_eq_true] at h
  refine ⟨regularTurn_sound h.1, fun ins rest htop => ?_⟩
  have hspares := h.2
  rw [htop] at hspares
  exact spares_of_check hspares

theorem gives_of_givenPort {c : State ℕ} {e : Turn} {t p : ℕ} (h : givenPort c e = some (t, p)) :
    Gives c e t p := by
  unfold givenPort at h
  split at h
  · rename_i f below htop
    split at h
    · rename_i x mode rest hargs
      split_ifs at h with hgiven
      obtain ⟨hmode, hnode⟩ := hgiven
      obtain ⟨n, hn⟩ := Option.isSome_iff_exists.mp hnode
      obtain ⟨v, hv, hn⟩ := Option.bind_eq_some_iff.mp hn
      obtain ⟨rfl, rfl⟩ := Prod.mk.inj (Option.some.inj h)
      exact ⟨f, below, x, mode, rest, v, n, htop, rfl, rfl, hargs, hmode, hv, hn⟩
    · cases h
  · cases h

/-- A reader and then a writer of a deferred var; the writer also writes a value var. -/
def deferredProgram : List (Op ℕ) :=
  let body : Body ℕ := { result := fun _ => 0 }
  [.deferred 0 true, .value 1 true 5, .run none [.var 0 .copyOnly] true .value body,
    .run none [.var 0 .readWrite, .plain, .var 1 .final] true .value body]

/-- After the redirect of the deferred node the writer's second written argument gets port 2. -/
theorem ports_in_bounds_deferred : ∃ c, Reach exec PortTurn (initial 2 deferredProgram) c ∧
    (c.mem.var 0).currentTask = some 3 ∧ (c.mem.var 0).currentPort = 1 ∧
    Gives c ⟨0, false⟩ 3 2 ∧ PortsInBounds c ∧ c.mem.HasSlot 3 2 := by
  obtain ⟨c, hreach, hc⟩ := Reach.exists_of_runIf exec portTurn (initial 2 deferredProgram)
    (rounds [(0, 25)])
    (fun c => decide ((c.mem.var 0).currentTask = some 3 ∧ (c.mem.var 0).currentPort = 1 ∧
      givenPort c ⟨0, false⟩ = some (3, 2)))
    (by decide)
  obtain ⟨htask, hport, hgiven⟩ := of_decide_eq_true hc
  have hgives : Gives c ⟨0, false⟩ 3 2 := gives_of_givenPort hgiven
  have hturns : Reach exec PortTurn (initial 2 deferredProgram) c :=
    hreach.mono fun _ _ => portTurn_sound
  obtain ⟨hbounds, hgiven⟩ := ports_in_bounds hturns
  exact ⟨c, hturns, htask, hport, hgives, hbounds, (hgiven _ 3 2 hgives).1⟩

/-! ### A body that writes over a var object -/

/-- A var that two tasks forward is taken by a task that writes to it. -/
def overwriteForwarded : List (Op ℕ) :=
  let wrap (kind : ResultKind) (code : Body ℕ) : Body ℕ :=
    { locals := 1, ops := fun _ => [.run (some 0) [] false kind code], result := fun _ => 0 }
  let seven : Body ℕ := { result := fun _ => 7 }
  let write : Body ℕ := { result := fun _ => 0, writes := fun _ => [1] }
  [.run (some 0) [] false .var (wrap .var (wrap .value seven)),
    .run none [.var 0 .readWrite] false .value write]

/-- The body of the writer gets the var that the second forwarding task returned: the var is
still there, and what it has for its task is no node. -/
theorem written_var_out_of_bounds : ∃ c, Reach exec RegularTurn (initial 1 overwriteForwarded) c ∧
    (c.mem.node 1).status = .live ∧ (c.mem.node 1).innerSet = true ∧
    (c.mem.var (c.mem.node 1).inner).wild = true ∧ ¬ PortsInBounds c := by
  obtain ⟨c, hreach, hc⟩ := Reach.exists_of_runIf exec regularTurn (initial 1 overwriteForwarded)
    (rounds [(0, 5), (1, 7), (2, 7), (3, 16), (2, 21), (1, 21), (0, 16), (4, 2)])
    (fun c => decide ((c.mem.node 1).status = .live ∧ (c.mem.node 1).innerSet = true ∧
      (c.mem.node 1).inner < c.mem.vars.size ∧ (c.mem.var (c.mem.node 1).inner).wild = true))
    (by decide)
  obtain ⟨hlive, hset, hlt, hwild⟩ := of_decide_eq_true hc
  refine ⟨c, hreach.mono fun _ _ => regularTurn_sound, hlive, hset, hwild, fun hbounds => ?_⟩
  have hmem : c.mem.var (c.mem.node 1).inner ∈ liveVars c :=
    List.mem_append_left _ (List.mem_map.mpr ⟨_, List.mem_range.mpr hlt, rfl⟩)
  have haimed := hbounds.aimed _ hmem
  rw [hwild] at haimed
  cases haimed

end Example

end Oox
