import Oox.Versions.Chain

/-!
# No step uses freed memory

A running task keeps the storages of all its arguments: those it writes make its own versions,
whose slots are not notified before it finishes, and those it reads are versions that count it
as a reader. A var keeps the storage that it names, and a forwarded var the chain of vars that
`wait_and_get` follows. So in a reachable configuration no step finds a node, an arc, a payload
or a value that was freed, whatever the other threads do.
-/

set_option autoImplicit false

namespace Oox

open Library

variable {V : Type}

/-! ## Arguments of a running task -/

/-- An arc that is charged to a version keeps it from being notified. -/
theorem notified_of_charged {m : Mem V} (hok : MemOk m) {a : ℕ} (ha : a < m.arcs.size)
    (halive : (m.arc a).alive = true) (hrole : (m.arc a).role = .charged)
    (hbal : balance m (.back (m.arc a).node (m.arc a).port) ≤ 0) :
    ((m.node (m.arc a).node).out (m.arc a).port).notified = 0 := by
  have hbalance : 1 ≤ arcBalance a (m.arc a) (.back (m.arc a).node (m.arc a).port) := by
    have htoken : Token.back (m.arc a).node (m.arc a).port ≠ (m.arc a).token a := by
      unfold Arc.token
      split
      · simp
      · rw [hrole]
        simp
    simp [arcBalance, halive, Arc.carries, hrole, one_of_ne htoken, one_of_ne (t := .control _)]
  -- the memory without the arc owes its unit of the countdown
  have hwithout := balance_setArc m (.back (m.arc a).node (m.arc a).port) ha
    { m.arc a with alive := false }
  have hdead : arcBalance a { m.arc a with alive := false }
      (.back (m.arc a).node (m.arc a).port) = 0 := rfl
  obtain ⟨hn, -, -, hle⟩ := owed_back (n := (m.arc a).node) (p := (m.arc a).port) (c := 1)
    (m := m.setArc a { m.arc a with alive := false }) one_pos (by omega)
  apply hok.notified_of_handed hn
  right
  rw [Mem.node_setArc] at hle
  split at hle <;> omega

namespace Stored

variable {c c' : State V} {t o : ℕ} {arg : VarArg}

/-- A task that runs keeps what it writes to. -/
theorem live_of_writer (h : Stored c) (hbound : Bounded c.mem) (ht : t < c.mem.nodes.size)
    (hphase : (c.mem.node t).phase = .running) (harg : arg ∈ (c.mem.node t).args)
    (hmode : arg.mode.isWriter = true) (howner : c.mem.Belongs (some o) arg.ptr.storage) :
    (c.mem.node o).status = .live := by
  have hmem : arg ∈ (c.mem.node t).written := List.mem_filter.mpr ⟨harg, hmode⟩
  obtain ⟨i, hi⟩ := List.mem_iff_getElem?.mp hmem
  obtain ⟨hport, -⟩ := h.store.written t ht i arg hi
  have hversion : c.mem.Version t (i + 1) arg.ptr.storage := ⟨ht, by simp [Mem.storageAt, hi]⟩
  apply h.live_of_version hbound hversion howner hport
  exact h.safe.sound.mem.notified_of_phase ht (by simp [hphase]) _

/-- A task that runs keeps what it reads. -/
theorem live_of_reader (h : Stored c) (hbound : Bounded c.mem)
    (hphase : (c.mem.node t).phase = .running) (hargs : ArgStored c.mem t arg)
    (hmode : arg.mode.isWriter = false) (howner : c.mem.Belongs (some o) arg.ptr.storage) :
    (c.mem.node o).status = .live := by
  have hmem := h.safe.sound.mem
  have hbal := h.balance_le hbound
  obtain ⟨a, ha, q, p, hreads, hversion, -⟩ := hargs.reader hmode
  have hok := hmem.arc a ha
  have hx := h.store.arc a ha
  obtain ⟨-, -, hp⟩ := hok.reads _ _ _ hreads
  have halive : (c.mem.arc a).role ≠ .spent → (c.mem.arc a).alive = true := by
    intro hrole
    by_contra hdead
    exact hrole (h.store.deleted a ha (by simpa using hdead))
  have hspent : (c.mem.arc a).role = .spent → (c.mem.node o).status = .live := by
    intro hrole
    exfalso
    rcases hx.spent _ _ _ hreads hrole with hfinished | hnone
    · rw [hphase] at hfinished
      cases hfinished
    · have hslot := h.store.slot q hversion.lt p
      rw [hnone] at hslot
      obtain ⟨s, hversion', howner'⟩ := hslot
      obtain rfl := hversion.inj hversion'
      cases howner.inj hbal howner'
  have hallows := hok.kind
  cases hkind : (c.mem.arc a).kind with
  | flowBack =>
    rw [hkind] at hallows
    rcases hallows with hwaiting | hrole
    · -- a reader that waits does not run
      exfalso
      have hself := hok.flowBack hkind hwaiting
      rw [hreads] at hself
      obtain ⟨hnode, -⟩ := Prod.mk.inj (Option.some.inj hself)
      obtain ⟨-, hpre⟩ := pre_of_waiting ha (halive (by simp [hwaiting])) hwaiting (hbal _)
      rw [← hnode, hphase] at hpre
      simp [Phase.prerequisites] at hpre
    · exact hspent hrole
  | backOnly =>
    rw [hkind] at hallows
    rcases hallows with hcharged | hrole
    · have hself := hok.charged hcharged
      rw [hreads] at hself
      obtain ⟨-, hslot⟩ := Prod.mk.inj (Option.some.inj hself)
      obtain ⟨rfl, rfl⟩ := Prod.mk.inj hslot
      apply h.live_of_version hbound hversion howner hp
      exact notified_of_charged hmem ha (halive (by simp [hcharged])) hcharged (hbal _)
    · exact hspent hrole
  | flowOnly =>
    rw [hx.reads (.inl hkind)] at hreads
    cases hreads
  | exceptionSignal =>
    rw [hx.reads (.inr hkind)] at hreads
    cases hreads
  | flowCopy =>
    rw [hkind] at hallows
    exact hallows.elim
  | forwardCopy =>
    rw [hkind] at hallows
    exact hallows.elim

/-- The storages of a running task's arguments belong to live nodes. -/
theorem live_of_argument (h : Stored c) (hbound : Bounded c.mem) (ht : t < c.mem.nodes.size)
    (hphase : (c.mem.node t).phase = .running) (harg : arg ∈ (c.mem.node t).args)
    (howner : c.mem.Belongs (some o) arg.ptr.storage) : (c.mem.node o).status = .live := by
  cases hmode : arg.mode.isWriter with
  | true => exact h.live_of_writer hbound ht hphase harg hmode howner
  | false => exact h.live_of_reader hbound hphase (h.store.arg t ht arg harg) hmode howner

theorem writes_live (h : Stored c) (hbound : Bounded c.mem) : WritesLive c.mem :=
  fun _ ht hphase _ harg _ _ howner => h.live_of_argument hbound ht hphase harg howner

/-! ## Runs -/

section Runs

variable [Inhabited V]

theorem step {e : Turn} (h : Stored c) (he : Admitted c e) (hstep : c.step exec e = some c') :
    Stored c' := by
  obtain ⟨ins, rest, push, spawned, htop, hexec, hthreads⟩ := Config.step_cases hstep
  have hsafe := h.safe.step he hstep
  have hlegal := h.safe.sound.legal he htop hexec
  have hwrites := h.writes_live he.bounded
  have hins : ins.Stored c.mem rest := (h.threads _ (List.mem_of_getElem? htop)).1
  -- the facts about versions, beside those that are known to hold
  let both : Mem V → Instr V → List (Instr V) → Prop := fun m j r => j.Ok m ∧ j.Stored m r
  have hboth : ∀ l ∈ c.threads, StackOk both c.mem l := fun l hl =>
    (h.threads l hl).imp fun j r hsuffix hj =>
      ⟨h.safe.sound.ready l hl j (hsuffix.subset List.mem_cons_self), hj⟩
  refine ⟨hsafe, hlegal.store_ok h.store hins, fun l hl => ?_⟩
  suffices hboth' : StackOk both c'.mem l from hboth'.imp fun j r _ hj => hj.2
  refine stacks_step (Balanced.backed h.safe.sound.law) (h.safe.sound.holdings he.bounded) hboth
    htop hthreads ?_ ?_ ?_ l hl
  · intro j r hj hwith
    exact ⟨hlegal.ok_stable (hwith j List.mem_cons_self) hj.1,
      hlegal.stored_stable h.store hwrites hwith hj.1 hj.2⟩
  · intro hrest
    have hpushes := hlegal.pushes_stored h.store hwrites hins (hrest.imp fun j r _ hj => hj.2)
    refine hpushes.imp fun j r hsuffix hj => ⟨?_, hj⟩
    rcases List.mem_append.mp (hsuffix.subset List.mem_cons_self) with hmem | hmem
    · exact hlegal.ready j hmem
    · obtain ⟨_, -, hok⟩ := hrest.exists_rest hmem
      exact hok.1
  · intro l' hl'
    refine (hlegal.spawned_stored l' hl').imp fun j r hsuffix hj => ⟨?_, hj⟩
    exact hlegal.spawned_ready l' hl' j (hsuffix.subset List.mem_cons_self)

theorem start (locals : ℕ) (ops : List (Op V)) : Stored (initial locals ops) where
  safe := .start locals ops
  store :=
    { var := fun v hv => by
        apply Var.Stored.none
        show (((Mem.initial V).newVars locals).var v).currentTask = none
        rw [Mem.var_newVars, if_pos ⟨Nat.zero_le _, by
          simpa [initial, Mem.initial, Heap.empty] using hv⟩]
      slot := fun n hn => by simp [initial, Mem.initial, Heap.empty] at hn
      inner := fun n hn => by simp [initial, Mem.initial, Heap.empty] at hn
      arg := fun n hn => by simp [initial, Mem.initial, Heap.empty] at hn
      written := fun n hn => by simp [initial, Mem.initial, Heap.empty] at hn
      arc := fun a ha => by simp [initial, Mem.initial, Heap.empty] at ha
      deleted := fun a ha => by simp [initial, Mem.initial, Heap.empty] at ha }
  threads l hl := by
    rw [List.mem_singleton.mp hl]
    exact ⟨trivial, trivial⟩

/-- Every configuration that admitted steps reach knows the storages of all versions. -/
theorem of_reach {locals : ℕ} {ops : List (Op V)}
    (h : Reach exec Admitted (initial locals ops) c) : Stored c :=
  h.invariant (start locals ops) fun _ _ _ hstored he hstep => hstored.step he hstep

end Runs

/-! ## Values -/

section Values

variable {v n : ℕ}

/-- A var in memory that names a version keeps its storage. -/
theorem live_of_var_storage (h : Stored c) (hbound : Bounded c.mem) (hv : v < c.mem.vars.size)
    {q : ℕ} (htask : (c.mem.var v).currentTask = some q)
    (howner : c.mem.Belongs (some o) (c.mem.var v).storage) : (c.mem.node o).status = .live := by
  have hbal := h.balance_le hbound
  have hself := ((h.store.var v hv).owner q htask).inj hbal howner
  cases hborrowed : (c.mem.var v).borrowed with
  | false => exact live_of_owner (hbal _) hv hborrowed (by simp [htask]) hself
  | true =>
    -- a copy stands for another thread's var
    obtain ⟨w, hw, -, hown, heq⟩ := (h.safe.sound.mem.var v hv).borrowed hborrowed
    rw [heq] at htask hself
    have hnamed : (c.mem.var w).currentTask = some q := htask
    exact live_of_owner (hbal _) hw hown (by simp [hnamed]) hself

/-- The storage that the var of a live task leads to. -/
theorem live_of_inner (h : Stored c) (hbound : Bounded c.mem) (ht : o < c.mem.nodes.size)
    (hkind : (c.mem.node o).kind = .task) (hlive : (c.mem.node o).status = .live)
    (howner : c.mem.Belongs (some n) (c.mem.var (c.mem.node o).inner).storage) :
    (c.mem.node n).status = .live := by
  cases htask : (c.mem.var (c.mem.node o).inner).currentTask with
  | none =>
    rw [h.store.inner o ht hkind hlive htask] at howner
    exact howner.elim
  | some q =>
    exact h.live_of_var_storage hbound (h.safe.sound.mem.inner o ht hkind).lt htask howner

/-- The value that an argument of a running task leads to is there. -/
theorem live_of_resolve (h : Stored c) (hbound : Bounded c.mem) (ht : t < c.mem.nodes.size)
    (hphase : (c.mem.node t).phase = .running) (harg : arg ∈ (c.mem.node t).args)
    (hleads : Exec.resolve c.mem arg.ptr = .result n) : (c.mem.node n).status = .live := by
  have hkept := fun q => h.live_of_argument hbound ht hphase harg (o := q)
  have hargs := h.store.arg t ht arg harg
  cases hptr : arg.ptr with
  | plain s =>
    rw [hptr] at hleads hkept
    obtain rfl : s = .result n := hleads
    exact hkept n rfl
  | forwarded v =>
    have howner := hargs.owner
    rw [hptr] at hleads hkept howner
    obtain ⟨-, q, hq, hkind, rfl, rfl⟩ := howner
    apply h.live_of_inner hbound hq hkind (hkept q ⟨q, hq, hkind, rfl, rfl⟩)
    rw [show (c.mem.var (c.mem.node q).inner).storage = .result n from hleads]
    rfl

/-- A task that holds a var object owns it. -/
theorem belongs_of_holder {m : Mem V} {w t : ℕ} (ht : t ∈ m.holders w) :
    m.Belongs (some t) (.varObject w) := by
  obtain ⟨hlt, hkind, hinner⟩ := Mem.mem_holders.mp ht
  exact ⟨t, hlt, hkind, hinner, rfl⟩

/-- The tasks through which a running task finds its arguments are there. -/
theorem live_of_argHolder (h : Stored c) (hbound : Bounded c.mem) (ht : t < c.mem.nodes.size)
    (hphase : (c.mem.node t).phase = .running) (harg : arg ∈ (c.mem.node t).args)
    (hn : n ∈ argHolders c.mem arg.ptr) : (c.mem.node n).status = .live := by
  have hkept := fun q => h.live_of_argument hbound ht hphase harg (o := q)
  have hargs := h.store.arg t ht arg harg
  cases hptr : arg.ptr with
  | plain s =>
    rw [hptr] at hn hkept
    cases s with
    | varObject w => exact hkept n (belongs_of_holder hn)
    | _ => cases hn
  | forwarded w =>
    have howner := hargs.owner
    rw [hptr] at hn hkept howner
    rcases List.mem_append.mp hn with hfirst | hsecond
    · exact hkept n (belongs_of_holder hfirst)
    · split at hsecond
      · rename_i w' hw'
        obtain ⟨-, q, hq, hkind, rfl, rfl⟩ := howner
        apply h.live_of_inner hbound hq hkind (hkept q ⟨q, hq, hkind, rfl, rfl⟩)
        rw [hw']
        exact belongs_of_holder hsecond
      · cases hsecond

/-- What a body writes to is there. -/
theorem live_of_cell (h : Stored c) (hbound : Bounded c.mem) {env : List ℕ} {vals : List V}
    {cells : List StoragePtr} {rest : List (Instr V)}
    (hl : .finish t env vals cells :: rest ∈ c.threads) {cell : StoragePtr} (hcell : cell ∈ cells)
    (hn : n ∈ storageNodes c.mem cell) : (c.mem.node n).status = .live := by
  have hcov := h.covered hbound hl List.mem_cons_self
  have hexec : 0 < (Instr.finish t env vals cells : Instr V).tokens (.exec t) := Legal.finish_exec
  obtain ⟨ht, hphase, -⟩ := owed_exec (hexec.trans_le (hcov _))
  have hcells : (After.body t vals cells : After V).Stored c.mem := (h.threads _ hl).1
  have hok : (Instr.finish t env vals cells).Ok c.mem :=
    h.safe.sound.ready _ hl _ List.mem_cons_self
  cases cell with
  | result q =>
    obtain rfl := List.mem_singleton.mp hn
    obtain ⟨arg, harg, -, hleads⟩ := hcells n hcell
    apply h.live_of_resolve hbound ht hphase harg
    cases hptr : arg.ptr with
    | plain s =>
      rw [hptr] at hleads
      exact hleads
    | forwarded v =>
      rw [hptr] at hleads
      exact hleads.1
  | varObject w => exact absurd hcell (hok.2 w)
  | _ => cases hn

/-- What a var leads to: nothing yet, or a storage whose owner is alive. -/
def Leads (m : Mem V) (u : Var) : Prop :=
  u.storage = .null ∨ ∃ o, m.Belongs o u.storage ∧ ∀ q, o = some q → (m.node q).status = .live

theorem leads_of_var (h : Stored c) (hbound : Bounded c.mem) (hv : v < c.mem.vars.size) {q : ℕ}
    (htask : (c.mem.var v).currentTask = some q) : Leads c.mem (c.mem.var v) := by
  have howner := (h.store.var v hv).owner q htask
  refine .inr ⟨_, howner, fun o ho => ?_⟩
  exact h.live_of_var_storage hbound hv htask (ho ▸ howner)

theorem leads_of_inner (h : Stored c) (hbound : Bounded c.mem) (ht : t < c.mem.nodes.size)
    (hkind : (c.mem.node t).kind = .task) (hlive : (c.mem.node t).status = .live) :
    Leads c.mem (c.mem.var (c.mem.node t).inner) := by
  cases htask : (c.mem.var (c.mem.node t).inner).currentTask with
  | none => exact .inl (h.store.inner t ht hkind hlive htask)
  | some q => exact h.leads_of_var hbound (h.safe.sound.mem.inner t ht hkind).lt htask

theorem storageValue_alive {m : Mem V} {u : Var} (hleads : Leads m u) :
    storageValue m u.storage ≠ .fault .useAfterFree := by
  cases hs : u.storage with
  | result n =>
    rcases hleads with hnull | ⟨o, howner, hlive⟩
    · simp [hnull] at hs
    · rw [hs] at howner
      have hn := hlive n howner
      unfold storageValue
      simp only [hn, ne_eq, not_true_eq_false, if_false]
      split <;> simp
  | _ => simp [storageValue]

/-- What a var with an owner leads to is a var object of a live task. -/
theorem live_of_leads {m : Mem V} (hbal : ∀ k, balance m k ≤ 0) {u : Var} {w t : ℕ}
    (hleads : Leads m u) (hw : u.storage = .varObject w) (ht : t ∈ m.holders w) :
    (m.node t).status = .live := by
  rcases hleads with hnull | ⟨o, howner, hlive⟩
  · simp [hnull] at hw
  · rw [hw] at howner
    exact hlive t (howner.inj hbal (belongs_of_holder ht))

/-- `wait_and_get` follows forwarded vars only through tasks that are alive. -/
theorem follow_alive (h : Stored c) (hbound : Bounded c.mem) (canThrow : Bool) (fuel : ℕ)
    {u : Var} (hleads : Leads c.mem u) :
    followForwarded c.mem canThrow fuel u ≠ .fault .useAfterFree := by
  induction fuel generalizing u with
  | zero => simp [followForwarded]
  | succ fuel ih =>
    unfold followForwarded
    split
    · split
      · split
        · rename_i w hw
          apply ih
          rcases hleads with hnull | ⟨o, howner, hlive⟩
          · simp [hnull] at hw
          · rw [hw] at howner
            obtain ⟨t, ht, hkind, rfl, rfl⟩ := howner
            exact h.leads_of_inner hbound ht hkind (hlive t rfl)
        · simp
        · simp
      · exact storageValue_alive hleads
    · simp

theorem mem_statusTask {canThrow : Bool} {u : Var} (hn : n ∈ statusTask canThrow u) :
    u.currentTask = some n := by
  unfold statusTask at hn
  split at hn
  · exact Option.mem_toList.mp hn
  · cases hn

/-- The task of a var in memory is live. -/
theorem live_of_statusTask (h : Stored c) (hbound : Bounded c.mem) (hv : v < c.mem.vars.size)
    {canThrow : Bool} (hn : n ∈ statusTask canThrow (c.mem.var v)) :
    (c.mem.node n).status = .live :=
  h.safe.sound.mem.live_of_var (h.balance_le hbound) hv (mem_statusTask hn)

/-- `wait_and_get` goes only through var objects of live tasks. -/
theorem passed_live (h : Stored c) (hbound : Bounded c.mem) (canThrow : Bool) (fuel : ℕ)
    {u : Var} (hleads : Leads c.mem u) : ∀ w ∈ passedVars c.mem canThrow fuel u,
      w < c.mem.vars.size ∧ ∀ t ∈ c.mem.holders w, (c.mem.node t).status = .live := by
  induction fuel generalizing u with
  | zero => simp [passedVars]
  | succ fuel ih =>
    unfold passedVars
    split
    · split
      · split
        · rename_i w hw
          rcases id hleads with hnull | ⟨o, howner, hlive⟩
          · simp [hnull] at hw
          · rw [hw] at howner
            obtain ⟨t, ht, hkind, rfl, rfl⟩ := howner
            intro x hx
            rcases List.mem_cons.mp hx with rfl | hx
            · refine ⟨(h.safe.sound.mem.inner t ht hkind).lt, fun q hq => ?_⟩
              exact live_of_leads (h.balance_le hbound) hleads hw hq
            · exact ih (h.leads_of_inner hbound ht hkind (hlive t rfl)) x hx
        · simp
      · simp
    · simp

end Values

end Stored

/-! ## Every step -/

section Steps

variable [Inhabited V] {m m' : Mem V} {ins : Instr V} {rest : List (Instr V)}

/-- Reading arguments does not change where other arguments lead. -/
theorem Consumed.resolve (h : Consumed m m') (p : ArgPtr) :
    Exec.resolve m' p = Exec.resolve m p := by
  cases p with
  | plain s => rfl
  | forwarded v =>
    simp only [Exec.resolve]
    rcases h.var v with heq | heq <;> rw [heq]

theorem Consumed.status (h : Consumed m m') (n : ℕ) : (m'.node n).status = (m.node n).status := by
  obtain ⟨result, made, heq, -⟩ := h.node n
  rw [heq]

theorem consume_alive {mode : AccessMode} {p : ArgPtr}
    (hlive : ∀ n, Exec.resolve m p = .result n → (m.node n).status = .live) :
    Exec.consume m mode p ≠ .error .useAfterFree := by
  unfold Exec.consume
  split
  · simp
  · simp
  · rename_i n hn
    simp only [hlive n hn, ne_eq, not_true_eq_false, if_false]
    split <;> simp
  · split <;> simp

theorem consumeAll_alive {l : List VarArg}
    (hlive : ∀ arg ∈ l, ∀ n, Exec.resolve m arg.ptr = .result n → (m.node n).status = .live) :
    Exec.consumeAll m l ≠ .error .useAfterFree := by
  induction l generalizing m with
  | nil => simp [Exec.consumeAll]
  | cons arg l ih =>
    have hfirst : Exec.consume m arg.mode arg.ptr ≠ .error .useAfterFree :=
      consume_alive (hlive arg List.mem_cons_self)
    unfold Exec.consumeAll
    split
    · rename_i e he
      rw [he] at hfirst
      simpa using hfirst
    · rename_i m₁ v hv
      have hconsumed := consume_consumed hv
      have hnext : Exec.consumeAll m₁ l ≠ .error .useAfterFree := by
        apply ih
        intro x hx n hn
        rw [hconsumed.resolve] at hn
        rw [hconsumed.status]
        exact hlive x (List.mem_cons_of_mem _ hx) n hn
      split
      · rename_i e he
        rw [he] at hnext
        simpa using hnext
      · simp

/-- Whether a step uses freed memory, where the check at its start does not tell. -/
def Instr.Checks (m : Mem V) : Instr V → Prop
  | .releaseControl c => (m.control c).alive = true
  | .retainTerminal _ c _ => (m.control c).alive = true
  | .retainSignal _ c => (m.control c).alive = true
  | .invoke t => Exec.consumeAll m (m.node t).args ≠ .error .useAfterFree
  | .waitRead v => waitAndGet m (m.var v) ≠ .fault .useAfterFree
  | _ => True

/-- A step whose objects are in their lifetimes uses no freed memory. -/
theorem exec_alive {spurious : Bool} (hlife : inLifetime m ins = true) (hchecks : ins.Checks m) :
    exec m spurious ins ≠ .fault .useAfterFree := by
  unfold exec
  rw [if_pos hlife]
  cases ins with
  | invoke t =>
    simp only [Exec.invoke]
    split
    · rename_i e he
      have hargs : Exec.consumeAll m (m.node t).args ≠ .error .useAfterFree := hchecks
      rw [he] at hargs
      simpa using hargs
    · simp
  | waitRead v =>
    simp only [Exec.waitRead]
    split
    · rename_i cause hcause
      have hread : waitAndGet m (m.var v) ≠ .fault .useAfterFree := hchecks
      rw [hcause] at hread
      simpa using hread
    · simp
  | releaseControl d =>
    have halive : (m.control d).alive = true := hchecks
    simp only [Exec.releaseControl]
    rw [if_pos halive]
    simp
  | retainTerminal t d count =>
    have halive : (m.control d).alive = true := hchecks
    simp only [Exec.retainTerminal]
    rw [if_pos halive]
    simp
  | retainSignal n d =>
    have halive : (m.control d).alive = true := hchecks
    simp only [Exec.retainSignal]
    rw [if_pos halive]
    simp
  | _ =>
    simp only [Exec.release, Exec.releaseSub, Exec.destroy, Exec.freeNode, Exec.deleteArc,
      Exec.addArc, Exec.addArcCas, Exec.rejected, Exec.removeBackArc_eq, Exec.notifyNextWriter,
      Exec.setNextWriter_eq, Exec.storeCountdown, OutputNode.arm, Exec.loadException, Exec.findTerminal,
      Exec.closeList, Exec.loadFailureFlag, Exec.notifyArcs, Exec.outLoad, Exec.outCas_eq,
      Exec.outSub_eq, Exec.outNotify, Exec.wakeup, Exec.removePrerequisite_eq, Exec.spawn,
      Exec.publish_eq, Exec.publishControl, Exec.mark, Exec.markLoad, Exec.markCheck, Exec.markCas,
      Exec.execute, Exec.finish, Exec.storeStart, Exec.addLife, Exec.forwardFailure, Exec.setup,
      Exec.assignHead, Exec.assignFailure, Exec.assignIncrement_eq, Exec.redirect, Exec.bind,
      Exec.moveResult, Exec.runOps, Exec.assignVar, Exec.waitHead, Exec.waitBlock, Exec.waitDone]
    try unfold Exec.moveArcs
    repeat' split
    all_goals simp

end Steps

namespace Stored

variable [Inhabited V] {c : State V} {ins : Instr V} {rest : List (Instr V)}

/-- A var that an instruction below names is in memory. -/
theorem lt_of_held (h : Stored c) (hbound : Bounded c.mem) {v : ℕ} (hl : ins :: rest ∈ c.threads)
    (hheld : Held (.var v) rest) : v < c.mem.vars.size := by
  obtain ⟨x, hx, hpos⟩ := hheld
  exact (owed_var (hpos.trans_le ((h.safe.poised hbound hl).below x hx _))).1

/-- What the instruction on top of a stack finds through storages and vars is there. -/
theorem far_live (h : Stored c) (hbound : Bounded c.mem) (hl : ins :: rest ∈ c.threads) {n : ℕ}
    (hn : n ∈ ins.far c.mem) : (c.mem.node n).status = .live := by
  cases ins with
  | invoke t =>
    have hcov := (h.safe.poised hbound hl).covered
    have hexec : 0 < (Instr.invoke t : Instr V).tokens (.exec t) := by
      simp [Instr.tokens, running, one, arms]
    obtain ⟨ht, hphase, -⟩ := owed_exec (hexec.trans_le (hcov _))
    obtain ⟨arg, harg, hn⟩ := List.mem_flatMap.mp hn
    exact h.live_of_argHolder hbound ht hphase harg hn
  | finish t env vals cells =>
    obtain ⟨cell, hcell, hn⟩ := List.mem_flatMap.mp hn
    exact h.live_of_cell hbound hl hcell hn
  | waitStatus v => exact h.live_of_statusTask hbound (h.lt_of_held hbound hl (h.threads _ hl).1) hn
  | waitRead v =>
    obtain ⟨hheld, q, hq⟩ := (h.threads _ hl).1
    have hv := h.lt_of_held hbound hl hheld
    have hpassed := h.passed_live hbound (c.mem.var v).canThrow (c.mem.vars.size + 1)
      (h.leads_of_var hbound hv hq)
    rcases List.mem_append.mp hn with hn | hn
    · obtain ⟨w, hw, hn⟩ := List.mem_flatMap.mp hn
      rcases List.mem_cons.mp hw with rfl | hw
      · exact h.live_of_statusTask hbound hv hn
      · exact h.live_of_statusTask hbound (hpassed w hw).1 hn
    · obtain ⟨w, hw, hn⟩ := List.mem_flatMap.mp hn
      exact (hpassed w hw).2 n hn
  | _ => cases hn

/-- What the instruction on top of a stack reads is there. -/
theorem checks (h : Stored c) (hbound : Bounded c.mem)
    (hl : ins :: rest ∈ c.threads) : ins.Checks c.mem := by
  have hpoised := h.safe.poised hbound hl
  have hcov := hpoised.covered
  have haims := hpoised.aims
  cases ins with
  | releaseControl d =>
    have hpos : 0 < (Instr.releaseControl d : Instr V).tokens (.control d) := by
      simp [Instr.tokens]
    exact (owed_control (hpos.trans_le (hcov _))).2
  | retainTerminal t d count =>
    obtain ⟨l, a, hhead, ha, hkind, rfl⟩ := haims
    exact hpoised.control_of_list (hpoised.live_of_need (n := t) List.mem_cons_self) hhead ha hkind
  | retainSignal n d =>
    obtain ⟨q, a, ⟨x, hx, hkeeps⟩, hq, hhead, rfl⟩ := haims
    have hlive := hpoised.mem.live_of_keeps hpoised.balance_le (hpoised.below x hx) hkeeps
    exact hpoised.control_of_terminal hlive hhead
  | invoke t =>
    have hexec : 0 < (Instr.invoke t : Instr V).tokens (.exec t) := by
      simp [Instr.tokens, running, one, arms]
    obtain ⟨ht, hphase, -⟩ := owed_exec (hexec.trans_le (hcov _))
    exact consumeAll_alive fun arg harg n hn => h.live_of_resolve hbound ht hphase harg hn
  | waitRead v =>
    obtain ⟨hheld, q, hq⟩ := (h.threads _ hl).1
    have hv := h.lt_of_held hbound hl hheld
    exact h.follow_alive hbound _ _ (h.leads_of_var hbound hv hq)
  | _ => trivial

end Stored

/-- No step of a program uses a node, an arc, a payload or a value after it was freed, nor follows
a var that holds no pointer: neither what a body reads and writes in place, nor what a wait looks
up of the failures and the forwarded vars that it comes by. -/
theorem no_use_after_free [Inhabited V] {c : State V} {locals : ℕ} {ops : List (Op V)}
    (h : Reach exec Admitted (initial locals ops) c) (hbound : Bounded c.mem) {ins : Instr V}
    {rest : List (Instr V)} (hl : ins :: rest ∈ c.threads) (choice : Bool) :
    exec c.mem choice ins ≠ .fault .useAfterFree := by
  have hstored := Stored.of_reach h
  have hintact := Intact.of_reach (fun _ _ he ins rest htop => (he.tame ins rest htop).spares) h
  have hfar : ins.FarLive c.mem := ⟨fun _ => hstored.far_live hbound hl, hintact.mem⟩
  have hlife := (hstored.safe.poised hbound hl).inLifetime hfar
  exact exec_alive hlife (hstored.checks hbound hl)

/-! ### A value that outlives its vars -/

section Example

/-- A value var is read and then written; both vars are gone before a task runs. -/
def droppedVars : List (Op ℕ) :=
  let body : Body ℕ := { result := fun vals => vals.sum, writes := fun vals => vals.map (· + 1) }
  [.value 0 true 5, .run (some 1) [.var 0 .copyOnly] true .value body,
    .run none [.var 0 .readWrite] true .void body, .destroy 0, .destroy 1]

/-- The thread is about to call the body of task `t`. -/
def invokes (c : State ℕ) (i t : ℕ) : Bool :=
  match c.threads[i]? with
  | some (.invoke t' :: _) => decide (t' = t)
  | _ => false

theorem invokes_top {c : State ℕ} {i t : ℕ} (h : invokes c i t = true) :
    ∃ rest, .invoke t :: rest ∈ c.threads := by
  unfold invokes at h
  split at h
  · rename_i t' rest htop
    obtain rfl := of_decide_eq_true h
    exact ⟨rest, List.mem_of_getElem? htop⟩
  · cases h

/-- The writer finds the value after the reader has been deleted. -/
theorem no_use_after_free_droppedVars : ∃ c rest,
    Reach exec Admitted (initial 2 droppedVars) c ∧ (c.mem.node 1).status = .dead ∧
    .invoke 2 :: rest ∈ c.threads ∧ exec c.mem false (.invoke 2) ≠ .fault .useAfterFree := by
  obtain ⟨c, hreach, hc⟩ := Reach.exists_of_runIf exec admits (initial 2 droppedVars)
    (rounds [(0, 28), (1, 26), (2, 1)])
    (fun c => invokes c 2 2 && decide ((c.mem.node 1).status = .dead ∧ c.mem.arcs.size = 1))
    (by decide)
  rw [Bool.and_eq_true, decide_eq_true_eq] at hc
  obtain ⟨hinvokes, hdead, harcs⟩ := hc
  obtain ⟨rest, hl⟩ := invokes_top hinvokes
  have hadmitted := hreach.mono fun _ _ => admitted_of_check
  have hbound : Bounded c.mem := bounded_of_arcs (by rw [harcs]; decide)
  exact ⟨c, rest, hadmitted, hdead, hl, no_use_after_free hadmitted hbound hl false⟩

end Example

end Oox
