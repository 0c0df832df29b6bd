import Oox.Versions.ReaderArcs
import Oox.Versions.SetupStep

/-!
# Every step keeps the storages

A step that records a writer makes one new version, with the storage of the version that the
var named; a step that allocates a node makes the version of its result. All other steps leave
the versions as they are, and copy or drop vars.
-/

set_option autoImplicit false

namespace Oox

open Library

variable {V : Type}

section Objects

variable {m : Mem V}

/-- The var of a new storage node has the node's result. -/
theorem storageVar_stored {n : ℕ} (hlt : n < m.nodes.size) (hkind : (m.node n).kind ≠ .task)
    (isDeferred canThrow : Bool) : (storageVar n isDeferred canThrow).Stored m where
  version j hj := by
    obtain rfl : n = j := Option.some.inj hj
    refine ⟨hlt, ?_⟩
    show some ((m.node n).resultStorage n) = some (.result n)
    rw [Node.resultStorage, if_neg hkind]
  owner j hj := by
    obtain rfl : n = j := Option.some.inj hj
    rfl

/-- The var that `bind_to` returns has the result of the task. -/
theorem resultVar_stored {t : ℕ} (hlt : t < m.nodes.size) (hkind : (m.node t).kind = .task) :
    (resultVar (m.node t) t).Stored m := by
  unfold resultVar
  cases hresult : (m.node t).resultKind with
  | value =>
    refine ⟨fun n hn => ?_, fun n hn => rfl⟩
    obtain rfl : t = n := Option.some.inj hn
    exact ⟨hlt, by simp [Mem.storageAt, Node.resultStorage, hkind, hresult]⟩
  | void =>
    refine ⟨fun n hn => ?_, fun n hn => rfl⟩
    obtain rfl : t = n := Option.some.inj hn
    exact ⟨hlt, by simp [Mem.storageAt, Node.resultStorage, hkind, hresult]⟩
  | var =>
    refine ⟨fun n hn => ?_, fun n hn => ⟨t, hlt, hkind, rfl, rfl⟩⟩
    obtain rfl : t = n := Option.some.inj hn
    exact ⟨hlt, by simp [Mem.storageAt, Node.resultStorage, hkind, hresult]⟩

/-- A recorded writer makes the next version. -/
theorem version_record {t : ℕ} {arg : VarArg} (ht : t < m.nodes.size)
    (hmode : arg.mode.isWriter = true) :
    (m.record t arg).Version t ((m.node t).written.length + 1) arg.ptr.storage := by
  refine ⟨ht, ?_⟩
  simp only [Mem.storageAt]
  rw [Mem.node_record_self, written_record hmode]
  simp

end Objects

variable [Inhabited V]

namespace Legal

variable {m m' : Mem V} {spurious : Bool} {ins : Instr V} {push rest : List (Instr V)}
variable {spawned : List (List (Instr V))}

theorem setup_step {f : Frame V} (h : Legal m spurious (.setup f) m' push spawned) :
    SetupStep m f m' push ∧ spawned = [] := by
  have hstep := h.step
  rw [exec, if_pos h.inLifetime] at hstep
  exact Oox.setup_step hstep

/-- A var of the caller is allocated. -/
theorem frame_var {f : Frame V} (h : Legal m spurious (.setup f) m' push spawned) {v : ℕ}
    (hv : v ∈ f.env) : v < m.vars.size ∧ VarOk m (m.var v) :=
  h.var_of_env (fun _ hw => Frame.le_tokens_var hw) hv

/-! ## Vars -/

/-- The var that a writer takes over names the version the writer makes. -/
theorem takenBy_stored {f : Frame V} {v n : ℕ} {mode : AccessMode}
    (h : Legal m spurious (.setup f) m' push spawned) (hstore : StoreOk m)
    (hframe : f.Stored m) (hv : v ∈ f.env) (htask : (m.var v).currentTask = some n)
    (hmode : mode.isWriter = true)
    (hnodes : m'.nodes = (m.record f.task (argOf (m.var v) n mode)).nodes) :
    ((m.var v).takenBy f.task f.port).Stored m' := by
  obtain ⟨ht, -, -⟩ := h.sets_up (f := f) fun _ => le_rfl
  obtain ⟨hlt, -⟩ := h.frame_var hv
  have hrecord : (m.record f.task (argOf (m.var v) n mode)).Version f.task
      ((m.node f.task).written.length + 1) (argOf (m.var v) n mode).ptr.storage :=
    version_record ht hmode
  refine ⟨fun q hq => ?_, fun q hq => ?_⟩
  · obtain rfl : f.task = q := Option.some.inj hq
    show m'.Version f.task f.port (m.var v).storage
    have hstorage : (argOf (m.var v) n mode).ptr.storage = (m.var v).storage := argPtr_storage _
    rw [hframe.port, hstorage] at hrecord
    refine ⟨hnodes ▸ hrecord.lt, ?_⟩
    rw [← hrecord.storage]
    unfold Mem.storageAt Mem.node
    rw [hnodes]
  · exact ((hstore.var v hlt).owner n htask).stable h.frozen

theorem setup_var_stored {f : Frame V} (h : Legal m spurious (.setup f) m' push spawned)
    (hstore : StoreOk m) (hframe : f.Stored m) {v : ℕ} (hv : v < m.vars.size) :
    (m'.var v).Stored m' := by
  have hkept := (hstore.var v hv).stable h.frozen
  have hok := h.var_ok hv
  obtain ⟨hsetup, -⟩ := h.setup_step
  have hset : ∀ {m₁ : Mem V} {w : ℕ} {u : Var}, m'.var v = (m₁.setVar w u).var v →
      m₁.var v = m.var v → (v = w → u.Stored m') → (m'.var v).Stored m' := by
    intro m₁ w u heq hsame hnew
    rw [Mem.var_setVar] at heq
    split at heq
    · rename_i hvw
      rw [heq]
      exact hnew hvw
    · rw [heq, hsame]
      exact hkept
  cases hsetup with
  | done hargs => exact hkept
  | plain hargs => exact hkept
  | fresh hargs hw hempty hown =>
    refine hset rfl rfl fun heq => ?_
    subst heq
    rw [Mem.var_setVar_self] at hok
    have hlt := (hok.slot m.nodes.size rfl).1
    have hnode := (h.changes.newNode m.nodes.size le_rfl hlt).2
    refine storageVar_stored hlt ?_ _ _
    rw [hnode]
    exact fun hk => by cases hk
  | read hargs hw htask hmode hpolicy => exact hkept
  | write hargs hw htask hmode hown hpolicy hport hnow =>
    refine hset rfl rfl fun _ => ?_
    exact h.takenBy_stored hstore hframe hw htask hmode rfl
  | redirect hargs hw htask hmode hown hpolicy hport hdeferred =>
    refine hset rfl rfl fun _ => ?_
    exact h.takenBy_stored hstore hframe hw htask hmode rfl

theorem runOps_var_stored {env : List ℕ} {ops : List (Op V)} {after : After V}
    (h : Legal m spurious (.runOps env ops after) m' push spawned) (hstore : StoreOk m) {v : ℕ}
    (hv : v < m.vars.size) : (m'.var v).Stored m' := by
  have hkept := (hstore.var v hv).stable h.frozen
  rcases h.changes.var v hv with heq | ⟨-, hwrite⟩
  · rw [heq]
    exact hkept
  · have hok := h.var_ok hv
    rcases ops with _ | ⟨op, ops⟩
    · exact hwrite.elim
    · cases op with
      | empty x canThrow =>
        rw [hwrite.2]
        exact .none rfl
      | value x canThrow w =>
        rw [hwrite.2] at hok ⊢
        have hlt := (hok.slot m.nodes.size rfl).1
        have hnode := (h.changes.newNode m.nodes.size le_rfl hlt).2
        refine storageVar_stored hlt ?_ _ _
        rw [hnode]
        exact fun hk => by cases hk
      | deferred x canThrow =>
        rw [hwrite.2] at hok ⊢
        have hlt := (hok.slot m.nodes.size rfl).1
        have hnode := (h.changes.newNode m.nodes.size le_rfl hlt).2
        refine storageVar_stored hlt ?_ _ _
        rw [hnode]
        exact fun hk => by cases hk
      | move dst src =>
        obtain ⟨-, hu | ⟨s, hs, -, hu⟩⟩ := hwrite
        · rw [hu]
          exact .none rfl
        · obtain ⟨hlt, -⟩ := h.var_of_env (e := env) (fun w hw => by
            have hone := one_le_varTokens hw
            have hafter := after.tokens_nonneg (.var w)
            simp only [Instr.tokens]
            omega) (List.mem_of_getElem? hs)
          rw [hu]
          exact (hstore.var s hlt).stable h.frozen
      | destroy x =>
        rw [hwrite.2]
        exact .none rfl
      | fork xs locals ops' =>
        rw [show m'.var v = _ from hwrite]
        exact ⟨hkept.version, hkept.owner⟩
      | toNode dst src => exact h.tame.elim
      | moveNode dst src => exact h.tame.elim
      | _ => exact hwrite.elim

/-- The vars of the memory have the storages of their versions. -/
theorem var_stored (h : Legal m spurious ins m' push spawned) (hstore : StoreOk m)
    (hins : ins.Stored m rest) {v : ℕ} (hv : v < m.vars.size) : (m'.var v).Stored m' := by
  have hkept := (hstore.var v hv).stable h.frozen
  rcases h.changes.var v hv with heq | hchange
  · rw [heq]
    exact hkept
  · cases ins with
    | destroy n =>
      rw [hchange.2.2]
      exact .none rfl
    | invoke t =>
      rw [h.invoke_var_same hv]
      exact hkept
    | finish t env vals cells =>
      rcases hchange with ⟨w, hcell⟩ | ⟨-, w, hw, -, hu⟩ | ⟨-, -, hu⟩
      · exact absurd hcell (h.ok.2 w)
      · obtain ⟨hlt, -⟩ := h.var_of_env (e := env) (fun w hw => by
          have hone := one_le_varTokens hw
          simp only [Instr.tokens, running, one_of_ne (t := .exec t) (k := .var w) (by simp), arms]
          omega) hw
        rw [hu]
        exact (hstore.var w hlt).stable h.frozen
      · rw [hu]
        exact .none rfl
    | setup f => exact h.setup_var_stored hstore hins hv
    | moveResult f r =>
      rw [hchange.2.2]
      exact hins.1.stable h.frozen
    | runOps env ops after => exact h.runOps_var_stored hstore hv
    | _ => exact hchange.elim

/-- A new var is empty, or a copy of a var that another thread reads. -/
theorem var_new_cases (h : Legal m spurious ins m' push spawned) {v : ℕ} (hge : m.vars.size ≤ v)
    (hv : v < m'.vars.size) : m'.var v = {} ∨
      ∃ w < m.vars.size, m'.var v = { m.var w with borrowed := true, shared := false } := by
  have hstep := h.step
  unfold exec at hstep
  rw [if_pos h.inLifetime] at hstep
  cases ins with
  | invoke t =>
    simp only [Exec.invoke] at hstep
    split at hstep
    · cases hstep
    · rename_i m₁ vals hconsume
      have hsize := (consumeAll_consumed hconsume).vars_size
      cases hstep
      simp only [Mem.vars_newVars_size, Mem.vars_setNode] at hv
      left
      rw [Mem.var_newVars, if_pos (by simp only [Mem.vars_setNode]; omega)]
  | runOps env ops after =>
    rcases ops with _ | ⟨op, ops⟩
    · cases after <;> cases hstep <;> exact absurd hv (by show ¬ v < m.vars.size; omega)
    · by_cases hrun : ∃ dst args canThrow kind code, op = .run dst args canThrow kind code
      · obtain ⟨dst, args, canThrow, kind, code, rfl⟩ := hrun
        cases hstep
        simp only [Mem.vars_newVar_size, Mem.vars_newNode] at hv
        left
        rw [Mem.var_newVar, if_pos (by simp only [Mem.vars_newNode]; omega)]
      · by_cases hfork : ∃ xs locals ops', op = .fork xs locals ops'
        · obtain ⟨xs, locals, ops', rfl⟩ := hfork
          cases hstep
          have henv : ∀ w ∈ xs.filterMap fun x => env[x]?, w < m.vars.size := by
            intro w hw
            obtain ⟨x, -, hx⟩ := List.mem_filterMap.mp hw
            refine (h.var_of_env (e := env) (fun u hu => ?_) (List.mem_of_getElem? hx)).1
            have hone := one_le_varTokens hu
            have hafter := after.tokens_nonneg (.var u)
            simp only [Instr.tokens]
            omega
          obtain ⟨-, hnew⟩ := borrowVars_copies henv
          by_cases hlt : v < (Exec.borrowVars m (xs.filterMap fun x => env[x]?)).vars.size
          · obtain ⟨w, hw, hcopy⟩ := hnew v hge hlt
            right
            refine ⟨w, henv w hw, ?_⟩
            rw [Mem.var_newVars, if_neg (by omega), hcopy]
          · rw [Mem.vars_newVars_size] at hv
            left
            rw [Mem.var_newVars, if_pos (by omega)]
        · have hsize := runOps_size hstep (fun _ _ _ _ _ hop => hrun ⟨_, _, _, _, _, hop⟩)
            fun _ _ _ hop => hfork ⟨_, _, _, hop⟩
          omega
  | _ =>
    have hsize := h.vars_size (fun _ h' => by cases h') fun _ _ _ h' => by cases h'
    omega

theorem var_stored_new (h : Legal m spurious ins m' push spawned) (hstore : StoreOk m) {v : ℕ}
    (hge : m.vars.size ≤ v) (hv : v < m'.vars.size) : (m'.var v).Stored m' := by
  rcases h.var_new_cases hge hv with heq | ⟨w, hw, heq⟩
  · rw [heq]
    exact .none rfl
  · have hkept := (hstore.var w hw).stable h.frozen
    rw [heq]
    exact ⟨hkept.version, hkept.owner⟩

/-! ## Slots -/

/-- The next writer of a slot is what was allowed for it. -/
theorem slot_stored (h : Legal m spurious ins m' push spawned) (hstore : StoreOk m)
    (hins : ins.Stored m rest) {n : ℕ} (hn : n < m'.nodes.size) (p : ℕ) :
    Passes m' n p ((m'.node n).out p).nextWriter := by
  by_cases hold : n < m.nodes.size
  · rcases (h.changes.node n hold).nextWriter p with heq | hchange
    · rw [heq]
      exact (hstore.slot n hold p).stable h.frozen
    · cases ins with
      | setNextWriter n' p' d =>
        obtain ⟨rfl, rfl, hd, -⟩ := hchange
        have hpasses : Passes m n p d := hins
        rw [hd]
        exact hpasses.stable h.frozen
      | outCas t i count refs =>
        rw [hchange.2.2.2]
        trivial
      | _ => exact hchange.elim
  · have hbirth := (h.changes.newNode n (by omega) hn).2
    unfold NodeBirth at hbirth
    split at hbirth
    · rw [hbirth]
      trivial
    · rw [hbirth]
      trivial
    · rw [hbirth]
      trivial
    · rw [hbirth]
      trivial
    · exact hbirth.elim

/-! ## The vars that tasks return -/

/-- A body that returned a var returned one that names a task. -/
theorem finish_returns {t : ℕ} {env : List ℕ} {vals : List V} {cells : List StoragePtr}
    (h : Legal m spurious (.finish t env vals cells) m' push spawned)
    (hne : m'.var (m.node t).inner ≠ m.var (m.node t).inner) :
    ∃ n, (m'.var (m.node t).inner).currentTask = some n := by
  have hstep := h.step
  rw [exec, if_pos h.inLifetime] at hstep
  have hwritten := writeCells_written (m := m) (cells.zip ((m.node t).body.writes vals))
  have hsame : ∀ v, (Exec.writeCells m (cells.zip ((m.node t).body.writes vals))).var v =
      m.var v := fun v =>
    (hwritten.var v).resolve_right fun hmem => h.ok.2 v (mem_of_mem_zip_fst hmem)
  have hinner := (Frozen.refl m).writeCells (cells.zip ((m.node t).body.writes vals))
  have ht := (h.runs (t := t) finish_exec).1
  simp only [Exec.finish] at hstep
  repeat' split at hstep
  all_goals first
    | (cases hstep; done)
    | (cases hstep; exact absurd (hsame _) hne)
    | skip
  rename_i w hw hpolicy hsome
  cases hstep
  rw [← (hinner.node t ht).inner, Mem.var_setVar_self]
  exact Option.isSome_iff_exists.mp hsome.1

/-- The var a live task keeps is empty, or names a task. -/
theorem inner_stored (h : Legal m spurious ins m' push spawned) (hstore : StoreOk m) {n : ℕ}
    (hn : n < m'.nodes.size) (hkind : (m'.node n).kind = .task)
    (hlive : (m'.node n).status = .live)
    (hnone : (m'.var (m'.node n).inner).currentTask = none) :
    (m'.var (m'.node n).inner).storage = .null := by
  by_cases hold : n < m.nodes.size
  · have hsame := h.frozen.node n hold
    rw [hsame.inner] at hnone ⊢
    have hkind' : (m.node n).kind = .task := hsame.kind.symm.trans hkind
    have hlt := (h.mem.inner n hold hkind').lt
    have hheld := h.inner_not_held hold hkind'
    by_cases heq : m'.var (m.node n).inner = m.var (m.node n).inner
    · rw [heq] at hnone ⊢
      exact hstore.inner n hold hkind' (hsame.live hlive) hnone
    · have hchange := (h.changes.var _ hlt).resolve_left heq
      cases ins with
      | destroy q =>
        obtain ⟨hinner, hset, -⟩ := hchange
        obtain ⟨hq, hkindq⟩ := h.destroys hset
        obtain rfl := inner_inj hq hold hkindq hkind' (h.balance_le _) hinner
        obtain ⟨-, hstatus, -⟩ := owed_del (h.owed (k := .del n) (by simp [Instr.tokens]))
        rw [hsame.live hlive] at hstatus
        cases hstatus
      | invoke t => exact absurd (h.invoke_var_same hlt) heq
      | finish t env vals cells =>
        rcases hchange with ⟨w, hcell⟩ | ⟨hinner, -⟩ | ⟨hmem, -⟩
        · exact absurd hcell (h.ok.2 w)
        · rw [hinner] at heq hnone
          obtain ⟨q, hq⟩ := h.finish_returns heq
          rw [hq] at hnone
          cases hnone
        · have hone := one_le_varTokens hmem
          simp [Instr.tokens, running, one, arms] at hheld
          omega
      | setup f =>
        have hone := f.le_tokens_var (c := f.count) hchange.1
        simp only [Instr.tokens] at hheld
        omega
      | moveResult f r =>
        have hone := one_le_varTokens (h.ok.1 _ hchange.1)
        have howns := r.owns_nonneg (.var (m.node n).inner)
        have hafter := f.after.tokens_nonneg (.var (m.node n).inner)
        simp only [Instr.tokens] at hheld
        omega
      | runOps env ops after =>
        have hone := one_le_varTokens hchange.1
        have hafter := after.tokens_nonneg (.var (m.node n).inner)
        simp only [Instr.tokens] at hheld
        omega
      | _ => exact hchange.elim
  · obtain ⟨rfl, hbirth⟩ := h.changes.newNode n (by omega) hn
    have hstep := h.step
    unfold NodeBirth at hbirth
    split at hbirth
    · rw [hbirth] at hkind
      cases hkind
    · rw [hbirth] at hkind
      cases hkind
    · rw [hbirth] at hkind
      cases hkind
    · rw [exec, if_pos h.inLifetime, Exec.runOps] at hstep
      cases hstep
      rw [hbirth]
      show (((m.newNode _).newVar {}).var m.vars.size).storage = .null
      rw [Mem.var_newVar, Mem.vars_newNode, if_pos rfl]
    · exact hbirth.elim

/-! ## Arguments -/

/-- A reader's arc stands for the storage it was made for, also after it has moved. -/
theorem reads_stay (h : Legal m spurious ins m' push spawned) (hstore : StoreOk m)
    (hins : ins.Stored m rest) {a r q p : ℕ} {s : StoragePtr} (ha : a < m.arcs.size)
    (hreads : (m.arc a).reads = some (r, (q, p))) (hversion : m.Version q p s) :
    ∃ q' p', (m'.arc a).reads = some (r, (q', p')) ∧ m'.Version q' p' s ∧
      Serves m' (q, p) q' p' := by
  have hkept := And.intro (hversion.stable h.frozen)
    (show Serves m' (q, p) q p from .inl rfl)
  rcases h.changes.arc a ha with heq | hchange
  · rw [heq]
    exact ⟨q, p, hreads, hkept⟩
  · cases ins with
    | addArc n b site => rw [hchange.2]; exact ⟨q, p, hreads, hkept⟩
    | addArcCas n b seen site => rw [hchange.2]; exact ⟨q, p, hreads, hkept⟩
    | freeNode n => rw [hchange.2]; exact ⟨q, p, hreads, hkept⟩
    | deleteArc b => rw [hchange.2]; exact ⟨q, p, hreads, hkept⟩
    | assignIncrement f n p' b => rw [hchange.2]; exact ⟨q, p, hreads, hkept⟩
    | notifyArcs t canThrow failed l count =>
      rcases hchange.2 with ⟨hx, -⟩ | ⟨-, hx⟩ <;> rw [hx] <;> exact ⟨q, p, hreads, hkept⟩
    | assignHead f n p' b =>
      obtain ⟨rfl, d, hhead, -⟩ := hchange
      obtain ⟨v, hv, htask, -⟩ := h.ok.1.source
      have hlt := (owed_var (h.owed (k := .var v) (by
        have hone := Frame.le_tokens_var (c := f.count + 1) hv
        have harc := one_nonneg (.arc a n) (.var v)
        simp only [Instr.tokens]
        omega))).1
      exact absurd hhead ((h.mem.var v hlt).fresh n htask d)
    | moveArcs n q' t i l =>
      obtain ⟨hhead, hx⟩ := hchange
      obtain ⟨-, -, hsite, hwaiting⟩ := h.moved_arc hhead
      have hok := h.mem.arc a ha
      have hkind : (m.arc a).kind = .flowBack := by
        have hallows := hok.kind
        have hplain := (hstore.arc a ha).reads
        rw [hwaiting] at hallows
        cases hk : (m.arc a).kind <;> simp_all [ArcKind.Allows]
      -- both the arc and the redirect name the one slot of the deferred var
      have hport := hok.flowBack hkind hwaiting
      rw [hreads, hsite] at hport
      obtain ⟨-, rfl, rfl⟩ : r = (m.arc a).node ∧ q = n ∧ p = (m.arc a).port := by
        simpa using hport
      have hcap := h.owed (k := .cap q q') (by
        have hlisted := listedTokens_nonneg q l (.cap q q')
        have hpre := one_nonneg (.pre t) (.cap q q')
        simp only [Instr.tokens, one_self]
        omega)
      obtain ⟨hq, hlt, -⟩ := owed_cap hcap
      have hslots := ((h.mem.node q hq).slots.2 (by rw [h.ok.1]; simp))
      have hlt' := (hok.reads _ _ _ hreads).2.2
      obtain ⟨s', hsource, htarget⟩ := hins.shares
      have hsame : (m.arc a).port = q' := by omega
      rw [hsame] at hversion
      obtain rfl := hversion.inj hsource
      refine ⟨t, i, ?_, htarget.stable h.frozen, .inr ⟨?_, ?_⟩⟩
      rotate_left
      · exact (h.frozen.node q hq).kind.trans h.ok.1
      · rw [hsame]
        exact Follows.stable hins h.frozen
      rw [hx]
      show (m.arc a).reads.map _ = _
      rw [hreads]
      rfl
    | _ => exact hchange.elim

/-- What is known about an argument stays. -/
theorem argStored_stays (h : Legal m spurious ins m' push spawned) (hstore : StoreOk m)
    (hins : ins.Stored m rest) {t : ℕ} {arg : VarArg} (harg : ArgStored m t arg) :
    ArgStored m' t arg where
  version := harg.version.stable h.frozen
  owner := by
    obtain ⟨o, ho⟩ := harg.owner
    exact ⟨o, ho.stable h.frozen⟩
  slot := harg.slot.trans_eq (h.frozen.node _ harg.version.lt).slots.symm
  reader hmode := by
    obtain ⟨a, ha, q, p, hreads, hversion, hserves⟩ := harg.reader hmode
    obtain ⟨q', p', hreads', hversion', hserves'⟩ := h.reads_stay hstore hins ha hreads hversion
    refine ⟨a, ha.trans_le h.frozen.arcs_le, q', p', hreads', hversion', ?_⟩
    rcases hserves with hsame | ⟨hkind, hfollows⟩
    · rw [hsame]
      exact hserves'
    · -- an arc that moved once is in the list of a task
      rcases hserves' with hsame' | ⟨hdeferred, -⟩
      · obtain ⟨rfl, rfl⟩ := Prod.mk.inj hsame'
        exact Serves.stable (.inr ⟨hkind, hfollows⟩) h.frozen
      · have hsame := (h.frozen.node q hfollows.task.1).kind
        rw [hdeferred, hfollows.task.2] at hsame
        cases hsame

/-- Only `setup` records arguments. -/
theorem args_same (h : Legal m spurious ins m' push spawned) (hne : ∀ f, ins ≠ .setup f) {n : ℕ}
    (hn : n < m.nodes.size) : (m'.node n).args = (m.node n).args := by
  rcases (h.changes.node n hn).args with heq | hchange
  · exact heq
  · cases ins with
    | setup f => exact absurd rfl (hne f)
    | _ => exact hchange.elim

/-- What `setup` records for the next argument of its call. -/
structure Recorded (m m' : Mem V) (f : Frame V) (arg : VarArg) : Prop where
  args : (m'.node f.task).args = (m.node f.task).args ++ [arg]
  source : ∃ v ∈ f.env, ∃ n mode, (m.var v).currentTask = some n ∧ arg = argOf (m.var v) n mode
  reader : arg.mode.isWriter = false → ∃ a < m'.arcs.size,
    (m'.arc a).reads = some (f.task, arg.version)
  writer : arg.mode.isWriter = true → f.Writes

/-- `setup` records at most one argument, of its own task. -/
theorem setup_records {f : Frame V} (h : Legal m spurious (.setup f) m' push spawned) :
    (∀ n < m.nodes.size, (m'.node n).args = (m.node n).args) ∨
      (∀ n < m.nodes.size, n ≠ f.task → (m'.node n).args = (m.node n).args) ∧
        ∃ arg, Recorded m m' f arg := by
  obtain ⟨hsetup, -⟩ := h.setup_step
  cases hsetup with
  | done hargs => exact .inl fun n _ => rfl
  | plain hargs => exact .inl fun n _ => rfl
  | fresh hargs hv hempty hown =>
    left
    intro n hn
    show ((m.newNode _).node n).args = _
    rw [Mem.node_newNode, if_neg (by omega)]
  | @read x v q mode l hargs hv htask hmode hpolicy =>
    refine .inr ⟨fun n _ hne => ?_, argOf (m.var v) q mode, ?_, ⟨v, hv, q, mode, htask, rfl⟩,
      fun _ => ⟨m.arcs.size, Nat.lt_succ_self _, ?_⟩, fun hw => ?_⟩
    · exact congrArg Node.args (Mem.node_setNode_of_ne _ _ hne)
    · exact congrArg Node.args (Mem.node_record_self _ _ _)
    · show ((Mem.newArc _ _).arc m.arcs.size).reads = _
      rw [Mem.arc_newArc, Mem.arcs_record, if_pos rfl]
      rfl
    · have hread : (argOf (m.var v) q mode).mode.isWriter = false := hmode
      rw [hread] at hw
      cases hw
  | @write x v q mode l hargs hv htask hmode hown hpolicy hport hnow =>
    refine .inr ⟨fun n _ hne => ?_, argOf (m.var v) q mode, ?_, ⟨v, hv, q, mode, htask, rfl⟩,
      fun hr => ?_, fun _ => ⟨x, mode, l, hargs, hmode⟩⟩
    · exact congrArg Node.args (Mem.node_setNode_of_ne _ _ hne)
    · exact congrArg Node.args (Mem.node_record_self _ _ _)
    · have hwrite : (argOf (m.var v) q mode).mode.isWriter = true := hmode
      rw [hwrite] at hr
      cases hr
  | @redirect x v q mode l hargs hv htask hmode hown hpolicy hport hdeferred =>
    refine .inr ⟨fun n _ hne => ?_, argOf (m.var v) q mode, ?_, ⟨v, hv, q, mode, htask, rfl⟩,
      fun hr => ?_, fun _ => ⟨x, mode, l, hargs, hmode⟩⟩
    · exact congrArg Node.args (Mem.node_setNode_of_ne _ _ hne)
    · exact congrArg Node.args (Mem.node_record_self _ _ _)
    · have hwrite : (argOf (m.var v) q mode).mode.isWriter = true := hmode
      rw [hwrite] at hr
      cases hr

/-- The argument that `setup` records has the storage of its var. -/
theorem recorded_stored {f : Frame V} (h : Legal m spurious (.setup f) m' push spawned)
    (hstore : StoreOk m) {arg : VarArg} (hrecorded : Recorded m m' f arg) :
    ArgStored m' f.task arg := by
  obtain ⟨v, hv, n, mode, htask, rfl⟩ := hrecorded.source
  obtain ⟨hlt, hok⟩ := h.frame_var hv
  have hversion := (hstore.var v hlt).version n htask
  have hstorage : (argOf (m.var v) n mode).ptr.storage = (m.var v).storage := argPtr_storage _
  have hkept := hversion.stable h.frozen
  rw [← hstorage] at hkept
  obtain ⟨hn, hslot⟩ := hok.slot n htask
  have howner := ((hstore.var v hlt).owner n htask).stable h.frozen
  rw [← hstorage] at howner
  refine ⟨hkept, ⟨_, howner⟩, hslot.trans_eq (h.frozen.node n hn).slots.symm, fun hmode => ?_⟩
  obtain ⟨a, ha, hreads⟩ := hrecorded.reader hmode
  exact ⟨a, ha, n, _, hreads, hkept, .inl rfl⟩

/-- A new node has no arguments. -/
theorem args_new (h : Legal m spurious ins m' push spawned) {n : ℕ} (hge : m.nodes.size ≤ n)
    (hn : n < m'.nodes.size) : (m'.node n).args = [] := by
  have hbirth := (h.changes.newNode n hge hn).2
  unfold NodeBirth at hbirth
  split at hbirth
  · rw [hbirth]
    rfl
  · rw [hbirth]
    rfl
  · rw [hbirth]
    rfl
  · rw [hbirth]
    rfl
  · exact hbirth.elim

theorem arg_stored (h : Legal m spurious ins m' push spawned) (hstore : StoreOk m)
    (hins : ins.Stored m rest) {t : ℕ} (ht : t < m'.nodes.size) {arg : VarArg}
    (harg : arg ∈ (m'.node t).args) : ArgStored m' t arg := by
  by_cases hold : t < m.nodes.size
  · have hkept : arg ∈ (m.node t).args → ArgStored m' t arg := fun hmem =>
      h.argStored_stays hstore hins (hstore.arg t hold arg hmem)
    by_cases hsetup : ∃ f, ins = .setup f
    · obtain ⟨f, rfl⟩ := hsetup
      rcases h.setup_records with hsame | ⟨hother, arg', hrecorded⟩
      · exact hkept (hsame t hold ▸ harg)
      · by_cases htask : t = f.task
        · subst htask
          rw [hrecorded.args, List.mem_append, List.mem_singleton] at harg
          rcases harg with hmem | rfl
          · exact hkept hmem
          · exact h.recorded_stored hstore hrecorded
        · exact hkept (hother t hold htask ▸ harg)
    · exact hkept (h.args_same (fun f hf => hsetup ⟨f, hf⟩) hold ▸ harg)
  · rw [h.args_new (by omega) ht] at harg
    cases harg

/-- Every written argument has an output slot, and comes after the version it is made from. -/
theorem written_stored (h : Legal m spurious ins m' push spawned) (hstore : StoreOk m)
    (hins : ins.Stored m rest) {t : ℕ} (ht : t < m'.nodes.size) {i : ℕ} {arg : VarArg}
    (harg : (m'.node t).written[i]? = some arg) :
    i + 1 < (m'.node t).slots ∧ Precedes m' arg.version.1 arg.version.2 t (i + 1) := by
  by_cases hold : t < m.nodes.size
  · have hkept : (m.node t).written[i]? = some arg →
        i + 1 < (m'.node t).slots ∧ Precedes m' arg.version.1 arg.version.2 t (i + 1) := by
      intro hi
      obtain ⟨hslot, hbefore⟩ := hstore.written t hold i arg hi
      have hmem : arg ∈ (m.node t).args := List.mem_of_mem_filter (List.mem_of_getElem? hi)
      exact ⟨hslot.trans_eq (h.frozen.node t hold).slots.symm,
        hbefore.stable (hstore.arg t hold arg hmem).version.lt h.frozen⟩
    have hwritten : (m'.node t).args = (m.node t).args →
        (m'.node t).written = (m.node t).written := fun heq => by
      unfold Node.written
      rw [heq]
    by_cases hsetup : ∃ f, ins = .setup f
    · obtain ⟨f, rfl⟩ := hsetup
      have hframe : f.Stored m := hins
      rcases h.setup_records with hsame | ⟨hother, arg', hrecorded⟩
      · exact hkept (hwritten (hsame t hold) ▸ harg)
      · by_cases htask : t = f.task
        · subst htask
          have hlist : (m'.node f.task).written =
              (m.node f.task).written ++ [arg'].filter fun x => x.mode.isWriter := by
            unfold Node.written
            rw [hrecorded.args, List.filter_append]
          cases hmode : arg'.mode.isWriter with
          | false =>
            rw [hlist] at harg
            simp only [List.filter_cons, hmode, Bool.false_eq_true, if_false, List.filter_nil,
              List.append_nil] at harg
            exact hkept harg
          | true =>
            rw [hlist] at harg
            simp only [List.filter_cons, hmode, if_true, List.filter_nil] at harg
            by_cases hi : i < (m.node f.task).written.length
            · rw [List.getElem?_append_left hi] at harg
              exact hkept harg
            · -- the recorded argument takes the next output port
              rw [List.getElem?_append_right (by omega)] at harg
              have hlen : i = (m.node f.task).written.length := by
                have hlt := (List.getElem?_eq_some_iff.mp harg).1
                simp only [List.length_singleton] at hlt
                omega
              subst hlen
              rw [Nat.sub_self] at harg
              obtain rfl := Option.some.inj harg
              obtain ⟨v, hv, n, mode, hn, rfl⟩ := hrecorded.source
              obtain ⟨hvar, hvok⟩ := h.frame_var hv
              have hbefore := hframe.env v hv n hn
              have hslot := h.slot_of_writes (hrecorded.writer hmode)
              rw [hframe.port]
              exact ⟨hslot.trans_eq (h.frozen.node _ hold).slots.symm,
                hbefore.stable (hvok.slot n hn).1 h.frozen⟩
        · exact hkept (hwritten (hother t hold htask) ▸ harg)
    · exact hkept (hwritten (h.args_same (fun f hf => hsetup ⟨f, hf⟩) hold) ▸ harg)
  · unfold Node.written at harg
    rw [h.args_new (by omega) ht] at harg
    cases harg

/-- Every step keeps the storages of the versions. -/
theorem store_ok (h : Legal m spurious ins m' push spawned) (hstore : StoreOk m)
    (hins : ins.Stored m rest) : StoreOk m' where
  var v hv := by
    by_cases hold : v < m.vars.size
    · exact h.var_stored hstore hins hold
    · exact h.var_stored_new hstore (by omega) hv
  slot n hn p := h.slot_stored hstore hins hn p
  inner n hn hkind hlive hnone := h.inner_stored hstore hn hkind hlive hnone
  arg t ht arg harg := h.arg_stored hstore hins ht harg
  written t ht i arg harg := h.written_stored hstore hins ht harg
  arc a ha := by
    by_cases hold : a < m.arcs.size
    · exact h.arc_stored hstore hold
    · exact h.arc_stored_new (by omega) ha
  deleted a ha hdead := h.deleted_spent hstore ha hdead

end Legal

end Oox
