import Oox.Lifetime.Access

/-!
# Versions and their storage

A version is an output slot of a node: slot 0 stands for the result of the node, slot `i + 1`
for the argument that its functor writes as its `i`-th. The next writer of a version says what
becomes of its storage: a task writes to it in place, which makes the next version, or the var
that named the version is gone and the reference on the owner of the storage is released.
-/

set_option autoImplicit false

namespace Oox

open Library

variable {V : Type}

/-! ## Storages -/

/-- The storage that the var of an argument had. -/
def ArgPtr.storage : ArgPtr → StoragePtr
  | .plain s => s
  | .forwarded v => .varObject v

theorem argPtr_storage (u : Var) : (Exec.argPtr u).storage = u.storage := by
  unfold Exec.argPtr
  split
  · split
    · rename_i v hv
      rw [hv]
      rfl
    · rfl
  · rfl

/-- The arguments a task writes, in the order of their output ports. -/
def Node.written (x : Node V) : List VarArg := x.args.filter fun arg => arg.mode.isWriter

/-- Where the result of node `n` is. -/
def Node.resultStorage (n : ℕ) (x : Node V) : StoragePtr :=
  if x.kind = .task then
    match x.resultKind with
    | .value => .result n
    | .void => .task n
    | .var => .varObject x.inner
  else .result n

/-- The storage of version `p` of node `n`, if there is such a version yet. -/
def Mem.storageAt (m : Mem V) (n : ℕ) : ℕ → Option StoragePtr
  | 0 => some ((m.node n).resultStorage n)
  | i + 1 => (m.node n).written[i]?.map fun arg => arg.ptr.storage

/-- Version `p` of node `n` has storage `s`. -/
structure Mem.Version (m : Mem V) (n p : ℕ) (s : StoragePtr) : Prop where
  lt : n < m.nodes.size
  storage : m.storageAt n p = some s

theorem Mem.Version.inj {m : Mem V} {n p : ℕ} {s s' : StoragePtr} (h : m.Version n p s)
    (h' : m.Version n p s') : s = s' :=
  Option.some.inj (h.storage.symm.trans h'.storage)

/-- The node whose lifetime a storage is bound to. -/
def Mem.Belongs (m : Mem V) (o : Option ℕ) : StoragePtr → Prop
  | .null => False
  | .result n => o = some n
  | .varObject v => ∃ t < m.nodes.size, (m.node t).kind = .task ∧ (m.node t).inner = v ∧ o = some t
  | .task _ => o = none

/-- Storages of one pointer belong to one node. -/
theorem Mem.Belongs.inj {m : Mem V} (hbal : ∀ k, balance m k ≤ 0) {s : StoragePtr}
    {o o' : Option ℕ} (h : m.Belongs o s) (h' : m.Belongs o' s) : o = o' := by
  cases s with
  | null => exact h.elim
  | result n => exact h.trans h'.symm
  | varObject v =>
    obtain ⟨t, ht, hkind, rfl, rfl⟩ := h
    obtain ⟨t', ht', hkind', hinner, rfl⟩ := h'
    rw [inner_inj ht ht' hkind hkind' (hbal _) hinner]
  | task n => exact h.trans h'.symm

/-! ## From version to version -/

/-- A version of a task comes before version `i` of task `d`; storage nodes come first. -/
def Precedes (m : Mem V) (n p d i : ℕ) : Prop :=
  (m.node n).kind = .task → n < d ∨ n = d ∧ p < i

/-- Version `w` is what a task makes of version `v` when it writes to it in place. -/
def Over (m : Mem V) (v w : ℕ × ℕ) : Prop :=
  ∃ i arg, w.2 = i + 1 ∧ (m.node w.1).written[i]? = some arg ∧ arg.version = v

/-- Task `d` writes version `i` over version `p` of node `n`. -/
structure Follows (m : Mem V) (n p d i : ℕ) : Prop where
  task : d < m.nodes.size ∧ (m.node d).kind = .task
  port : i < (m.node d).slots
  shares : ∃ s, m.Version n p s ∧ m.Version d i s
  precedes : Precedes m n p d i
  overwrites : Over m (n, p) (d, i)

/-- What may be stored as the next writer of version `p` of node `n`. -/
def Passes (m : Mem V) (n p : ℕ) : NextWriter → Prop
  | .null => True
  | .ready => True
  | .noOwner => ∃ s, m.Version n p s ∧ m.Belongs none s
  | .owner o => ∃ s, m.Version n p s ∧ m.Belongs (some o) s
  | .node d => ∃ i, Follows m n p d i

/-- A var has the storage of the version it names, and counts for the owner. -/
structure Var.Stored (m : Mem V) (u : Var) : Prop where
  version : ∀ n, u.currentTask = some n → m.Version n u.currentPort u.storage
  owner : ∀ n, u.currentTask = some n → m.Belongs u.owner u.storage

theorem Var.Stored.none {m : Mem V} {u : Var} (h : u.currentTask = none) : u.Stored m :=
  ⟨fun n hn => by simp [h] at hn, fun n hn => by simp [h] at hn⟩

/-- A var that is released passes its version on to nobody. -/
theorem Var.Stored.passes {m : Mem V} {u : Var} (h : u.Stored m) {n : ℕ}
    (hn : u.currentTask = some n) : Passes m n u.currentPort u.endMarker := by
  have hversion := h.version n hn
  have howner := h.owner n hn
  unfold Var.endMarker
  split
  · rename_i o ho
    exact ⟨_, hversion, ho ▸ howner⟩
  · rename_i ho
    exact ⟨_, hversion, ho ▸ howner⟩

/-- Readers of version `v` wait for version `p` of node `q`: that version, or the first one that
a task makes of a deferred var. -/
def Serves (m : Mem V) (v : ℕ × ℕ) (q p : ℕ) : Prop :=
  v = (q, p) ∨ (m.node v.1).kind = .deferred ∧ Follows m v.1 v.2 q p

/-- An argument of task `t` has the storage of its version; a reader has an arc for it. -/
structure ArgStored (m : Mem V) (t : ℕ) (arg : VarArg) : Prop where
  version : m.Version arg.version.1 arg.version.2 arg.ptr.storage
  owner : ∃ o, m.Belongs o arg.ptr.storage
  slot : arg.version.2 < (m.node arg.version.1).slots
  reader : arg.mode.isWriter = false → ∃ a < m.arcs.size, ∃ q p,
    (m.arc a).reads = some (t, (q, p)) ∧ m.Version q p arg.ptr.storage ∧ Serves m arg.version q p

/-- An arc made for a reader is waiting until the version is complete, and spent when the
reader has finished or need not be waited for. -/
structure ArcStored (m : Mem V) (x : Arc) : Prop where
  reads : x.kind = .flowOnly ∨ x.kind = .exceptionSignal → x.reads = none
  complete : ∀ r q p, x.reads = some (r, (q, p)) → x.role ≠ .waiting →
    (m.node q).phase = .finished
  spent : ∀ r q p, x.reads = some (r, (q, p)) → x.role = .spent →
    (m.node r).phase = .finished ∨ ((m.node q).out p).nextWriter = .noOwner

/-- A memory in which every version has its storage. -/
structure StoreOk (m : Mem V) : Prop where
  var : ∀ v < m.vars.size, (m.var v).Stored m
  slot : ∀ n < m.nodes.size, ∀ p, Passes m n p ((m.node n).out p).nextWriter
  inner : ∀ n < m.nodes.size, (m.node n).kind = .task → (m.node n).status = .live →
    (m.var (m.node n).inner).currentTask = none → (m.var (m.node n).inner).storage = .null
  arg : ∀ t < m.nodes.size, ∀ arg ∈ (m.node t).args, ArgStored m t arg
  written : ∀ t < m.nodes.size, ∀ i arg, (m.node t).written[i]? = some arg →
    i + 1 < (m.node t).slots ∧ Precedes m arg.version.1 arg.version.2 t (i + 1)
  arc : ∀ a < m.arcs.size, ArcStored m (m.arc a)
  deleted : ∀ a < m.arcs.size, (m.arc a).alive = false → (m.arc a).role = .spent

/-! ## Instructions -/

/-- The storage that argument pointer `p` leads to is the result of node `n`. -/
def Mem.LeadsTo (m : Mem V) (n : ℕ) : ArgPtr → Prop
  | .plain s => s = .result n
  | .forwarded v => (m.var v).storage = .result n ∧ ∃ q, (m.var v).currentTask = some q

/-- The results of a body go to storages of the arguments its task writes. -/
def After.Stored (m : Mem V) : After V → Prop
  | .exit => True
  | .body t _ cells => ∀ n, StoragePtr.result n ∈ cells →
      ∃ arg ∈ (m.node t).args, arg.mode.isWriter = true ∧ m.LeadsTo n arg.ptr

/-- A call of `run` has set up as many outputs as it has recorded writers, and the vars of the
caller name earlier versions. -/
structure Frame.Stored (m : Mem V) (f : Frame V) : Prop where
  port : (m.node f.task).written.length + 1 = f.port
  env : ∀ v ∈ f.env, ∀ n, (m.var v).currentTask = some n →
    Precedes m n (m.var v).currentPort f.task f.port
  after : f.after.Stored m

def AddSite.Stored (m : Mem V) : AddSite V → Prop
  | .assign f _ => f.Stored m
  | .assignTo f _ => f.Stored m
  | .ownBack f => f.Stored m
  | _ => True

/-- What an instruction knows about the versions it works on. -/
def Instr.Stored (m : Mem V) : Instr V → List (Instr V) → Prop
  | .addArc _ _ site, _ => site.Stored m
  | .addArcCas _ _ _ site, _ => site.Stored m
  | .setNextWriter n p d, _ => Passes m n p d
  | .redirect n q t p _, _ => Follows m n q t p
  | .moveArcs n q t p _, _ => Follows m n q t p
  | .finish t _ vals cells, _ => (After.body t vals cells : After V).Stored m
  | .setup f, _ => f.Stored m
  | .assignHead f _ _ _, _ => f.Stored m
  | .assignFailure f _ _ _, _ => f.Stored m
  | .assignIncrement f _ _ _, _ => f.Stored m
  | .bind f, _ => f.Stored m
  | .moveResult f r, _ => r.Stored m ∧ f.after.Stored m
  | .runOps _ _ after, _ => after.Stored m
  | .waitStatus v, rest => Held (.var v) rest
  | .waitRead v, rest => Held (.var v) rest ∧ ∃ n, (m.var v).currentTask = some n
  | _, _ => True

/-! ## What stays -/

section Frozen

variable {m m' : Mem V} {n p : ℕ}

theorem written_prefix {x x' : Node V} (h : SameNode x x') : x.written <+: x'.written := by
  obtain ⟨l, hl⟩ := h.args
  unfold Node.written
  rw [← hl, List.filter_append]
  exact List.prefix_append _ _

/-- A version keeps its storage. -/
theorem Mem.Version.stable {s : StoragePtr} (h : m.Version n p s) (hfrozen : Frozen m m') :
    m'.Version n p s := by
  refine ⟨h.lt.trans_le hfrozen.nodes_le, ?_⟩
  have hsame := hfrozen.node n h.lt
  have hs := h.storage
  cases p with
  | zero =>
    rw [← hs]
    simp only [Mem.storageAt, Node.resultStorage, hsame.kind, hsame.resultKind, hsame.inner]
  | succ i =>
    obtain ⟨arg, harg, rfl⟩ := Option.map_eq_some_iff.mp hs
    obtain ⟨l, hl⟩ := written_prefix hsame
    have hi : i < (m.node n).written.length := (List.getElem?_eq_some_iff.mp harg).1
    simp only [Mem.storageAt]
    rw [← hl, List.getElem?_append_left hi, harg, Option.map_some]

theorem Mem.Belongs.stable {s : StoragePtr} {o : Option ℕ} (h : m.Belongs o s)
    (hfrozen : Frozen m m') : m'.Belongs o s := by
  cases s with
  | varObject v =>
    obtain ⟨t, ht, hkind, hinner, ho⟩ := h
    have hsame := hfrozen.node t ht
    exact ⟨t, ht.trans_le hfrozen.nodes_le, hsame.kind.trans hkind, hsame.inner.trans hinner, ho⟩
  | _ => exact h

theorem Precedes.stable {d i : ℕ} (h : Precedes m n p d i) (hn : n < m.nodes.size)
    (hfrozen : Frozen m m') : Precedes m' n p d i := by
  intro hkind
  apply h
  rwa [← (hfrozen.node n hn).kind]

theorem Over.stable {v w : ℕ × ℕ} (h : Over m v w) (hw : w.1 < m.nodes.size)
    (hfrozen : Frozen m m') : Over m' v w := by
  obtain ⟨i, arg, hi, harg, hversion⟩ := h
  obtain ⟨l, hl⟩ := written_prefix (hfrozen.node w.1 hw)
  have hlt : i < (m.node w.1).written.length := (List.getElem?_eq_some_iff.mp harg).1
  refine ⟨i, arg, hi, ?_, hversion⟩
  rw [← hl, List.getElem?_append_left hlt, harg]

theorem Follows.stable {d i : ℕ} (h : Follows m n p d i) (hfrozen : Frozen m m') :
    Follows m' n p d i := by
  obtain ⟨s, hversion, hnext⟩ := h.shares
  have hsame := hfrozen.node d h.task.1
  exact ⟨⟨h.task.1.trans_le hfrozen.nodes_le, hsame.kind.trans h.task.2⟩, hsame.slots ▸ h.port,
    ⟨s, hversion.stable hfrozen, hnext.stable hfrozen⟩, h.precedes.stable hversion.lt hfrozen,
    h.overwrites.stable h.task.1 hfrozen⟩

theorem Serves.stable {v : ℕ × ℕ} {q i : ℕ} (h : Serves m v q i) (hfrozen : Frozen m m') :
    Serves m' v q i := by
  rcases h with hsame | ⟨hkind, hfollows⟩
  · exact .inl hsame
  · obtain ⟨s, hversion, -⟩ := hfollows.shares
    exact .inr ⟨(hfrozen.node _ hversion.lt).kind.trans hkind, hfollows.stable hfrozen⟩

theorem Passes.stable {d : NextWriter} (h : Passes m n p d) (hfrozen : Frozen m m') :
    Passes m' n p d := by
  cases d with
  | null => trivial
  | ready => trivial
  | noOwner =>
    obtain ⟨s, hversion, howner⟩ := h
    exact ⟨s, hversion.stable hfrozen, howner.stable hfrozen⟩
  | owner o =>
    obtain ⟨s, hversion, howner⟩ := h
    exact ⟨s, hversion.stable hfrozen, howner.stable hfrozen⟩
  | node d =>
    obtain ⟨i, hfollows⟩ := h
    exact ⟨i, hfollows.stable hfrozen⟩

theorem Var.Stored.stable {u : Var} (h : u.Stored m) (hfrozen : Frozen m m') : u.Stored m' :=
  ⟨fun n hn => (h.version n hn).stable hfrozen, fun n hn => (h.owner n hn).stable hfrozen⟩

end Frozen

end Oox
