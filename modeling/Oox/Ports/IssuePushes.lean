import Oox.Ports.Pushes

/-!
# What `execute`, `run` and the user's operations push is placed
-/

set_option autoImplicit false

namespace Oox

open Library

variable {V : Type} [Inhabited V]

namespace PortStep

variable {m m' : Mem V} {spurious : Bool} {push : List (Instr V)}
variable {spawned : List (List (Instr V))}

/-! ## execute -/

theorem execute_placed {t : ℕ} (h : PortStep m spurious (.execute t) m' push spawned) :
    m'.AllPlaced push := by
  have ht : t < m'.nodes.size := h.nodes_le (h.allocated List.mem_cons_self)
  have hstep := h.step
  rw [exec, if_pos h.inLifetime] at hstep
  simp only [Exec.execute] at hstep
  split_ifs at hstep <;> cases hstep
  · exact (Mem.allPlaced_cons _ _).mpr ⟨start_placed ht, Mem.allPlaced_nil⟩
  · exact (Mem.allPlaced_cons _ _).mpr ⟨start_placed ht, Mem.allPlaced_nil⟩
  · simp [Instr.Placed]

theorem invoke_placed {t : ℕ} (h : PortStep m spurious (.invoke t) m' push spawned) :
    m'.AllPlaced push := by
  have hstep := h.step
  rw [exec, if_pos h.inLifetime] at hstep
  simp only [Exec.invoke] at hstep
  split at hstep
  · cases hstep
  · cases hstep
    refine (Mem.allPlaced_cons _ _).mpr ⟨?_, Mem.allPlaced_nil⟩
    intro v hv
    rw [List.mem_range'_1] at hv
    rw [Mem.vars_newVars_size]
    exact hv.2

theorem finish_placed {t : ℕ} {env : List ℕ} {vals : List V} {cells : List StoragePtr}
    (h : PortStep m spurious (.finish t env vals cells) m' push spawned) : m'.AllPlaced push := by
  have ht : t < m.nodes.size := h.allocated List.mem_cons_self
  have ht' : t < m'.nodes.size := h.nodes_le ht
  have hfits := fun c ha harc => h.payload_fits (c := c) ht ha harc
  have hwritten := writeCells_written (m := m) (cells.zip ((m.node t).body.writes vals))
  have hstep := h.step
  rw [exec, if_pos h.inLifetime] at hstep
  simp only [Exec.finish] at hstep
  generalize Exec.writeCells m (cells.zip ((m.node t).body.writes vals)) = m₁ at hstep hwritten
  have hsize : m₁.arcs.size = m.arcs.size := congrArg Heap.size hwritten.arcs
  split at hstep
  · split at hstep <;> cases hstep
    simp only [Mem.allPlaced_cons, Mem.allPlaced_nil, and_true]
    refine ⟨⟨hfits m.controls.size ?_ ?_, trivial⟩, start_placed ht'⟩
    · rw [Mem.arcs_newArc_size]
      exact Nat.lt_succ_of_le hsize.ge
    · exact if_pos hsize.symm
  · split at hstep
    · split at hstep <;> cases hstep
      exact (Mem.allPlaced_cons _ _).mpr ⟨start_placed ht', Mem.allPlaced_nil⟩
    · cases hstep
      exact (Mem.allPlaced_cons _ _).mpr ⟨start_placed ht', Mem.allPlaced_nil⟩
    · split at hstep
      · cases hstep
      · split at hstep
        · cases hstep
        · split at hstep <;> cases hstep
          simp [Instr.Placed]

theorem addLife_placed {t : ℕ} (h : PortStep m spurious (.addLife t) m' push spawned) :
    m'.AllPlaced push := by
  have ht : t < m'.nodes.size := h.nodes_le (h.allocated List.mem_cons_self)
  have ht₀ : t < m.nodes.size := h.allocated List.mem_cons_self
  have hvar := h.mem.var (m.node t).inner
  have hslots := h.slots_kept
  have hle := fun n hn => h.nodes_le (n := n) hn
  have hstep := h.step
  rw [exec, if_pos h.inLifetime] at hstep
  simp only [Exec.addLife] at hstep
  split at hstep
  · cases hstep
  · rename_i n htask
    cases hstep
    have hn := hle n (hvar.slot n htask).node
    refine (Mem.allPlaced_cons _ _).mpr ⟨⟨⟨hn, Nat.lt_succ_self _, fun _ => ?_, ?_⟩, ht⟩,
      Mem.allPlaced_nil⟩
    · rw [Mem.arc_newArc, Mem.arcs_setNode, if_pos rfl]
      exact (hslots n hn).1
    · intro hkind
      rw [Mem.arc_newArc, Mem.arcs_setNode, if_pos rfl] at hkind
      cases hkind

theorem forwardFailure_placed {t : ℕ}
    (h : PortStep m spurious (.forwardFailure t) m' push spawned) : m'.AllPlaced push := by
  have ht : t < m.nodes.size := h.allocated List.mem_cons_self
  have hstep := h.step
  rw [exec, if_pos h.inLifetime] at hstep
  simp only [Exec.forwardFailure] at hstep
  split at hstep <;> cases hstep
  split
  · simp only [Mem.allPlaced_cons, Mem.allPlaced_nil, and_true]
    exact ⟨trivial, start_placed ht⟩
  · exact (Mem.allPlaced_cons _ _).mpr ⟨start_placed ht, Mem.allPlaced_nil⟩

/-! ## run -/

omit [Inhabited V] in
/-- The frame after a plain argument, or after a var argument that is read. -/
theorem frame_skip {f : Frame V} {arg : Arg} {rest : List Arg} (hf : f.Placed m)
    (hargs : f.args = arg :: rest) (hreader : arg.isWriter = false) :
    Frame.Placed m { f with args := rest } where
  task := hf.task
  kind := hf.kind
  port := hf.port
  slots := by
    have hslots := hf.slots
    rw [hargs, List.filter_cons_of_neg (by simp [hreader])] at hslots
    exact hslots
  env := hf.env
  dst := hf.dst

omit [Inhabited V] in
/-- The frame after a recorded argument. -/
theorem frame_record {m₁ : Mem V} {f f' : Frame V} {arg : Arg} {rest : List Arg}
    (record : VarArg) (hf : f.Placed m) (hfrozen : Frozen m m₁) (hargs : f.args = arg :: rest)
    (hrecord : (m₁.node f.task).args = (m.node f.task).args ++ [record])
    (hmode : record.isWriter = arg.isWriter) (htask : f'.task = f.task)
    (hrest : f'.args = rest) (hport : f'.port = f.port + if arg.isWriter then 1 else 0)
    (henv : f'.env = f.env) (hdst : f'.dst = f.dst) : f'.Placed m₁ where
  task := by
    rw [htask]
    exact hf.task.trans_le hfrozen.nodes_le
  kind := by
    rw [htask, (hfrozen.node _ hf.task).kind]
    exact hf.kind
  port := by
    have hold := hf.port
    rw [htask, hport, hrecord, List.filter_append, List.length_append]
    cases hw : arg.isWriter with
    | true =>
      rw [List.filter_cons_of_pos (hmode.trans hw)]
      simp
      omega
    | false =>
      rw [List.filter_cons_of_neg (by simp [hmode, hw])]
      simpa using hold
  slots := by
    have hslots := hf.slots
    rw [hargs] at hslots
    rw [htask, hport, hrest, (hfrozen.node _ hf.task).slots]
    cases hw : arg.isWriter with
    | true =>
      rw [List.filter_cons_of_pos hw, List.length_cons] at hslots
      simp
      omega
    | false =>
      rw [List.filter_cons_of_neg (by simp [hw])] at hslots
      simpa using hslots
  env := by
    rw [henv]
    exact hf.env.mono hfrozen
  dst v hv := by
    rw [hdst] at hv
    exact (hf.dst v hv).trans_le hfrozen.vars_le

theorem setup_placed {f : Frame V} (h : PortStep m spurious (.setup f) m' push spawned) :
    m'.AllPlaced push := by
  have hf : f.Placed m := h.ok
  have hvars := h.mem.var
  have hfrozen := h.frozen
  have hnext := @next_slot V _ m m' spurious push spawned f h
  have hstep := h.step
  rw [exec, if_pos h.inLifetime] at hstep
  simp only [Exec.setup] at hstep
  split at hstep
  · cases hstep
    exact (Mem.allPlaced_cons _ _).mpr ⟨hf, Mem.allPlaced_nil⟩
  · rename_i rest hargs
    cases hstep
    exact (Mem.allPlaced_cons _ _).mpr ⟨frame_skip hf hargs rfl, Mem.allPlaced_nil⟩
  · rename_i x mode rest hargs
    split at hstep
    · cases hstep
    · rename_i v henv
      split at hstep
      · split at hstep <;> cases hstep
        refine (Mem.allPlaced_cons _ _).mpr ⟨Frame.Placed.mono hfrozen hf ?_, Mem.allPlaced_nil⟩
        have hne : f.task ≠ m.nodes.size := hf.task.ne
        rw [Mem.node_setVar, Mem.node_newNode, if_neg hne]
      · rename_i n htask
        have hslot := ((hvars v).slot n htask).mono hfrozen
        split at hstep
        · rename_i hwriter
          have hgiven := (hnext hargs hwriter).mono hfrozen
          split at hstep
          · cases hstep
          · split at hstep
            · cases hstep
            · split at hstep
              · cases hstep
              · split at hstep
                · rename_i hdef
                  have hkind := (hvars v).deferred n htask hdef
                  rw [← (hfrozen.node n ((hvars v).slot n htask).node).kind] at hkind
                  cases hstep
                  simp only [Mem.allPlaced_cons, Mem.allPlaced_nil, and_true]
                  refine ⟨⟨hslot, hgiven, hkind, Nat.lt_succ_self _, ?_, ?_⟩, ?_⟩
                  · rw [Mem.arc_newArc, Mem.arcs_setVar, Mem.arcs_setNode, if_pos rfl]
                  · rw [Mem.arc_newArc, Mem.arcs_setVar, Mem.arcs_setNode, if_pos rfl]
                  · refine frame_record ⟨mode, Exec.argPtr (m.var v), (n, (m.var v).currentPort)⟩
                      hf hfrozen hargs ?_ rfl rfl rfl ?_ rfl rfl
                    · rw [Mem.node_newArc, Mem.node_setVar, Mem.node_setNode_self]
                    · rw [show Arg.isWriter (.var x mode) = true from hwriter]
                      rfl
                · cases hstep
                  simp only [Mem.allPlaced_cons, Mem.allPlaced_nil, and_true]
                  refine ⟨hslot, ?_⟩
                  refine frame_record ⟨mode, Exec.argPtr (m.var v), (n, (m.var v).currentPort)⟩
                    hf hfrozen hargs ?_ rfl rfl rfl ?_ rfl rfl
                  · rw [Mem.node_setVar, Mem.node_setNode_self]
                  · rw [show Arg.isWriter (.var x mode) = true from hwriter]
                    rfl
        · rename_i hreader
          have hmode : mode.isWriter = false := by simpa using hreader
          split at hstep <;> cases hstep
          have hfits : ∀ m₁ : Mem V, m₁.HasSlot n (m.var v).currentPort →
              m.arcs.size < m₁.arcs.size → (m₁.arc m.arcs.size).kind = .flowBack →
              (m₁.arc m.arcs.size).port = (m.var v).currentPort → m₁.Fits n m.arcs.size := by
            intro m₁ hs ha hk hp
            exact ⟨hs.node, ha, fun _ => hp ▸ hs.port, fun hb => absurd (hk.symm.trans hb) (by simp)⟩
          have hfits' := hfits _ hslot (Nat.lt_succ_self _)
            (by rw [Mem.arc_newArc, Mem.arcs_setNode, if_pos rfl])
            (by rw [Mem.arc_newArc, Mem.arcs_setNode, if_pos rfl])
          refine (Mem.allPlaced_cons _ _).mpr ⟨⟨hfits', ?_, hslot, hfits', ?_⟩,
            Mem.allPlaced_nil⟩
          · refine frame_record ⟨mode, Exec.argPtr (m.var v), (n, (m.var v).currentPort)⟩
              hf hfrozen hargs ?_ rfl rfl rfl ?_ rfl rfl
            · rw [Mem.node_newArc, Mem.node_setNode_self]
            · rw [show Arg.isWriter (.var x mode) = false from hmode]
              rfl
          · rw [Mem.arc_newArc, Mem.arcs_setNode, if_pos rfl]

omit [Inhabited V] in
/-- A registration goes on with the port it found. -/
theorem reads_redirected {m₁ : Mem V} {f : Frame V} {n p a : ℕ}
    (hframe : f.Placed m₁) (ha : a < m₁.arcs.size) (hslot : m₁.HasSlot n p) (hkind : (m₁.arc a).kind = .flowBack)
    (hport : (m₁.arc a).port = p) : m₁.Reads f n p a where
  frame := hframe
  slot := hslot
  fits := ⟨hslot.node, ha, fun _ => hport ▸ hslot.port,
    fun hback => absurd (hkind.symm.trans hback) (by simp)⟩
  kind := hkind

theorem assignHead_placed {f : Frame V} {n p a : ℕ}
    (h : PortStep m spurious (.assignHead f n p a) m' push spawned) : m'.AllPlaced push := by
  have hreads : m.Reads f n p a := h.ok
  have hframe := h.frame_kept (by simp) hreads.frame
  have hfrozen := h.frozen
  have hredirect := h.mem.redirect n hreads.fits.node
  have hstep := h.step
  rw [exec, if_pos h.inLifetime] at hstep
  simp only [Exec.assignHead] at hstep
  split at hstep
  · rename_i d hhead
    have hslot := (hredirect d hhead).2.mono hfrozen
    have hlt := hreads.fits.arc
    cases hstep
    -- the arc now waits for the version that replaced the deferred one
    refine (Mem.allPlaced_cons _ _).mpr ⟨?_, Mem.allPlaced_nil⟩
    have hreads' := reads_redirected hframe hlt hslot
      (by
        rw [Mem.arc_setArc_self]
        exact hreads.kind)
      (by rw [Mem.arc_setArc_self])
    exact ⟨hreads'.fits, hreads'⟩
  · cases hstep
    exact (Mem.allPlaced_cons _ _).mpr ⟨hreads, Mem.allPlaced_nil⟩

theorem assignFailure_placed {f : Frame V} {n p a : ℕ}
    (h : PortStep m spurious (.assignFailure f n p a) m' push spawned) : m'.AllPlaced push := by
  have hreads : m.Reads f n p a := h.ok
  have hstep := h.step
  rw [exec, if_pos h.inLifetime] at hstep
  cases hstep
  refine (Mem.allPlaced_append _ _).mpr ⟨?_, ?_⟩
  · split <;> simp [Instr.Placed]
  · exact (Mem.allPlaced_cons _ _).mpr ⟨hreads, Mem.allPlaced_nil⟩

theorem assignIncrement_placed {f : Frame V} {n p a : ℕ}
    (h : PortStep m spurious (.assignIncrement f n p a) m' push spawned) : m'.AllPlaced push := by
  have hreads : m.Reads f n p a := h.ok
  have hframe := h.frame_kept (by simp) hreads.frame
  have hstep := h.step
  rw [exec, if_pos h.inLifetime] at hstep
  simp only [Exec.assignIncrement_eq] at hstep
  split at hstep <;> cases hstep
  refine (Mem.allPlaced_cons _ _).mpr ⟨⟨?_, hframe⟩, Mem.allPlaced_nil⟩
  refine ⟨hframe.task, hreads.fits.arc, fun hnot => ?_, fun _ => hframe.kind⟩
  rw [Mem.arc_setArc_self] at hnot
  exact absurd rfl hnot

theorem redirect_placed {n q t p a : ℕ}
    (h : PortStep m spurious (.redirect n q t p a) m' push spawned) : m'.AllPlaced push := by
  obtain ⟨hslot, hwriter, hkind, -, -, -⟩ := h.ok
  have hslot' := hslot.mono h.frozen
  have hwriter' := hwriter.mono h.frozen
  have hlist := h.mem.list n hslot.node
  have hstep := h.step
  rw [exec, if_pos h.inLifetime] at hstep
  cases hstep
  refine (Mem.allPlaced_cons _ _).mpr ⟨⟨hslot', hwriter', fun b hb => ?_⟩, Mem.allPlaced_nil⟩
  cases hhead : (m.node n).head with
  | list l =>
    rw [hhead] at hb
    have hfits := hlist l hhead b hb
    -- back arcs are on the lists of tasks only
    refine ⟨hfits.arc, fun hback => ?_⟩
    exact absurd ((hfits.back hback).symm.trans hkind) (by simp)
  | _ =>
    rw [hhead] at hb
    cases hb

theorem moveArcs_placed {n q t p : ℕ} {r : List ℕ}
    (h : PortStep m spurious (.moveArcs n q t p r) m' push spawned) : m'.AllPlaced push := by
  obtain ⟨hslot, hwriter, harcs⟩ := h.ok
  have hslot' := hslot.mono h.frozen
  have hwriter' := hwriter.mono h.frozen
  cases r with
  | nil =>
    have hstep := h.step
    rw [exec, if_pos h.inLifetime] at hstep
    cases hstep
    exact (Mem.allPlaced_cons _ _).mpr ⟨hslot, Mem.allPlaced_nil⟩
  | cons a r =>
    obtain ⟨ha, hkind⟩ := harcs a List.mem_cons_self
    have hrest : ∀ b ∈ r, b < m'.arcs.size ∧ (m'.arc b).kind ≠ .backOnly := by
      intro b hb
      obtain ⟨hlt, hnot⟩ := harcs b (List.mem_cons_of_mem _ hb)
      have hsame := h.tail_same (fun k => rfl) (fun c hc => (Option.some.inj hc).symm) hb hlt
      refine ⟨hlt.trans_le h.frozen.arcs_le, ?_⟩
      rw [hsame.kind]
      exact hnot
    have hstep := h.step
    rw [exec, if_pos h.inLifetime] at hstep
    cases hstep
    simp only [Mem.allPlaced_cons, Mem.allPlaced_nil, and_true]
    refine ⟨⟨⟨hwriter'.node, ha, fun _ => ?_, fun hback => ?_⟩, trivial⟩, hslot', hwriter', hrest⟩
    · rw [Mem.arc_setArc_self]
      exact hwriter'.port
    · rw [Mem.arc_setArc_self] at hback
      exact absurd hback hkind

theorem bind_placed {f : Frame V} (h : PortStep m spurious (.bind f) m' push spawned) :
    m'.AllPlaced push := by
  have hf : f.Placed m := h.ok
  have hfrozen := h.frozen
  have hslot : m.HasSlot f.task 0 := ⟨hf.task, (h.mem.slots f.task hf.task).1⟩
  have hslot' := hslot.mono hfrozen
  have hstep := h.step
  rw [exec, if_pos h.inLifetime] at hstep
  cases hstep
  simp only [Mem.allPlaced_cons, Mem.allPlaced_nil, and_true]
  refine ⟨trivial, ?_, hf.env.mono hfrozen, fun v hv => (hf.dst v hv).trans_le hfrozen.vars_le⟩
  unfold resultVar
  split
  all_goals
    refine ⟨fun n hn => ?_, fun n _ hdef => absurd hdef (by simp)⟩
    cases hn
    exact hslot'

theorem moveResult_placed {f : Frame V} {r : Var}
    (h : PortStep m spurious (.moveResult f r) m' push spawned) : m'.AllPlaced push := by
  obtain ⟨hr, henv, -⟩ := h.ok
  have henv' : (Instr.runOps f.env f.ops f.after).Placed m' := henv.mono h.frozen
  have hvars := h.varsIn
  have hr' := hr.mono h.frozen
  have hstep := h.step
  rw [exec, if_pos h.inLifetime] at hstep
  simp only [Exec.moveResult] at hstep
  split at hstep
  · cases hstep
    rw [Mem.allPlaced_append]
    exact ⟨allPlaced_releaseVar hr', (Mem.allPlaced_cons _ _).mpr ⟨henv', Mem.allPlaced_nil⟩⟩
  · rename_i v _
    split at hstep <;> cases hstep
    rw [Mem.allPlaced_append]
    exact ⟨allPlaced_releaseVar (hvars v), (Mem.allPlaced_cons _ _).mpr ⟨henv', Mem.allPlaced_nil⟩⟩

/-! ## The operations of a thread -/

omit [Inhabited V] in
theorem assignVar_placed {m₁ m₀ : Mem V} {v : ℕ} {r : Var} {next : List (Instr V)}
    (hvars : m₀.VarsIn m₁) (hnext : m₀.AllPlaced next)
    (hstep : Exec.assignVar m₁ v r next = .next m' push spawned) : m₀.AllPlaced push := by
  simp only [Exec.assignVar] at hstep
  split at hstep <;> cases hstep
  rw [Mem.allPlaced_append]
  exact ⟨allPlaced_releaseVar (hvars v), hnext⟩

theorem runOps_placed {env : List ℕ} {ops : List (Op V)} {after : After V}
    (h : PortStep m spurious (.runOps env ops after) m' push spawned) : m'.AllPlaced push := by
  have henv : m.Binds env := h.ok
  have henv' : m'.Binds env := henv.mono h.frozen
  have hvars := h.varsIn
  have hnext : ∀ rest, m'.AllPlaced [.runOps env rest after] :=
    fun rest => (Mem.allPlaced_cons _ _).mpr ⟨henv', Mem.allPlaced_nil⟩
  have hstep := h.step
  have hregular := h.regular
  rw [exec, if_pos h.inLifetime] at hstep
  simp only [Exec.runOps] at hstep
  split at hstep
  · split at hstep <;> cases hstep
    · simp
    · exact (Mem.allPlaced_cons _ _).mpr ⟨henv, Mem.allPlaced_nil⟩
  · split at hstep
    · split at hstep
      · cases hstep
      · exact assignVar_placed hvars (hnext _) hstep
    · rename_i v
      split at hstep
      · cases hstep
      · have hnew : m'.VarsIn (m.newNode (storageNode v)) := hvars
        exact assignVar_placed hnew (hnext _) hstep
    · split at hstep
      · cases hstep
      · have hnew : m'.VarsIn (m.newNode deferredNode) := hvars
        exact assignVar_placed hnew (hnext _) hstep
    · rename_i dst args canThrow kind code
      cases hstep
      refine (Mem.allPlaced_cons _ _).mpr ⟨?_, Mem.allPlaced_nil⟩
      have hnode : ((m.newNode (taskNode args canThrow kind code m.vars.size)).newVar {}).node
          m.nodes.size = taskNode args canThrow kind code m.vars.size := by
        rw [Mem.node_newVar, Mem.node_newNode, if_pos rfl]
      refine ⟨Nat.lt_succ_self _, ?_, ?_, ?_, henv', fun v hv => ?_⟩
      · rw [hnode]
        rfl
      · rw [hnode]
        rfl
      · rw [hnode]
        rfl
      · obtain ⟨x, -, hx⟩ := Option.bind_eq_some_iff.mp hv
        exact henv' v (List.mem_of_getElem? hx)
    · split at hstep
      · rename_i dst src _ _ d s hd hs
        split at hstep
        · cases hstep
        · split at hstep
          · cases hstep
          · exact assignVar_placed (hvars.setVar (.empty rfl)) (hnext _) hstep
      · cases hstep
    · split at hstep
      · cases hstep
      · exact assignVar_placed hvars (hnext _) hstep
    · split at hstep
      · cases hstep
      · split at hstep
        · cases hstep
          exact hnext _
        · split at hstep <;> cases hstep
          · exact hnext _
          · exact (Mem.allPlaced_cons _ _).mpr ⟨trivial, hnext _⟩
    · split at hstep
      · cases hstep
      · split at hstep <;> cases hstep
        simp only [Mem.allPlaced_cons, Mem.allPlaced_nil, and_true]
        exact ⟨trivial, trivial, henv⟩
    · split at hstep
      · cases hstep
      · split at hstep <;> cases hstep
        simp only [Mem.allPlaced_cons, Mem.allPlaced_nil, and_true]
        exact ⟨trivial, trivial, henv⟩
    · split at hstep
      · rename_i dst src _ _ d s hd hs
        split at hstep
        · cases hstep
        · split at hstep
          · cases hstep
          · refine assignVar_placed (hvars.setVar (.empty rfl)) ?_ hstep
            exact (Mem.allPlaced_cons _ _).mpr ⟨trivial, hnext _⟩
      · cases hstep
    · exact hregular.elim
    · cases hstep
      exact hnext _

/-! ## Every step -/

/-- A step leaves its own stack in order. -/
theorem push_placed {ins : Instr V} (h : PortStep m spurious ins m' push spawned) :
    m'.AllPlaced push := by
  have hstep := h.step
  unfold exec at hstep
  rw [if_pos h.inLifetime] at hstep
  cases ins with
  | release n k =>
    simp only [Exec.release] at hstep
    split at hstep <;> cases hstep <;> simp [Instr.Placed]
  | releaseSub n k =>
    simp only [Exec.releaseSub] at hstep
    split_ifs at hstep <;> cases hstep <;> simp [Instr.Placed]
  | destroy n => exact h.destroy_placed
  | freeNode n =>
    simp only [Exec.freeNode] at hstep
    split at hstep <;> cases hstep <;> simp [Instr.Placed]
  | deleteArc a =>
    cases hstep
    split <;> simp [Instr.Placed]
  | releaseControl c =>
    simp only [Exec.releaseControl] at hstep
    split at hstep <;> cases hstep
    simp
  | addArc n a site => exact h.addArc_placed
  | addArcCas n a seen site => exact h.addArcCas_placed
  | removeBackArc n p => exact h.removeBackArc_placed
  | notifyNextWriter n p => exact h.notifyNextWriter_placed
  | setNextWriter n p d => exact h.setNextWriter_placed
  | storeCountdown t canThrow count => exact h.storeCountdown_placed
  | loadException t count => exact h.loadException_placed
  | findTerminal t count => exact h.findTerminal_placed
  | retainTerminal t c count => exact h.retainTerminal_placed
  | closeList t canThrow terminal count => exact h.closeList_placed
  | loadFailureFlag t r count => exact h.loadFailureFlag_placed
  | notifyArcs t canThrow failed r count => exact h.notifyArcs_placed
  | outLoad t i count refs => exact h.outLoad_placed
  | outCas t i count refs => exact h.outCas_placed
  | outSub t i count refs => exact h.outSub_placed
  | outNotify t i count refs => exact h.outNotify_placed
  | wakeup t refs =>
    cases hstep
    simp [Instr.Placed]
  | removePrerequisite n k => exact h.removePrerequisite_placed
  | spawn n =>
    cases hstep
    simp
  | publish n source p => exact h.publish_placed
  | publishControl n source =>
    simp only [Exec.publishControl] at hstep
    split at hstep <;> cases hstep <;> simp [Instr.Placed]
  | retainSignal n c => exact h.retainSignal_placed
  | mark n b => exact h.mark_placed
  | markLoad n b =>
    cases hstep
    simp [Instr.Placed]
  | markCheck n b word => exact h.markCheck_placed
  | markCas n b word => exact h.markCas_placed
  | execute t => exact h.execute_placed
  | invoke t => exact h.invoke_placed
  | finish t env vals cells => exact h.finish_placed
  | storeStart t =>
    cases hstep
    simp [Instr.Placed]
  | addLife t => exact h.addLife_placed
  | forwardFailure t => exact h.forwardFailure_placed
  | setup f => exact h.setup_placed
  | assignHead f n p a => exact h.assignHead_placed
  | assignFailure f n p a => exact h.assignFailure_placed
  | assignIncrement f n p a => exact h.assignIncrement_placed
  | redirect n q t p a => exact h.redirect_placed
  | moveArcs n q t p r => exact h.moveArcs_placed
  | bind f => exact h.bind_placed
  | moveResult f r => exact h.moveResult_placed
  | runOps env ops after => exact h.runOps_placed
  | waitHead n =>
    cases hstep
    split <;> simp [Instr.Placed]
  | waitBlock n =>
    simp only [Exec.waitBlock] at hstep
    split at hstep <;> cases hstep
    simp [Instr.Placed]
  | waitDone n =>
    simp only [Exec.waitDone] at hstep
    split at hstep <;> cases hstep
    simp
  | waitStatus v =>
    cases hstep
    simp
  | waitRead v =>
    simp only [Exec.waitRead] at hstep
    split at hstep <;> cases hstep
    simp

/-- A new thread starts in order. -/
theorem spawned_placed {ins : Instr V} (h : PortStep m spurious ins m' push spawned) :
    ∀ l ∈ spawned, m'.AllPlaced l := by
  intro l hl
  rcases exec_spawned_cases h.step l hl with ⟨n, -, rfl⟩ | ⟨env, ops, after, rfl⟩
  · simp [Instr.Placed]
  · have hstep := h.step
    rw [exec, if_pos h.inLifetime] at hstep
    cases ops with
    | nil =>
      cases after <;> cases hstep <;> cases hl
    | cons op ops =>
      cases op with
      | fork xs locals ops' =>
        cases hstep
        obtain rfl := List.mem_singleton.mp hl
        refine (Mem.allPlaced_cons _ _).mpr ⟨?_, Mem.allPlaced_nil⟩
        intro v hv
        rw [List.mem_range'_1] at hv
        rw [Mem.vars_newVars_size, borrowVars_size]
        omega
      | _ =>
        simp only [Exec.runOps, Exec.assignVar] at hstep
        repeat' split at hstep
        all_goals
          cases hstep
          try cases hl

end PortStep

end Oox
