import Oox.Forwarding.WriteAfterRead

/-!
# The writer of a forwarded var overtakes the readers

As soon as the body registers one reader and the version it reads is produced, there is a run in
which the writer's body starts before any reader has completed: the forwarding task completes, its
slot has no consumers, and so the writer's last prerequisite is gone.
-/

set_option autoImplicit false

namespace Oox.WriteAfterRead

open Library

/-! ## Readers that have not completed -/

def Pending (m : Mem) : Prop := ∀ r ∈ m.readers, r.completed = false

theorem Pending.reader {m : Mem} (h : Pending m) (i : ℕ) : (m.reader i).completed = false := by
  unfold Mem.reader
  rw [List.getD_eq_getElem?_getD]
  cases hget : m.readers[i]? with
  | none => rfl
  | some r => exact h r (List.mem_of_getElem? hget)

theorem Pending.setReader {m : Mem} (h : Pending m) (i : ℕ) {r : Reader}
    (hr : r.completed = false) : Pending (m.setReader i r) := by
  intro r' hr'
  rcases List.mem_or_eq_of_mem_set hr' with hr' | rfl
  · exact h r' hr'
  · exact hr

@[simp] theorem reader_setReader_of_ne {m : Mem} {i j : ℕ} (h : i ≠ j) (r : Reader) :
    (m.setReader i r).reader j = m.reader j := by
  unfold Mem.setReader Mem.reader
  simp [List.getElem?_set_ne h]

@[simp] theorem reader_setReader_self {m : Mem} {i : ℕ} (h : i < m.readers.length) (r : Reader) :
    (m.setReader i r).reader i = r := by
  unfold Mem.setReader Mem.reader
  simp [h]

@[simp] theorem length_setReader (m : Mem) (i : ℕ) (r : Reader) :
    (m.setReader i r).readers.length = m.readers.length := by
  unfold Mem.setReader
  simp

/-! ## Counting prerequisites -/

/-- A removal that leaves some prerequisites. -/
theorem exec_remove_some {m : Mem} {t : Consumer} {n k : ℕ} (h : (m.word t).count = n + k)
    (hk : 0 < k) : exec m false (.removePrerequisite t n) =
      .next (m.setWord t { m.word t with count := k }) [] [] := by
  have hsub : (m.word t).count - n = k := by omega
  show removePrerequisite m t n = _
  unfold removePrerequisite
  rw [StartCount.removePrerequisite_left (by omega), hsub]

/-- A removal of all that are left starts the task. -/
theorem exec_remove_last {m : Mem} {t : Consumer} {n : ℕ} (h : (m.word t).count = n) :
    exec m false (.removePrerequisite t n) =
      .next (m.setWord t { m.word t with count := 0 }) [] [[t.body]] := by
  show removePrerequisite m t n = _
  unfold removePrerequisite
  rw [StartCount.removePrerequisite_last h]

/-! ## The body registers its readers -/

/-- None of the `k` readers has completed, and the forwarding task's slot and the writer are as
they were. -/
structure Behind (k others : ℕ) (m : Mem) : Prop where
  length : m.readers.length = k
  pending : Pending m
  outer : m.outer = {}
  writer : m.writerWord.count = 2 + others

/-- The body has registered `j` of `k` readers; nothing else has happened. -/
structure Registered (version : Version) (k others j : ℕ) (m : Mem) : Prop
    extends Behind k others m where
  untouched : ∀ i, j ≤ i → (m.reader i).startCount.count = 2
  list : m.list.isSome = version.list.isSome
  countdown : 1 ≤ m.inner.countdown

theorem registered_start (version : Version) (k others : ℕ) :
    Registered version k others 0 (start version k others).mem where
  length := List.length_replicate
  pending := by
    intro r hr
    rw [List.eq_of_mem_replicate hr]
  untouched := by
    intro i _
    simp only [start, Mem.reader, List.getD_eq_getElem?_getD, List.getElem?_replicate]
    split <;> rfl
  list := rfl
  countdown := by
    show 1 ≤ version.slot.countdown
    cases version <;> decide
  outer := rfl
  writer := rfl

/-- Reader `j` may change as well. -/
theorem Registered.succ {version : Version} {k others j : ℕ} {m : Mem} (h : Registered version k others j m) :
    Registered version k others (j + 1) m :=
  { h with untouched := fun i hi => h.untouched i (by omega) }

/-- Readers that were registered may change their counts and get their back arcs. -/
theorem Registered.setReader {version : Version} {k others j i : ℕ} {m : Mem}
    (h : Registered version k others j m) (hi : i < j) {r : Reader} (hr : r.completed = false) :
    Registered version k others j (m.setReader i r) where
  length := by rw [length_setReader, h.length]
  pending := h.pending.setReader i hr
  untouched := by
    intro i' hi'
    rw [reader_setReader_of_ne (by omega)]
    exact h.untouched i' hi'
  list := h.list
  countdown := h.countdown
  outer := h.outer
  writer := h.writer

variable {c₀ : State} {version : Version} {k others j : ℕ} {m : Mem} {t : List Instr}
variable {ls : List (List Instr)}

/-- An open list takes the reader's arc. -/
theorem register_open {l : List Arc} (h : Registered version k others j m) (hl : m.list = some l)
    (hleads : RunsTo exec c₀ m ((.register j :: t) :: ls)) :
    ∃ m' ls', RunsTo exec c₀ m' (t :: (ls ++ ls')) ∧ Registered version k others (j + 1) m' := by
  let m₁ : Mem := { m with list := some (.reader j :: l) }
  have hregister : exec m false (.register j) =
      goto m₁ [.removePrerequisite (.reader j) 1] := by
    simp only [exec, register, hl, m₁]
  have hcount : (m₁.word (.reader j)).count = 1 + 1 := h.untouched j (Nat.le_refl j)
  have hremove := (hleads.step hregister rfl).step (exec_remove_some hcount Nat.one_pos) rfl
  have h₁ : Registered version k others j m₁ :=
    { h with list := by rw [← h.list, hl]; rfl }
  have h₂ : Registered version k others (j + 1)
      (m₁.setWord (.reader j) { m₁.word (.reader j) with count := 1 }) :=
    h₁.succ.setReader (Nat.lt_succ_self j) (h₁.pending.reader j)
  refine ⟨_, [], ?_, h₂⟩
  simpa using hremove

/-- A reader that comes too late counts itself on the slot and is started. -/
theorem register_late (hj : j < k) (h : Registered version k others j m) (hl : m.list = none)
    (hleads : RunsTo exec c₀ m ((.register j :: t) :: ls)) :
    ∃ m' ls', RunsTo exec c₀ m' (t :: (ls ++ ls')) ∧ Registered version k others (j + 1) m' := by
  let m₁ : Mem := { m with inner := { m.inner with countdown := m.inner.countdown + 1 } }
  let r : Reader := { m₁.reader j with backArc := true }
  have hcountdown := h.countdown
  have hregister : exec m false (.register j) = goto m [.increment j] := by
    simp only [exec, register, hl]
  have hincrement : exec m false (.increment j) = goto m₁ [.ownBack j] := by
    simp only [exec, increment]
    rw [OutputNode.increment_eq_some.mpr ⟨by omega, rfl⟩]
  have hback : exec m₁ false (.ownBack j) =
      goto (m₁.setReader j r) [.removePrerequisite (.reader j) 2] := rfl
  have hself : (m₁.setReader j r).reader j = r :=
    reader_setReader_self (h.length ▸ hj) r
  have hcount : ((m₁.setReader j r).word (.reader j)).count = 2 := by
    show ((m₁.setReader j r).reader j).startCount.count = _
    rw [hself]
    exact h.untouched j (Nat.le_refl j)
  have hlast := (((hleads.step hregister rfl).step hincrement rfl).step hback rfl).step
    (exec_remove_last hcount) rfl
  have h₁ : Registered version k others j m₁ :=
    { h with countdown := by show 1 ≤ m.inner.countdown + 1; omega }
  have h₂ : Registered version k others (j + 1) (m₁.setReader j r) :=
    h₁.succ.setReader (Nat.lt_succ_self j) (h₁.pending.reader j)
  have h₃ : Registered version k others (j + 1) ((m₁.setReader j r).setWord (.reader j)
      { (m₁.setReader j r).word (.reader j) with count := 0 }) :=
    h₂.setReader (Nat.lt_succ_self j) (h₂.pending.reader j)
  refine ⟨_, [[.runReader j]], ?_, h₃⟩
  simpa [Consumer.body] using hlast

/-- The body gets through all its readers, and none of them completes meanwhile. -/
theorem register_all (n : ℕ) (hn : j + n = k) (h : Registered version k others j m)
    (hleads : RunsTo exec c₀ m (((List.range' j n).map .register ++ t) :: ls)) :
    ∃ m' ls', RunsTo exec c₀ m' (t :: (ls ++ ls')) ∧ Registered version k others k m' := by
  induction n generalizing j m ls with
  | zero =>
    obtain rfl : j = k := by omega
    exact ⟨m, [], by simpa using hleads, h⟩
  | succ n ih =>
    rw [List.range'_succ, List.map_cons, List.cons_append] at hleads
    have hone : ∃ m' ls', RunsTo exec c₀ m' (((List.range' (j + 1) n).map .register ++ t) ::
        (ls ++ ls')) ∧ Registered version k others (j + 1) m' := by
      cases hl : m.list with
      | some l => exact register_open h hl hleads
      | none => exact register_late (by omega) h hl hleads
    obtain ⟨m₁, ls₁, hleads₁, h₁⟩ := hone
    obtain ⟨m₂, ls₂, hleads₂, h₂⟩ := ih (by omega) h₁ hleads₁
    exact ⟨m₂, ls₁ ++ ls₂, by rwa [List.append_assoc] at hleads₂, h₂⟩

/-! ## The forwarding task completes -/

/-- The version is produced, and the forwarding task gets to complete. -/
theorem outer_completes (hversion : version ≠ .deferred) (h : Registered version k others k m)
    (hleads : RunsTo exec c₀ m ([.storeStart, .offerArc] :: version.thread :: ls)) :
    ∃ m' ls', RunsTo exec c₀ m' ([.complete .outer] :: (ls ++ ls')) ∧ Behind k others m' := by
  let m₁ : Mem := { m with hasValue := true, outerWord := { count := 1 } }
  have hstore : exec m false .storeStart = goto m₁ [] := rfl
  have hleads₁ := hleads.step hstore rfl
  have hb : Behind k others m := h.toBehind
  cases hl : m.list with
  | none =>
    have hoffer : exec m₁ false .offerArc = goto m₁ [.complete .outer] := by
      simp only [exec, offerArc, m₁, hl]
    have hleads₂ := hleads₁.step hoffer rfl
    have hperm : ([version.thread] ++ ls).Perm (ls ++ [version.thread]) := List.perm_append_comm
    exact ⟨m₁, [version.thread], hleads₂.perm (by simpa using hperm), { hb with }⟩
  | some l =>
    -- the version's task completes and hands the forwarding task its prerequisite first
    let m₂ : Mem := { m₁ with list := some (.forward :: l) }
    let m₃ : Mem := m₂.setSlot .inner m₂.inner.arm
    let m₄ : Mem := { m₃ with list := none }
    let m₅ : Mem := m₄.setWord .outer { m₄.outerWord with count := 0 }
    have hthread : version.thread = [.complete .inner] := by
      have hsome := h.list
      cases version with
      | value => rw [hl] at hsome; cases hsome
      | task => rfl
      | deferred => exact absurd rfl hversion
    have hoffer : exec m₁ false .offerArc = goto m₂ [] := by
      simp only [exec, offerArc, m₁, m₂, hl]
    have hcomplete : exec m₂ false (.complete .inner) = goto m₃ [.closeList .inner] := rfl
    have hclose : exec m₃ false (.closeList .inner) =
        goto m₄ [.notifyArcs (.forward :: l) countdownBias] := rfl
    have hnotify : exec m₄ false (.notifyArcs (.forward :: l) countdownBias) =
        goto m₄ [.removePrerequisite .outer 1, .notifyArcs l countdownBias] := rfl
    have hlast : exec m₄ false (.removePrerequisite .outer 1) =
        .next m₅ [] [[.execute]] := exec_remove_last (t := .outer) rfl
    have hexecute : exec m₅ false .execute = goto m₅ [.complete .outer] := rfl
    have hleads₂ := hleads₁.step hoffer rfl
    rw [hthread] at hleads₂
    have hinner : RunsTo exec c₀ m₂ ([.complete .inner] :: [] :: ls) :=
      RunsTo.swap (by simpa using hleads₂)
    have hleads₃ := (((hinner.step hcomplete rfl).step hclose rfl).step hnotify rfl).step hlast rfl
    let left : List (List Instr) := [[.notifyArcs l countdownBias], []]
    have houter : RunsTo exec c₀ m₅ (left ++ ls ++ [[Instr.execute]]) := by simpa [left] using hleads₃
    have hperm : (left ++ ls).Perm (ls ++ left) := List.perm_append_comm
    have hleads₄ := houter.last.step hexecute rfl
    exact ⟨m₅, left, hleads₄.perm (by simpa using hperm), { hb with }⟩

/-! ## The writer starts -/

/-- The inputs the writer still waits for are produced, and it is started. -/
theorem inputs_arrive {js : List ℕ} (hjs : js ≠ []) (hcount : m.writerWord.count = js.length)
    (hleads : RunsTo exec c₀ m ((js.map fun j => [Instr.produce j]) ++ ls)) :
    ∃ m' ls', RunsTo exec c₀ m' ([.runWriter] :: ls') ∧ m'.readers = m.readers := by
  induction js generalizing m ls with
  | nil => exact absurd rfl hjs
  | cons j js ih =>
    have hproduce : exec m false (.produce j) = goto m [.removePrerequisite .writer 1] := rfl
    have hleads₁ := hleads.step hproduce rfl
    rw [List.length_cons] at hcount
    cases js with
    | nil =>
      have hcount' : (m.word .writer).count = 1 := hcount
      have hleads₂ := hleads₁.step (exec_remove_last hcount') rfl
      rw [← List.cons_append] at hleads₂
      exact ⟨_, _, hleads₂.last, rfl⟩
    | cons j' js =>
      have hcount' : (m.word .writer).count = 1 + (j' :: js).length := by
        show m.writerWord.count = _
        omega
      have hpos : 0 < (j' :: js).length := by simp
      have hleads₂ := hleads₁.step (exec_remove_some hcount' hpos) rfl
      have hnext : RunsTo exec c₀
          (m.setWord .writer { m.word .writer with count := (j' :: js).length })
          (((j' :: js).map fun j => [Instr.produce j]) ++ ([] :: ls)) :=
        hleads₂.perm (by
          rw [List.append_nil, List.append_nil]
          exact List.perm_middle.symm)
      obtain ⟨m', ls', hleads', hreaders⟩ := ih (by simp) rfl hnext
      exact ⟨m', ls', hleads', hreaders⟩

/-- The forwarding task's slot counts down without the readers, and the writer overtakes them. -/
theorem writer_overtakes (h : Behind k others m)
    (hleads : RunsTo exec c₀ m ([Instr.complete .outer] ::
      [Instr.setNextWriter, .removePrerequisite .writer 1] ::
      ((List.range others).map fun j => [Instr.produce j]) ++ ls)) :
    ∃ m' ls', RunsTo exec c₀ m' ls' ∧ m'.started = true ∧ m'.readers = m.readers := by
  let slot (countdown : ℤ) (next : NextWriter) : Mem :=
    { m with outer := { countdown := countdown, nextWriter := next, armed := true } }
  let m₁ : Mem := slot countdownBias .null
  let m₂ : Mem := slot countdownBias .ready
  let m₃ : Mem := slot 1 .ready
  let m₄ : Mem := slot 1 (.node 0)
  let m₅ : Mem := slot 0 (.node 0)
  let m₆ : Mem := { m₅ with writerWord := { m.writerWord with count := 1 + others } }
  have hcomplete : exec m false (.complete .outer) = goto m₁ [.closeList .outer] := by
    simp only [exec, complete, Mem.setSlot, Mem.slot, h.outer, OutputNode.arm, m₁, slot]
  have hclose : exec m₁ false (.closeList .outer) = goto m₁ [.outLoad .outer countdownBias] := rfl
  have hload : exec m₁ false (.outLoad .outer countdownBias) =
      goto m₁ [.outCas .outer countdownBias] := rfl
  have hcas : exec m₁ false (.outCas .outer countdownBias) =
      goto m₂ [.outSub .outer (countdownBias - 1)] := rfl
  have hsub : exec m₂ false (.outSub .outer (countdownBias - 1)) = goto m₃ [] := rfl
  have hnext : exec m₃ false .setNextWriter = goto m₄ [.removeBackArc .outer] := rfl
  have hback : exec m₄ false (.removeBackArc .outer) = goto m₅ [.notifyNextWriter .outer] := rfl
  have hnotify : exec m₅ false (.notifyNextWriter .outer) =
      goto m₅ [.removePrerequisite .writer 1] := rfl
  have hcount₅ : (m₅.word .writer).count = 1 + (1 + others) := by
    show m.writerWord.count = _
    rw [h.writer]
    omega
  have houter := ((((hleads.step hcomplete rfl).step hclose rfl).step hload rfl).step hcas rfl).step
    hsub rfl
  let os : List (List Instr) := (List.range others).map fun j => [.produce j]
  let publish : Instr := .removePrerequisite .writer 1
  have hmain : RunsTo exec c₀ m₃ ([.setNextWriter, publish] :: [] :: (os ++ ls)) :=
    RunsTo.swap (by simpa using houter)
  have hslot := (((hmain.step hnext rfl).step hback rfl).step hnotify rfl).step
    (exec_remove_some hcount₅ (by omega)) rfl
  have hpublish : RunsTo exec c₀ m₆ ([publish] :: [] :: (os ++ ls)) := by
    simpa [m₆, m₅, slot, Mem.setWord, Mem.word] using hslot
  have hwriter : ∃ m' ls', RunsTo exec c₀ m' ([.runWriter] :: ls') ∧ m'.readers = m.readers := by
    cases others with
    | zero =>
      have hlast := hpublish.step (exec_remove_last (m := m₆) (t := .writer) (by simp [Mem.word, m₆]))
        rfl
      rw [← List.cons_append] at hlast
      exact ⟨_, _, hlast.last, rfl⟩
    | succ n =>
      have hcount₆ : (m₆.word .writer).count = 1 + (n + 1) := rfl
      have hsome := hpublish.step (exec_remove_some hcount₆ (by omega)) rfl
      have hinputs : RunsTo exec c₀ (m₆.setWord .writer { m₆.word .writer with count := n + 1 })
          (os ++ ([] :: [] :: ls)) :=
        hsome.perm (by
          simp only [List.append_nil]
          exact ((List.perm_middle (a := [])).symm.cons []).trans List.perm_middle.symm)
      obtain ⟨m', ls', hleads', hreaders⟩ := inputs_arrive (by simp) (by simp [Mem.setWord]) hinputs
      exact ⟨m', ls', hleads', hreaders⟩
  obtain ⟨m', ls', hrun, hreaders⟩ := hwriter
  have hstart : exec m' false .runWriter = goto { m' with started := true } [] := rfl
  exact ⟨_, _, hrun.step hstart rfl, rfl, hreaders⟩

/-- With a reader and a version that is produced, some run breaks the order. -/
theorem overtaken (hversion : version ≠ .deferred) (hk : 0 < k) (others : ℕ) :
    ∃ c, Reach exec (fun _ _ => True) (start version k others) c ∧ ¬ Ordered c.mem := by
  let c₀ : State := start version k others
  let main : List Instr := [.setNextWriter, .removePrerequisite .writer 1]
  let os : List (List Instr) := (List.range others).map fun j => [.produce j]
  have h₀ : Registered version k others 0 c₀.mem := registered_start version k others
  have hexecute : exec c₀.mem false .execute =
      goto c₀.mem ((List.range' 0 k).map Instr.register ++ [Instr.storeStart, .offerArc]) := by
    show goto c₀.mem ((List.range c₀.mem.readers.length).map .register ++ _) = _
    rw [h₀.length, List.range_eq_range']
  have hbody : RunsTo exec c₀ c₀.mem ([.execute] :: main :: version.thread :: os) :=
    (RunsTo.start exec c₀).swap
  have hregister := hbody.step hexecute rfl
  rw [List.append_nil, List.append_nil] at hregister
  obtain ⟨m₁, ls₁, hleads₁, h₁⟩ := register_all k (Nat.zero_add k) h₀ hregister
  have hforward : RunsTo exec c₀ m₁
      ([.storeStart, .offerArc] :: version.thread :: (main :: os ++ ls₁)) :=
    hleads₁.perm ((List.Perm.swap _ _ _).cons _)
  obtain ⟨m₂, ls₂, hleads₂, h₂⟩ := outer_completes hversion h₁ hforward
  rw [List.append_assoc] at hleads₂
  obtain ⟨m₃, ls₃, hleads₃, hstarted, hreaders⟩ := writer_overtakes h₂ hleads₂
  obtain ⟨c, hreach, rfl, -⟩ := hleads₃
  refine ⟨c, hreach, fun hordered => ?_⟩
  obtain ⟨r, hr⟩ : ∃ r, r ∈ c.mem.readers :=
    List.exists_mem_of_length_pos (by rw [hreaders, h₂.length]; exact hk)
  have hdone := hordered hstarted r hr
  rw [h₂.pending r (hreaders ▸ hr)] at hdone
  cases hdone

/-! ## A version that nobody produces

Here the forwarding task is never resumed, and the writer keeps waiting for its slot. -/

/-- What is kept: the writer's prerequisites, and the one first run of the forwarding task. -/
inductive Right where
  | prerequisite
  | body
  deriving DecidableEq

def tokens : Instr → Right → ℤ
  | .removePrerequisite .writer _, .prerequisite => 1
  | .produce _, .prerequisite => 1
  | .execute, .body => 1
  | .storeStart, .body => 1
  | _, _ => 0

/-- The writer waits for one prerequisite more than the threads can remove. -/
def balance (m : Mem) : Right → ℤ
  | .prerequisite => 1 - m.writerWord.count
  | .body => if m.hasValue then 0 else -1

/-- The list stays open, and no reader has been charged to the slot. -/
structure Waits (m : Mem) : Prop where
  list : m.list.isSome = true
  backArc : ∀ i, (m.reader i).backArc = false
  outer : m.outer.nextWriter ≠ .ready
  started : m.started = false

/-- What can still be done while the list stays open. -/
def Early : Instr → Prop
  | .removePrerequisite (.reader _) _ => True
  | .removePrerequisite .writer n => n = 1
  | .execute => True
  | .runReader _ => True
  | .register _ => True
  | .storeStart => True
  | .offerArc => True
  | .setNextWriter => True
  | .produce _ => True
  | _ => False

/-- Nothing is produced and the writer does not start. -/
def unproduced : Protocol Mem Instr Right where
  balance := balance
  tokens := tokens
  memory := Waits
  relies _ ins _ := Early ins
  tokens_nonneg ins k := by
    unfold tokens
    split <;> decide

theorem Waits.setReader (h : Waits m) {i : ℕ} {r : Reader} (hr : r.backArc = false) :
    Waits (m.setReader i r) where
  list := h.list
  backArc j := by
    unfold Mem.setReader Mem.reader
    rw [List.getD_eq_getElem?_getD, List.getElem?_set]
    have hj := h.backArc j
    unfold Mem.reader at hj
    rw [List.getD_eq_getElem?_getD] at hj
    split
    · split
      · exact hr
      · rfl
    · exact hj
  outer := h.outer
  started := h.started

variable {ins : Instr} {rest push : List Instr} {spawned : List (List Instr)} {m' : Mem}

theorem stackOk_early {l : List Instr} :
    StackOk unproduced.relies m l ↔ ∀ x ∈ l, Early x :=
  stackOk_iff

/-- A step that moves the rights and goes on early keeps the protocol. -/
theorem unproduced_keeps_of (hok : Waits m')
    (hcons : Conserves balance tokens m ins m' push spawned) (hpush : ∀ x ∈ push, Early x)
    (hspawned : ∀ l ∈ spawned, ∀ x ∈ l, Early x) :
    unproduced.Keeps m ins rest m' push spawned where
  memory := hok
  conserves := hcons
  stable _ _ h _ := h
  push hrest := by
    rw [stackOk_early] at hrest ⊢
    intro x hx
    rcases List.mem_append.mp hx with hx | hx
    · exact hpush x hx
    · exact hrest x hx
  spawned l hl := stackOk_early.mpr (hspawned l hl)

/-- A step that leaves the writer's count and the result alone. -/
theorem unproduced_keeps_of_same (hok : Waits m') (hcount : m'.writerWord = m.writerWord)
    (hvalue : m'.hasValue = m.hasValue)
    (hsame : ∀ k, stackSum tokens push k + threadSum tokens spawned k = tokens ins k)
    (hpush : ∀ x ∈ push, Early x) (hspawned : ∀ l ∈ spawned, ∀ x ∈ l, Early x) :
    unproduced.Keeps m ins rest m' push spawned := by
  refine unproduced_keeps_of hok (fun k => ?_) hpush hspawned
  have hbalance : balance m' k = balance m k := by
    cases k with
    | prerequisite => simp only [balance, hcount]
    | body => simp only [balance, hvalue]
  rw [hbalance, add_assoc, hsame]

/-- A reader's count is nobody else's business. -/
theorem reader_keeps {i : ℕ} {n : ℕ} (w : StartCount) (started : Bool)
    (h : unproduced.Enters m (.removePrerequisite (.reader i) n) rest) :
    unproduced.Keeps m (.removePrerequisite (.reader i) n) rest (m.setWord (.reader i) w) []
      (if started then [[.runReader i]] else []) := by
  refine unproduced_keeps_of_same (h.memory.setReader (h.memory.backArc i)) rfl rfl (fun k => ?_)
    (fun x hx => by cases hx) fun l hl x hx => ?_
  · cases started <;> cases k <;> rfl
  · cases started with
    | false => cases hl
    | true =>
      obtain rfl := List.mem_singleton.mp hl
      obtain rfl := List.mem_singleton.mp hx
      trivial

/-- Removing a prerequisite, where that is not the last one or starts a reader. -/
theorem remove_keeps {t : Consumer} {n : ℕ} (h : unproduced.Enters m (.removePrerequisite t n) rest)
    (hstep : removePrerequisite m t n = .next m' push spawned) :
    unproduced.Keeps m (.removePrerequisite t n) rest m' push spawned := by
  unfold removePrerequisite at hstep
  cases t with
  | outer => exact absurd h.relies id
  | reader i =>
    split at hstep
    · cases hstep
    · cases hstep
      exact reader_keeps _ true h
    · cases hstep
      exact reader_keeps _ false h
  | writer =>
    obtain rfl : n = 1 := h.relies
    have hcovered : (1 : ℤ) ≤ -(1 - m.writerWord.count) := h.covered .prerequisite
    rw [StartCount.removePrerequisite_left (show 1 < (m.word .writer).count from by
      show 1 < m.writerWord.count
      omega)] at hstep
    cases hstep
    refine unproduced_keeps_of { h.memory with } (fun k => ?_) (fun x hx => by cases hx)
      fun l hl => by cases hl
    cases k with
    | body =>
      show balance m .body + 0 + 0 = balance m .body + 0
      omega
    | prerequisite =>
      show (1 : ℤ) - (m.writerWord.count - 1 : ℕ) + 0 + 0 = 1 - m.writerWord.count + 1
      omega

/-- Before the body has returned there is no result. -/
theorem fresh_of_body (h : unproduced.Enters m ins rest) (hins : tokens ins .body = 1) :
    m.hasValue = false := by
  have hcovered : tokens ins .body ≤ -balance m .body := h.covered .body
  cases hvalue : m.hasValue with
  | false => rfl
  | true => simp [balance, hvalue, hins] at hcovered

/-- The body starts once. -/
theorem execute_keeps (h : unproduced.Enters m .execute rest)
    (hstep : execute m = .next m' push spawned) :
    unproduced.Keeps m .execute rest m' push spawned := by
  have hvalue := fresh_of_body h rfl
  unfold execute at hstep
  rw [hvalue] at hstep
  cases hstep
  have hnone : ∀ (l : List ℕ) (k : Right), stackSum tokens (l.map .register) k = 0 := by
    intro l k
    induction l with
    | nil => rfl
    | cons i l ih =>
      rw [List.map_cons, stackSum_cons, ih]
      cases k <;> rfl
  refine unproduced_keeps_of_same h.memory rfl rfl (fun k => ?_) (fun x hx => ?_)
    fun l hl => by cases hl
  · rw [stackSum_append, hnone]
    cases k <;> rfl
  · rcases List.mem_append.mp hx with hx | hx
    · obtain ⟨i, -, rfl⟩ := List.mem_map.mp hx
      trivial
    · rcases List.mem_cons.mp hx with rfl | hx
      · trivial
      · obtain rfl := List.mem_singleton.mp hx
        trivial

/-- One step keeps everything as early as it was. -/
theorem unproduced_keeps (choice : Bool) (h : unproduced.Enters m ins rest)
    (hstep : exec m choice ins = .next m' push spawned) :
    unproduced.Keeps m ins rest m' push spawned := by
  have hone : ∀ {x y : Instr}, x ∈ [y] → Early y → Early x := by
    intro x y hx hy
    rwa [List.mem_singleton.mp hx]
  have hlist := h.memory.list
  cases ins with
  | removePrerequisite t n => exact remove_keeps h hstep
  | execute => exact execute_keeps h hstep
  | runReader i =>
    have hrun : exec m choice (.runReader i) =
        goto (m.setReader i { m.reader i with completed := true }) [] := by
      simp only [exec, runReader, h.memory.backArc i]
      rfl
    rw [hrun] at hstep
    cases hstep
    refine unproduced_keeps_of_same (h.memory.setReader (h.memory.backArc i)) rfl rfl
      (fun k => ?_) (fun x hx => by cases hx) fun l hl => by cases hl
    cases k <;> rfl
  | register i =>
    obtain ⟨l, hl⟩ := Option.isSome_iff_exists.mp hlist
    simp only [exec, register, hl] at hstep
    cases hstep
    refine unproduced_keeps_of_same { h.memory with list := rfl } rfl rfl (fun k => ?_)
      (fun x hx => hone hx trivial) fun l hl => by cases hl
    cases k <;> rfl
  | storeStart =>
    have hvalue := fresh_of_body h rfl
    cases hstep
    refine unproduced_keeps_of { h.memory with } (fun k => ?_)
      (fun x hx => by cases hx) fun l hl => by cases hl
    cases k with
    | body => simp [balance, tokens, hvalue]
    | prerequisite => simp [balance, tokens]
  | offerArc =>
    obtain ⟨l, hl⟩ := Option.isSome_iff_exists.mp hlist
    simp only [exec, offerArc, hl] at hstep
    cases hstep
    refine unproduced_keeps_of_same { h.memory with list := rfl } rfl rfl (fun k => ?_)
      (fun x hx => by cases hx) fun l hl => by cases hl
    cases k <;> rfl
  | setNextWriter =>
    simp only [exec, setNextWriter] at hstep
    split at hstep
    · cases hstep
    · rename_i o ready hnext
      obtain ⟨-, rfl, hbefore⟩ := OutputNode.of_setNextWriter hnext
      have hwriter : NextWriter.node 0 ≠ .ready := by decide
      rcases hbefore with ⟨-, rfl⟩ | ⟨hready, -⟩ | ⟨-, hend, -⟩
      · cases hstep
        refine unproduced_keeps_of_same { h.memory with outer := hwriter } rfl rfl (fun k => ?_)
          (fun x hx => by cases hx) fun l hl => by cases hl
        cases k <;> rfl
      · exact absurd hready h.memory.outer
      · cases hend
  | produce j =>
    cases hstep
    refine unproduced_keeps_of_same h.memory rfl rfl (fun k => ?_) (fun x hx => hone hx rfl)
      fun l hl => by cases hl
    cases k <;> rfl
  | _ => exact absurd h.relies id

theorem unproduced_start (k others : ℕ) : unproduced.Holds (start .deferred k others) where
  memory :=
    { list := rfl
      backArc := by
        intro i
        simp only [start, Mem.reader, List.getD_eq_getElem?_getD, List.getElem?_replicate]
        split <;> rfl
      outer := by
        show NextWriter.null ≠ .ready
        decide
      started := rfl }
  law := by
    have hproduce : ∀ (js : List ℕ) (r : Right),
        threadSum tokens (js.map fun j => [.produce j]) r =
          if r = .prerequisite then (js.length : ℤ) else 0 := by
      intro js r
      induction js with
      | nil => cases r <;> rfl
      | cons j js ih =>
        rw [List.map_cons, threadSum_cons, ih]
        cases r <;> simp [tokens, add_comm]
    intro r
    show balance (start .deferred k others).mem r +
      threadSum tokens (start .deferred k others).threads r = 0
    simp only [start, threadSum_cons, hproduce, List.length_range]
    cases r with
    | prerequisite =>
      simp [balance, tokens, Version.thread]
      omega
    | body => simp [balance, tokens, Version.thread]
  relies := by
    intro l hl
    rw [stackOk_early]
    intro x hx
    rcases List.mem_cons.mp hl with rfl | hl
    · rcases List.mem_cons.mp hx with rfl | hx
      · trivial
      · rw [List.mem_singleton.mp hx]
        rfl
    rcases List.mem_cons.mp hl with rfl | hl
    · rw [List.mem_singleton.mp hx]
      trivial
    rcases List.mem_cons.mp hl with rfl | hl
    · cases hx
    obtain ⟨j, -, rfl⟩ := List.mem_map.mp hl
    rw [List.mem_singleton.mp hx]
    trivial

/-! ## When the order is kept -/

@[simp] theorem length_setWord (m : Mem) (t : Consumer) (w : StartCount) :
    (m.setWord t w).readers.length = m.readers.length := by
  cases t with
  | reader i => exact length_setReader m i _
  | _ => rfl

@[simp] theorem readers_setSlot (m : Mem) (w : Producer) (o : OutputNode) :
    (m.setSlot w o).readers = m.readers := by
  cases w <;> rfl

/-- No step makes or loses a reader. -/
theorem length_readers (m : Mem) (choice : Bool) (ins : Instr) :
    (exec m choice ins).Leaves fun m' => m'.readers.length = m.readers.length := by
  unfold exec removePrerequisite execute runReader register increment ownBack offerArc complete
    closeList notifyArcs outLoad outCas backArcs notifyNextWriter setNextWriter
  cases ins <;> dsimp only <;> (repeat' split) <;> simp [Outcome.Leaves, runWriter, storeStart]

/-- A body that registers `k` readers of the current version of a local var and returns the var: the
later writer's body starts after all readers of the returned version in every run just when there
is none, or when that version is never produced. -/
theorem readers_before_writer_iff (version : Version) (k others : ℕ) :
    (∀ c, Reach exec (fun _ _ => True) (start version k others) c → Ordered c.mem) ↔
      k = 0 ∨ version = .deferred := by
  constructor
  · intro hordered
    by_contra hnot
    rw [not_or] at hnot
    obtain ⟨c, hreach, hbad⟩ := overtaken hnot.2 (Nat.pos_of_ne_zero hnot.1) others
    exact hbad (hordered c hreach)
  · rintro (rfl | rfl) c hreach hstarted
    · have hlength : c.mem.readers.length = 0 := by
        apply hreach.invariant (I := fun c => c.mem.readers.length = 0) List.length_replicate
        intro c c' e hzero _ hstep
        obtain ⟨ins, rest, push, spawned, -, hexec, -⟩ := Config.step_cases hstep
        rw [(length_readers c.mem e.choice ins).of_next hexec, hzero]
      intro r hr
      rw [List.eq_nil_of_length_eq_zero hlength] at hr
      cases hr
    · have hholds : unproduced.Holds c :=
        Protocol.Holds.of_reach (unproduced_start k others)
          (fun _ e _ _ _ _ _ _ _ _ hexec henters => unproduced_keeps e.choice henters hexec) hreach
      rw [hholds.memory.started] at hstarted
      cases hstarted

/-- `run` of a reader on a var that has its value, then the writer of the forwarded var: the
writer's body runs while the reader has not even started. -/
theorem reader_overtaken :
    ∃ c, Reach exec (fun _ _ => True) (start .value 1 0) c ∧ ¬ Ordered c.mem := by
  obtain ⟨c, hreach, hbad⟩ := Reach.exists_of_run exec (start .value 1 0)
    (rounds [(1, 12), (0, 5), (4, 1)]) (fun c => c.mem.started && c.mem.readers.any (!·.completed))
    (by decide)
  refine ⟨c, hreach, fun hordered => ?_⟩
  obtain ⟨hstarted, hany⟩ := Bool.and_eq_true_iff.mp hbad
  obtain ⟨r, hr, hopen⟩ := List.any_eq_true.mp hany
  rw [hordered hstarted r hr] at hopen
  cases hopen

end Oox.WriteAfterRead
