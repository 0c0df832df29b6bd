import Oox.TaskBench.Points

/-!
# Task-Bench results and the schedule

All points of the graphs are executed on any threads, each after its dependencies. A token is a
function of the point, the tokens it depends on and, for the memory kernel, the bytes the thread
left in its buffer. Two executions in which the kernels meet the same bytes agree on all tokens;
the memory kernel makes the bytes depend on which points a thread ran before.
-/

set_option autoImplicit false

namespace Oox.TaskBench

variable {F : Type}

structure Point where
  graph : ℕ
  row : ℕ
  col : ℕ
  deriving DecidableEq, Repr

def Point.inGraph (cfg : Config F) (width : ℤ) (p : Point) : Prop :=
  (p.graph : ℤ) < cfg.graphs ∧ (p.row : ℤ) < cfg.height ∧ (p.col : ℤ) < width

instance (cfg : Config F) (width : ℤ) (p : Point) : Decidable (p.inGraph cfg width) :=
  inferInstanceAs (Decidable (_ ∧ _ ∧ _))

/-- The point of the row before that a dependency names. -/
def Point.dependency (p : Point) (dep : ℤ) : Point := ⟨p.graph, p.row - 1, dep.toNat⟩

/-- The tokens computed so far and the thread-local buffers. -/
structure State where
  tokens : Point → Option Token := fun _ => none
  scratch : ℕ → List Byte
  -- history
  /-- the bytes a memory kernel met when it executed the point. -/
  seen : Point → List Byte := fun _ => []

/-- A point and the thread that executes it. -/
structure Event where
  thread : ℕ
  point : Point
  deriving DecidableEq, Repr

/-- The bytes of a buffer that `memory_kernel` reads. -/
def scratchView (cfg : Config F) (scratch : List Byte) : List Byte :=
  (resizeScratch cfg.scratchBytes scratch).take cfg.scratchBytes

/-- The tokens the dependencies of a point have computed, if they all have. -/
def State.inputs (s : State) (p : Point) (expected : List ℤ) : Option (List Token) :=
  expected.mapM fun dep => if 0 ≤ dep then s.tokens (p.dependency dep) else none

/-- Execute a point that was not executed before, after its dependencies. -/
def State.execute (ops : Doubles F) (cfg : Config F) (width : ℤ) (s : State) (e : Event) :
    Option State :=
  let p := e.point
  if p.inGraph cfg width ∧ s.tokens p = none then do
    let expected ← deps cfg width p.row p.col
    let inputs ← s.inputs p expected
    let out ← (executePoint ops cfg p.graph p.row p.col expected inputs (s.scratch e.thread)).toOption
    some
      { tokens := Function.update s.tokens p (some out.1)
        scratch := Function.update s.scratch e.thread out.2
        seen := Function.update s.seen p (scratchView cfg (s.scratch e.thread)) }
  else none

def State.run (ops : Doubles F) (cfg : Config F) (width : ℤ) (s : State) : List Event → Option State
  | [] => some s
  | e :: es => (s.execute ops cfg width e).bind fun s' => State.run ops cfg width s' es

/-- An execution of all points, on threads whose buffers hold `init` before. -/
structure Executes (ops : Doubles F) (cfg : Config F) (width : ℤ) (init : ℕ → List Byte)
    (es : List Event) (s : State) : Prop where
  run : State.run ops cfg width { scratch := init } es = some s
  all : ∀ p : Point, p.inGraph cfg width → (s.tokens p).isSome

/-- The kernels work on the thread-local buffers. -/
def Config.usesScratch (cfg : Config F) : Prop :=
  cfg.kernel = .memory ∧ cfg.iterations ≠ 0 ∧ cfg.scratchBytes ≠ 0

/-! ## Tokens and buffers -/

section Kernels

variable {ops : Doubles F} {cfg : Config F}

/-- An iteration of the memory kernel reads and writes the first `n` bytes only. -/
theorem memoryStep_take {n : ℕ} (hn : 0 < n) (x : BitVec 64) (scratch : List Byte) (k : ℕ) :
    memoryStep n (x, scratch.take n) k =
      ((memoryStep n (x, scratch) k).1, (memoryStep n (x, scratch) k).2.take n) := by
  have hidx : (mix64 (x + BitVec.ofNat 64 k)).toNat % n < n := Nat.mod_lt _ hn
  have hold : (scratch.take n).getD ((mix64 (x + BitVec.ofNat 64 k)).toNat % n) 0 =
      scratch.getD ((mix64 (x + BitVec.ofNat 64 k)).toNat % n) 0 := by
    rw [List.getD_eq_getElem?_getD, List.getD_eq_getElem?_getD, List.getElem?_take_of_lt hidx]
  simp only [memoryStep, hold, List.take_set]

theorem memoryLoop_take {n : ℕ} (hn : 0 < n) (ks : List ℕ) (x : BitVec 64) (scratch : List Byte) :
    ks.foldl (memoryStep n) (x, scratch.take n) =
      ((ks.foldl (memoryStep n) (x, scratch)).1, (ks.foldl (memoryStep n) (x, scratch)).2.take n) := by
  induction ks generalizing x scratch with
  | nil => rfl
  | cons k ks ih =>
    rw [List.foldl_cons, List.foldl_cons, memoryStep_take hn]
    exact ih _ _

/-- What the memory kernel returns depends only on the bytes it reads. -/
theorem memoryKernel_congr {iterations : ℤ} {seed : BitVec 64} {scratch scratch' : List Byte}
    (h : iterations ≠ 0 → cfg.scratchBytes ≠ 0 →
      scratchView cfg scratch = scratchView cfg scratch') :
    (memoryKernel iterations cfg.scratchBytes seed scratch).1 =
      (memoryKernel iterations cfg.scratchBytes seed scratch').1 := by
  unfold memoryKernel
  split_ifs with hnone
  · rfl
  · obtain ⟨hbytes, hiter⟩ := not_or.mp hnone
    have hview := h hiter hbytes
    have hpos := Nat.pos_of_ne_zero hbytes
    have hfirst := memoryLoop_take hpos (List.range iterations.toNat) seed
      (resizeScratch cfg.scratchBytes scratch)
    have hsecond := memoryLoop_take hpos (List.range iterations.toNat) seed
      (resizeScratch cfg.scratchBytes scratch')
    rw [scratchView, scratchView] at hview
    rw [hview] at hfirst
    have heq := congrArg Prod.fst (hfirst.symm.trans hsecond)
    exact congrArg mix64 heq

/-- What a kernel returns depends on the buffer only when it works on it. -/
theorem runKernel_congr {graph row col : ℤ} {seed : BitVec 64} {scratch scratch' : List Byte}
    (h : cfg.usesScratch → scratchView cfg scratch = scratchView cfg scratch') :
    (runKernel ops cfg graph row col seed scratch).1 =
      (runKernel ops cfg graph row col seed scratch').1 := by
  unfold runKernel
  cases hkernel : cfg.kernel with
  | empty => rfl
  | compute => rfl
  | memory =>
    refine memoryKernel_congr fun hiter hbytes => h ⟨hkernel, ?_, hbytes⟩
    intro hzero
    rw [localIterations, if_pos hzero] at hiter
    exact hiter rfl

/-- The token of a point depends on its inputs and on the bytes its kernel reads. -/
theorem computePoint_congr {graph row col : ℤ} {inputs : List Token} {scratch scratch' : List Byte}
    (h : cfg.usesScratch → scratchView cfg scratch = scratchView cfg scratch') :
    (computePoint ops cfg graph row col inputs scratch).1 =
      (computePoint ops cfg graph row col inputs scratch').1 := by
  simp only [computePoint, runKernel_congr h]

theorem executePoint_ok {graph row col : ℤ} {expected : List ℤ} {inputs : List Token}
    {scratch : List Byte} {out : Token × List Byte}
    (h : executePoint ops cfg graph row col expected inputs scratch = .ok out) :
    out = computePoint ops cfg graph row col inputs scratch := by
  unfold executePoint at h
  split at h
  · cases hvalid : validateInputs cfg graph row expected inputs with
    | error message =>
      rw [hvalid] at h
      cases h
    | ok u =>
      rw [hvalid] at h
      exact (Except.ok.inj h).symm
  · exact (Except.ok.inj h).symm

end Kernels

/-! ## Executions -/

section Executions

variable {ops : Doubles F} {cfg : Config F} {width : ℤ} {s s' : State} {e : Event}

/-- What an event does. -/
theorem State.execute_cases (h : s.execute ops cfg width e = some s') :
    e.point.inGraph cfg width ∧ s.tokens e.point = none ∧
    ∃ expected inputs, deps cfg width e.point.row e.point.col = some expected ∧
      s.inputs e.point expected = some inputs ∧
      s'.tokens = Function.update s.tokens e.point
        (some (computePoint ops cfg e.point.graph e.point.row e.point.col inputs
          (s.scratch e.thread)).1) ∧
      s'.seen = Function.update s.seen e.point (scratchView cfg (s.scratch e.thread)) := by
  unfold State.execute at h
  dsimp only at h
  split at h
  · rename_i hnew
    obtain ⟨expected, hdeps, h⟩ := Option.bind_eq_some_iff.mp h
    obtain ⟨inputs, hinputs, h⟩ := Option.bind_eq_some_iff.mp h
    obtain ⟨out, hout, h⟩ := Option.bind_eq_some_iff.mp h
    obtain rfl := Option.some.inj h
    have hok : executePoint ops cfg e.point.graph e.point.row e.point.col expected inputs
        (s.scratch e.thread) = .ok out := by
      cases hcase : executePoint ops cfg e.point.graph e.point.row e.point.col expected inputs
        (s.scratch e.thread) with
      | error message =>
        rw [hcase] at hout
        cases hout
      | ok value =>
        rw [hcase] at hout
        exact congrArg Except.ok (Option.some.inj hout)
    exact ⟨hnew.1, hnew.2, expected, inputs, hdeps, hinputs, by rw [executePoint_ok hok], rfl⟩
  · cases h

/-- The token of a point is what its inputs and the bytes its kernel met make it. -/
def Computed (ops : Doubles F) (cfg : Config F) (width : ℤ) (s : State) (p : Point) (t : Token) :
    Prop :=
  p.inGraph cfg width ∧ ∃ expected inputs scratch,
    deps cfg width p.row p.col = some expected ∧ s.inputs p expected = some inputs ∧
    t = (computePoint ops cfg p.graph p.row p.col inputs scratch).1 ∧
    s.seen p = scratchView cfg scratch

/-- Tokens that are there stay there, and so do the inputs made of them. -/
theorem State.inputs_mono (hgrow : ∀ p t, s.tokens p = some t → s'.tokens p = some t) (p : Point)
    {expected : List ℤ} {inputs : List Token} (h : s.inputs p expected = some inputs) :
    s'.inputs p expected = some inputs := by
  unfold State.inputs at h ⊢
  induction expected generalizing inputs with
  | nil => exact h
  | cons dep expected ih =>
    rw [List.mapM_cons] at h ⊢
    obtain ⟨t, ht, h⟩ := Option.bind_eq_some_iff.mp h
    obtain ⟨ts, hts, h⟩ := Option.bind_eq_some_iff.mp h
    have hfirst : (if 0 ≤ dep then s'.tokens (p.dependency dep) else none) = some t := by
      split_ifs at ht ⊢
      exact hgrow _ _ ht
    rw [hfirst, ih hts]
    exact h

/-- An event keeps what was computed and computes its point. -/
theorem State.execute_computed (hinv : ∀ p t, s.tokens p = some t → Computed ops cfg width s p t)
    (h : s.execute ops cfg width e = some s') :
    ∀ p t, s'.tokens p = some t → Computed ops cfg width s' p t := by
  obtain ⟨hin, hnew, expected, inputs, hdeps, hinputs, htokens, hseen⟩ := State.execute_cases h
  have hgrow : ∀ p t, s.tokens p = some t → s'.tokens p = some t := by
    intro p t ht
    rw [htokens, Function.update_of_ne, ht]
    rintro rfl
    rw [hnew] at ht
    cases ht
  intro p t ht
  by_cases hp : p = e.point
  · subst hp
    rw [htokens, Function.update_self] at ht
    refine ⟨hin, expected, inputs, s.scratch e.thread, hdeps, ?_, (Option.some.inj ht).symm, ?_⟩
    · exact State.inputs_mono hgrow _ hinputs
    · rw [hseen, Function.update_self]
  · rw [htokens, Function.update_of_ne hp] at ht
    obtain ⟨hp', expected', inputs', scratch, hdeps', hinputs', heq, hview⟩ := hinv p t ht
    refine ⟨hp', expected', inputs', scratch, hdeps', State.inputs_mono hgrow _ hinputs', heq, ?_⟩
    rw [hseen, Function.update_of_ne hp, hview]

theorem State.run_computed {es : List Event}
    (hinv : ∀ p t, s.tokens p = some t → Computed ops cfg width s p t)
    (h : State.run ops cfg width s es = some s') :
    ∀ p t, s'.tokens p = some t → Computed ops cfg width s' p t := by
  induction es generalizing s with
  | nil =>
    obtain rfl := Option.some.inj h
    exact hinv
  | cons e es ih =>
    obtain ⟨s₁, hstep, hrest⟩ := Option.bind_eq_some_iff.mp h
    exact ih (State.execute_computed hinv hstep) hrest

theorem Executes.computed {init : ℕ → List Byte} {es : List Event}
    (h : Executes ops cfg width init es s) :
    ∀ p t, s.tokens p = some t → Computed ops cfg width s p t := by
  refine State.run_computed (fun p t ht => ?_) h.run
  cases ht

/-- Inputs agree when the tokens of the row before do. -/
theorem State.inputs_congr {p : Point} {expected : List ℤ}
    (h : ∀ dep ∈ expected, s.tokens (p.dependency dep) = s'.tokens (p.dependency dep)) :
    s.inputs p expected = s'.inputs p expected := by
  unfold State.inputs
  induction expected with
  | nil => rfl
  | cons dep expected ih =>
    rw [List.mapM_cons, List.mapM_cons, h dep List.mem_cons_self,
      ih fun d hd => h d (List.mem_cons_of_mem dep hd)]

/-- A point of the first row depends on nothing. -/
theorem deps_zero {col : ℤ} {expected : List ℤ} (h : deps cfg width 0 col = some expected) :
    expected = [] := by
  unfold deps at h
  split at h
  · rw [if_pos (.inl rfl)] at h
    exact (Option.some.inj h).symm
  · exact (Option.some.inj h).symm

/-- Executions agree on a point when they agree on its inputs and on the bytes its kernel met. -/
theorem Executes.agree {init init' : ℕ → List Byte} {es es' : List Event}
    (h : Executes ops cfg width init es s) (h' : Executes ops cfg width init' es' s') {p : Point}
    (hseen : cfg.usesScratch → p.inGraph cfg width → s.seen p = s'.seen p)
    (hinputs : ∀ expected, deps cfg width p.row p.col = some expected →
      s.inputs p expected = s'.inputs p expected) : s.tokens p = s'.tokens p := by
  by_cases hp : p.inGraph cfg width
  · obtain ⟨t, ht⟩ := Option.isSome_iff_exists.mp (h.all p hp)
    obtain ⟨t', ht'⟩ := Option.isSome_iff_exists.mp (h'.all p hp)
    obtain ⟨-, expected, inputs, scratch, hdeps, hin, rfl, hview⟩ := h.computed p t ht
    obtain ⟨-, expected', inputs', scratch', hdeps', hin', rfl, hview'⟩ := h'.computed p t' ht'
    obtain rfl : expected = expected' := Option.some.inj (hdeps.symm.trans hdeps')
    have hsame := hinputs expected hdeps
    obtain rfl : inputs = inputs' := Option.some.inj (hin.symm.trans (hsame.trans hin'))
    rw [ht, ht']
    refine congrArg some (computePoint_congr fun huses => ?_)
    rw [← hview, hseen huses hp, hview']
  · have hnone : ∀ {init : ℕ → List Byte} {es : List Event} {s : State},
        Executes ops cfg width init es s → s.tokens p = none := by
      intro init es s h
      by_contra hsome
      obtain ⟨t, ht⟩ := Option.ne_none_iff_exists'.mp hsome
      exact hp (h.computed p t ht).1
    rw [hnone h, hnone h']

end Executions

/-- Two executions of all points agree on all tokens when their kernels met the same bytes. -/
theorem tokens_agree {ops : Doubles F} {cfg : Config F} {workers : ℤ}
    {init init' : ℕ → List Byte} {es es' : List Event} {s s' : State}
    (h : Executes ops cfg (resolvedWidth workers cfg) init es s)
    (h' : Executes ops cfg (resolvedWidth workers cfg) init' es' s')
    (hseen : cfg.usesScratch →
      ∀ p : Point, p.inGraph cfg (resolvedWidth workers cfg) → s.seen p = s'.seen p)
    (p : Point) : s.tokens p = s'.tokens p := by
  obtain ⟨graph, row, col⟩ := p
  induction row generalizing col with
  | zero =>
    refine h.agree h' (fun huses => hseen huses _) fun expected hdeps => ?_
    rw [deps_zero hdeps]
    rfl
  | succ row ih =>
    refine h.agree h' (fun huses => hseen huses _) fun expected _ => ?_
    exact State.inputs_congr fun dep _ => ih dep.toNat

/-! ## The points of the graphs -/

/-- All points, in the order of the loops of `run_serial`. -/
def points (cfg : Config F) (width : ℤ) : List Point :=
  (List.range cfg.height.toNat).flatMap fun row =>
    (List.range cfg.graphs.toNat).flatMap fun graph =>
      (List.range width.toNat).map fun col => ⟨graph, row, col⟩

theorem mem_points {cfg : Config F} {width : ℤ} {p : Point} :
    p ∈ points cfg width ↔ p.inGraph cfg width := by
  obtain ⟨graph, row, col⟩ := p
  simp only [points, Point.inGraph, List.mem_flatMap, List.mem_map, List.mem_range, Point.mk.injEq]
  constructor
  · rintro ⟨r, hr, g, hg, c, hc, rfl, rfl, rfl⟩
    omega
  · intro ⟨hg, hr, hc⟩
    exact ⟨row, by omega, graph, by omega, col, by omega, rfl, rfl, rfl⟩

/-- What a computed check finds at the end of a schedule of all points. -/
theorem exists_executes (ops : Doubles F) (cfg : Config F) (width : ℤ) (init : ℕ → List Byte)
    (es : List Event) (p : State → Bool)
    (h : (State.run ops cfg width { scratch := init } es).any
      (fun s => p s && (points cfg width).all fun q => (s.tokens q).isSome) = true) :
    ∃ s, Executes ops cfg width init es s ∧ p s = true := by
  obtain ⟨s, hrun, hs⟩ := (Option.any_eq_true _ _).mp h
  obtain ⟨hp, hall⟩ := (Bool.and_eq_true _ _).mp hs
  exact ⟨s, ⟨hrun, fun q hq => List.all_eq_true.mp hall q (mem_points.mpr hq)⟩, hp⟩

/-! ## Executions on different threads -/

/-- Rational numbers in place of `double`. -/
def rationals : Doubles ℚ where
  ofUnsigned x := x.toNat
  ofLong x := x
  add x y := x + y
  mul x y := x * y
  div x y := x / y
  llround x := if 0 ≤ x then (x + 1 / 2).floor else -(-x + 1 / 2).floor
  toUnsigned x := BitVec.ofInt 64 x.floor
  negative x := decide (x < 0)
  one := 1
  denom := 2 ^ 53
  growth := 10000001 / 10000000
  shift := 3141592653589793 / 1000000000000000

/-- Two points of one row, with one iteration of the memory kernel on one byte. -/
def twoPoints : Config ℚ where
  height := 1
  width := 2
  pattern := .trivial
  kernel := .memory
  scratchBytes := 1
  imbalance := 0

/-- Two executions of two points on two threads that find a buffer with the same byte. -/
theorem tokens_agree_two : ∃ s s',
    Executes rationals twoPoints (resolvedWidth 4 twoPoints) (fun _ => [])
      [⟨0, ⟨0, 0, 0⟩⟩, ⟨1, ⟨0, 0, 1⟩⟩] s ∧
    Executes rationals twoPoints (resolvedWidth 4 twoPoints) (fun _ => [0])
      [⟨1, ⟨0, 0, 1⟩⟩, ⟨0, ⟨0, 0, 0⟩⟩] s' ∧ ∀ p, s.tokens p = s'.tokens p := by
  obtain ⟨s, hs, hseen⟩ := exists_executes rationals twoPoints (resolvedWidth 4 twoPoints)
    (fun _ => []) [⟨0, ⟨0, 0, 0⟩⟩, ⟨1, ⟨0, 0, 1⟩⟩]
    (fun s => decide (s.seen ⟨0, 0, 0⟩ = [0] ∧ s.seen ⟨0, 0, 1⟩ = [0])) (by decide)
  obtain ⟨s', hs', hseen'⟩ := exists_executes rationals twoPoints (resolvedWidth 4 twoPoints)
    (fun _ => [0]) [⟨1, ⟨0, 0, 1⟩⟩, ⟨0, ⟨0, 0, 0⟩⟩]
    (fun s => decide (s.seen ⟨0, 0, 0⟩ = [0] ∧ s.seen ⟨0, 0, 1⟩ = [0])) (by decide)
  have hsame : ∀ p : Point, p.inGraph twoPoints (resolvedWidth 4 twoPoints) →
      s.seen p = s'.seen p := by
    intro p hp
    have hpoints : points twoPoints (resolvedWidth 4 twoPoints) = [⟨0, 0, 0⟩, ⟨0, 0, 1⟩] := by
      decide
    have hmem := mem_points.mpr hp
    rw [hpoints] at hmem
    obtain rfl | rfl : p = ⟨0, 0, 0⟩ ∨ p = ⟨0, 0, 1⟩ := by simpa using hmem
    · rw [(of_decide_eq_true hseen).1, (of_decide_eq_true hseen').1]
    · rw [(of_decide_eq_true hseen).2, (of_decide_eq_true hseen').2]
  exact ⟨s, s', hs, hs', tokens_agree hs hs' fun _ => hsame⟩

/-- The token of the second point is another one when the thread ran the first point before. -/
theorem memory_kernel_remembers :
    validateConfig rationals.negative 4 twoPoints = .ok () ∧ ∃ s s',
    Executes rationals twoPoints (resolvedWidth 4 twoPoints) (fun _ => [])
      [⟨0, ⟨0, 0, 0⟩⟩, ⟨0, ⟨0, 0, 1⟩⟩] s ∧
    Executes rationals twoPoints (resolvedWidth 4 twoPoints) (fun _ => [])
      [⟨0, ⟨0, 0, 0⟩⟩, ⟨1, ⟨0, 0, 1⟩⟩] s' ∧
    ∃ t t', s.tokens ⟨0, 0, 1⟩ = some t ∧ s'.tokens ⟨0, 0, 1⟩ = some t' ∧
      t.checksum ≠ t'.checksum ∧ t.payload ≠ t'.payload := by
  obtain ⟨s, hs, ht⟩ := exists_executes rationals twoPoints (resolvedWidth 4 twoPoints)
    (fun _ => []) [⟨0, ⟨0, 0, 0⟩⟩, ⟨0, ⟨0, 0, 1⟩⟩]
    (fun s => decide (s.tokens ⟨0, 0, 1⟩ =
      some ⟨0, 0, 1, 0x9894da1c227fd612#64, some (makePayload 16 0x9894da1c227fd612#64)⟩))
    (by decide +kernel)
  obtain ⟨s', hs', ht'⟩ := exists_executes rationals twoPoints (resolvedWidth 4 twoPoints)
    (fun _ => []) [⟨0, ⟨0, 0, 0⟩⟩, ⟨1, ⟨0, 0, 1⟩⟩]
    (fun s => decide (s.tokens ⟨0, 0, 1⟩ =
      some ⟨0, 0, 1, 0xf680eee68fb256a6#64, some (makePayload 16 0xf680eee68fb256a6#64)⟩))
    (by decide +kernel)
  refine ⟨rfl, s, s', hs, hs', _, _, of_decide_eq_true ht, of_decide_eq_true ht', ?_, ?_⟩
  · decide
  · decide

end Oox.TaskBench
