import Mathlib.Data.Nat.Log
import Oox.Library.Columns

/-!
# Task-Bench configurations and dependency patterns

`taskbench_config.h`, `taskbench_patterns.h` and the hash of `taskbench_kernels.h`. A
`std::uint64_t` is a `BitVec 64`; a row, a column and the resolved width are natural numbers,
since every caller checks that they are in range.
-/

set_option autoImplicit false

namespace Oox.TaskBench

open Library

/-! ## taskbench_config.h -/

inductive Pattern where
  | trivial
  | stencil
  | sweep
  | nearest
  | spread
  | fft
  | tree
  | random
  deriving DecidableEq, Repr

inductive Kernel where
  | empty
  | compute
  | memory
  deriving DecidableEq, Repr

/-- `Config`; `F` is the type `double`. -/
structure Config (F : Type) where
  height : ℤ := 1000
  width : ℤ := 0
  threads : ℤ := 0
  graphs : ℤ := 1
  pattern : Pattern := .stencil
  kernel : Kernel := .compute
  radix : ℤ := 3
  iterations : ℤ := 1
  outputBytes : ℕ := 16
  scratchBytes : ℕ := 0
  imbalance : F
  seed : BitVec 64 := 1
  validate : Bool := true
  csv : Bool := true
  repetitions : ℤ := 5
  warmups : ℤ := 1

variable {F : Type}

/-- `default_worker_threads()` is `workers`. -/
def resolvedThreads (workers : ℤ) (cfg : Config F) : ℤ :=
  if cfg.threads > 0 then cfg.threads else workers

def resolvedWidth (workers : ℤ) (cfg : Config F) : ℤ :=
  if cfg.width > 0 then cfg.width else resolvedThreads workers cfg

/-- `validate_config`; `negative x` is the comparison `x < 0.0`. -/
def validateConfig (negative : F → Bool) (workers : ℤ) (cfg : Config F) : Except String Unit := do
  if cfg.height ≤ 0 then throw "height must be positive"
  if cfg.width < 0 then throw "width must be non-negative"
  if cfg.threads < 0 then throw "threads must be non-negative"
  if cfg.graphs ≤ 0 then throw "graphs must be positive"
  if cfg.radix < 0 then throw "radix must be non-negative"
  if cfg.iterations < 0 then throw "iterations must be non-negative"
  if cfg.repetitions ≤ 0 then throw "repetitions must be positive"
  if cfg.warmups < 0 then throw "warmups must be non-negative"
  if negative cfg.imbalance then throw "imbalance must be non-negative"
  let width := resolvedWidth workers cfg
  if width ≤ 0 then throw "resolved width must be positive"
  if cfg.pattern = .fft ∧ width.toNat &&& (width - 1).toNat ≠ 0 then
    throw "fft pattern requires power-of-two width"

/-! ## Hashing (taskbench_kernels.h:15-28) -/

def mix64 (x : BitVec 64) : BitVec 64 :=
  let x := x + 0x9e3779b97f4a7c15#64
  let x := (x ^^^ (x >>> 30)) * 0xbf58476d1ce4e5b9#64
  let x := (x ^^^ (x >>> 27)) * 0x94d049bb133111eb#64
  x ^^^ (x >>> 31)

def hashPoint (seed : BitVec 64) (graph row col : ℤ) : BitVec 64 :=
  let x := seed
  let x := x ^^^ mix64 (BitVec.ofInt 64 graph + 0x10000#64)
  let x := x ^^^ mix64 (BitVec.ofInt 64 row + 0x20000#64)
  let x := x ^^^ mix64 (BitVec.ofInt 64 col + 0x30000#64)
  mix64 x

/-! ## taskbench_patterns.h -/

/-- `OOX_TASKBENCH_MAX_DEPS`. -/
def maxDeps : ℕ := 8

/-- A sum of type `int`. -/
def toInt (x : ℤ) : ℤ := Int.bmod x (2 ^ 32)

def appendDepIfValid (out : List ℤ) (width : ℕ) (col : ℤ) : List ℤ :=
  if 0 ≤ col ∧ col < width then out ++ [col] else out

def nearestDeps (cfg : Config F) (width col : ℕ) : List ℤ :=
  let left := cfg.radix / 2
  (List.range cfg.radix.toNat).foldl
    (fun out k => appendDepIfValid out width (toInt (col - left + k))) []

def spreadDeps (cfg : Config F) (width col : ℕ) : List ℤ :=
  if cfg.radix = 0 then []
  else if cfg.radix = 1 ∨ width = 1 then [(col : ℤ)]
  else
    (List.range cfg.radix.toNat).foldl
      (fun out (k : ℕ) =>
        let offset := (k : ℤ) * max 1 ((width : ℤ) - 1) / max 1 (cfg.radix - 1)
        appendDepIfValid out width ((col + offset) % width)) []

/-- The loop `for (int w = width; w > 1; w >>= 1) ++levels`. -/
def countLevels : ℕ → ℕ → ℕ
  | 0, _ => 0
  | fuel + 1, w => if 1 < w then countLevels fuel (w / 2) + 1 else 0

def levels (width : ℕ) : ℕ := countLevels width width

def fftDeps (width row col : ℕ) : List ℤ :=
  let bit := (row - 1) % max 1 (levels width)
  [(col : ℤ), (col ^^^ 1 <<< bit : ℕ)]

/-- The level whose bit `tree_deps` flips in a row. -/
def treeLevel (levels row : ℕ) : ℕ :=
  let phase := (row - 1) % (2 * levels)
  if phase < levels then phase else 2 * levels - phase - 1

def treeDeps (width row col : ℕ) : List ℤ :=
  if levels width = 0 then [(col : ℤ)]
  else [(col : ℤ), (col ^^^ 1 <<< treeLevel (levels width) row : ℕ)]

/-- The first loop of `random_deps`. -/
def randomCandidates (cfg : Config F) (width row col : ℕ) (count : ℤ) : List ℤ :=
  (List.range width).foldl
    (fun out candidate =>
      if (out.length : ℤ) < count then
        let h := mix64 (cfg.seed ^^^ hashPoint (BitVec.ofNat 64 row) col candidate width)
        if ((h.toNat % width : ℕ) : ℤ) < count then out ++ [(candidate : ℤ)] else out
      else out) []

/-- The second loop of `random_deps`, with `left` values of `salt` until the counter leaves
`int`; there it has no result. -/
def randomFill (cfg : Config F) (width row col : ℕ) (count : ℤ) :
    ℕ → ℕ → List ℤ → Option (List ℤ)
  | 0, _, out => if (out.length : ℤ) < count then none else some out
  | left + 1, salt, out =>
    if (out.length : ℤ) < count then
      let h := mix64 (cfg.seed + hashPoint (BitVec.ofNat 64 row) col salt count)
      randomFill cfg width row col count left (salt + 1)
        (sortUnique (out ++ [((h.toNat % width : ℕ) : ℤ)]))
    else some out

def randomDeps (cfg : Config F) (width row col : ℕ) : Option (List ℤ) :=
  let count := min cfg.radix width
  randomFill cfg width row col count (2 ^ 31) 0 (randomCandidates cfg width row col count)

/-- The columns a pattern generates, before they are sorted. -/
def patternDeps (cfg : Config F) (width row col : ℕ) : Option (List ℤ) :=
  match cfg.pattern with
  | .trivial => some []
  | .stencil =>
    some (appendDepIfValid (appendDepIfValid (appendDepIfValid [] width (col - 1)) width col)
      width (toInt (col + 1)))
  | .sweep => some (appendDepIfValid (appendDepIfValid [] width (col - 1)) width col)
  | .nearest => some (nearestDeps cfg width col)
  | .spread => some (spreadDeps cfg width col)
  | .fft => some (fftDeps width row col)
  | .tree => some (treeDeps width row col)
  | .random => randomDeps cfg width row col

/-- `dependency_columns`; `none` when `random_deps` does not return. -/
def dependencyColumns (cfg : Config F) (width row col : ℕ) : Option (List ℤ) :=
  if row = 0 ∨ cfg.pattern = .trivial then some []
  else (patternDeps cfg width row col).map fun out => (sortUnique out).take maxDeps

end Oox.TaskBench
