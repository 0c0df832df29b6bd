import Oox.TaskBench.Patterns

/-!
# The kernels and the points of Task-Bench

`taskbench_kernels.h` and `Graph` of `taskbench_graph.h`. What the code computes in `double` is
a fixed function of its arguments. `memory_kernel` works on a buffer that is local to the thread
and keeps its bytes from one point to the next, so here it takes the buffer and returns it.
-/

set_option autoImplicit false

namespace Oox.TaskBench

/-- The operations and constants of type `double` that the kernels use. -/
structure Doubles (F : Type) where
  ofUnsigned : BitVec 64 → F
  ofLong : ℤ → F
  add : F → F → F
  mul : F → F → F
  div : F → F → F
  llround : F → ℤ
  toUnsigned : F → BitVec 64
  negative : F → Bool
  one : F
  /-- `1ULL << 53`. -/
  denom : F
  /-- `1.0000001`. -/
  growth : F
  /-- `3.141592653589793`. -/
  shift : F

abbrev Byte := BitVec 8

variable {F : Type}

/-! ## taskbench_kernels.h -/

def normalizedHash (ops : Doubles F) (seed : BitVec 64) (graph row col : ℤ) : F :=
  ops.div (ops.ofUnsigned (hashPoint seed graph row col >>> 11)) ops.denom

def localIterations (ops : Doubles F) (cfg : Config F) (graph row col : ℤ) : ℤ :=
  if cfg.iterations = 0 then 0
  else
    let factor := ops.add ops.one
      (ops.mul cfg.imbalance (normalizedHash ops cfg.seed graph row col))
    max 1 (ops.llround (ops.mul (ops.ofLong cfg.iterations) factor))

def computeKernel (ops : Doubles F) (iterations : ℤ) (x : BitVec 64) : BitVec 64 :=
  let a := (List.range iterations.toNat).foldl (fun a _ => ops.add (ops.mul a ops.growth) ops.shift)
    (ops.ofUnsigned ((x &&& 1023#64) + 1#64))
  ops.toUnsigned a ^^^ mix64 (x + BitVec.ofInt 64 iterations)

/-- `scratch.resize(scratch_bytes)` when the buffer is shorter. -/
def resizeScratch (scratchBytes : ℕ) (scratch : List Byte) : List Byte :=
  scratch ++ List.replicate (scratchBytes - scratch.length) 0

/-- One iteration of `memory_kernel`. -/
def memoryStep (scratchBytes : ℕ) (s : BitVec 64 × List Byte) (k : ℕ) : BitVec 64 × List Byte :=
  let x := mix64 (s.1 + BitVec.ofNat 64 k)
  let idx := x.toNat % scratchBytes
  let old := s.2.getD idx 0
  let next := old ^^^ (x &&& 0xff#64).setWidth 8
  (x ^^^ (old.setWidth 64 + BitVec.ofNat 64 idx), s.2.set idx next)

/-- `memory_kernel` on a thread whose buffer is `scratch`. -/
def memoryKernel (iterations : ℤ) (scratchBytes : ℕ) (seed : BitVec 64) (scratch : List Byte) :
    BitVec 64 × List Byte :=
  if scratchBytes = 0 ∨ iterations = 0 then (mix64 seed, scratch)
  else
    let s := (List.range iterations.toNat).foldl (memoryStep scratchBytes)
      (seed, resizeScratch scratchBytes scratch)
    (mix64 s.1, s.2)

def runKernel (ops : Doubles F) (cfg : Config F) (graph row col : ℤ) (seed : BitVec 64)
    (scratch : List Byte) : BitVec 64 × List Byte :=
  let iters := localIterations ops cfg graph row col
  match cfg.kernel with
  | .empty => (mix64 seed, scratch)
  | .compute => (computeKernel ops iters seed, scratch)
  | .memory => memoryKernel iters cfg.scratchBytes seed scratch

/-! ## taskbench_graph.h -/

structure Token where
  graph : ℤ := 0
  row : ℤ := 0
  col : ℤ := 0
  checksum : BitVec 64 := 0
  payload : Option (List Byte) := none
  deriving DecidableEq, Repr

def checksumToken (graph row col : ℤ) (inputs : List (BitVec 64)) (seed : BitVec 64) : BitVec 64 :=
  inputs.foldl (fun x input => mix64 (x ^^^ input))
    (hashPoint seed graph row col ^^^ mix64 (BitVec.ofNat 64 inputs.length))

def payloadByte (checksum : BitVec 64) (index : ℕ) : Byte :=
  let x := mix64 (checksum + (BitVec.ofNat 64 index &&& ~~~7#64))
  ((x >>> (index % 8 * 8)) &&& 0xff#64).setWidth 8

def makePayload (bytes : ℕ) (checksum : BitVec 64) : List Byte :=
  (List.range bytes).map (payloadByte checksum)

def payloadMatchesChecksum (token : Token) (expectedBytes : ℕ) : Bool :=
  match token.payload with
  | none => false
  | some payload => payload.length = expectedBytes ∧
      ∀ i < expectedBytes, payload.getD i 0 = payloadByte token.checksum i

def containsPoint (cfg : Config F) (width : ℤ) (row col : ℤ) : Bool :=
  0 ≤ row ∧ row < cfg.height ∧ 0 ≤ col ∧ col < width

/-- `Graph::deps`; `none` when `dependency_columns` does not return. -/
def deps (cfg : Config F) (width : ℤ) (row col : ℤ) : Option (List ℤ) :=
  if containsPoint cfg width row col then
    if row = 0 ∨ cfg.pattern = .trivial then some []
    else dependencyColumns cfg width.toNat row.toNat col.toNat
  else some []

/-- `Graph::validate_inputs`. -/
def validateInputs (cfg : Config F) (graph row : ℤ) (expected : List ℤ) (inputs : List Token) :
    Except String Unit := do
  if inputs.length ≠ expected.length then throw "wrong dependency count"
  for x in inputs.zip expected do
    if x.1.graph ≠ graph ∨ x.1.row ≠ row - 1 ∨ x.1.col ≠ x.2 then throw "wrong dependency token"
    if !payloadMatchesChecksum x.1 cfg.outputBytes then throw "wrong payload"

/-- The token `execute_point` makes, on a thread whose buffer is `scratch`. The array of
checksums has room for `OOX_TASKBENCH_MAX_DEPS` of them, as many as `deps` returns at most. -/
def computePoint (ops : Doubles F) (cfg : Config F) (graph row col : ℤ) (inputs : List Token)
    (scratch : List Byte) : Token × List Byte :=
  let checksum := checksumToken graph row col (inputs.map Token.checksum) cfg.seed
  let kernel := runKernel ops cfg graph row col checksum scratch
  let checksum := checksum ^^^ kernel.1
  (⟨graph, row, col, checksum, some (makePayload cfg.outputBytes checksum)⟩, kernel.2)

/-- `Graph::execute_point`; `expected` is `deps(row, col)`. -/
def executePoint (ops : Doubles F) (cfg : Config F) (graph row col : ℤ) (expected : List ℤ)
    (inputs : List Token) (scratch : List Byte) : Except String (Token × List Byte) :=
  if cfg.validate then do
    validateInputs cfg graph row expected inputs
    return computePoint ops cfg graph row col inputs scratch
  else return computePoint ops cfg graph row col inputs scratch

end Oox.TaskBench
