import Oox.Model.Words

/-!
# Programs

A thread of the user issues a list of operations on its local vars: it constructs,
moves and destroys vars, calls `oox::run`, cancels and waits. A task's body is again
such a list, chosen by the values the body was given, followed by an outcome. Local
vars are named by their position; every name starts as an empty `oox::var`.
-/

set_option autoImplicit false

namespace Oox

/-- How a var argument is taken (README, access types); the matching of parameter and
argument types decides it at compile time. -/
inductive AccessMode where
  | copyOnly
  | readOnly
  | readWrite
  /-- the var is passed as an rvalue. -/
  | final
  deriving DecidableEq, Repr

/-- `oox_var_args::is_writer` (oox.h:1564-1565). -/
def AccessMode.isWriter : AccessMode → Bool
  | .readWrite => true
  | .final => true
  | _ => false

/-- An argument of `oox::run`. -/
inductive Arg where
  | plain
  | var (x : ℕ) (mode : AccessMode)
  deriving DecidableEq, Repr

def Arg.isWriter : Arg → Bool
  | .plain => false
  | .var _ mode => mode.isWriter

/-- `base_args::write_nodes_count`: one output slot for the result and one per writer. -/
def writeNodesCount (args : List Arg) : ℕ :=
  1 + (args.filter Arg.isWriter).length

/-- The functor's return type: a plain value, `void` or an `oox::var`. -/
inductive ResultKind where
  | value
  | void
  | var
  deriving DecidableEq, Repr

/-- A functor, given the values of its var arguments: the operations it issues on its own
local vars, whether it throws, what it leaves in its written arguments, and its result. -/
structure Code (V O : Type) where
  locals : ℕ := 0
  ops : List V → List O := fun _ => []
  throws : List V → Bool := fun _ => false
  writes : List V → List V := fun _ => []
  result : List V → V
  /-- the local var a forwarding body returns. -/
  returned : List V → ℕ := fun _ => 0

/-- One statement of a thread that uses the library. -/
inductive Op (V : Type) where
  /-- `oox::var<T, canThrow> x;`, which allocates a default value when it is first used. -/
  | empty (x : ℕ) (canThrow : Bool)
  /-- `oox::var<T, canThrow> x(v)`, or `x = oox::var<T, canThrow>(v)`. -/
  | value (x : ℕ) (canThrow : Bool) (v : V)
  /-- `oox::var<T, canThrow> x(oox::deferred)`. -/
  | deferred (x : ℕ) (canThrow : Bool)
  /-- `dst = oox::run<canThrow>(f, args...)`; the result is dropped when there is no `dst`. -/
  | run (dst : Option ℕ) (args : List Arg) (canThrow : Bool) (kind : ResultKind)
      (code : Code V (Op V))
  /-- `dst = std::move(src)`, the move constructor when `dst` is empty. -/
  | move (dst src : ℕ)
  /-- the end of `x`'s scope. -/
  | destroy (x : ℕ)
  | cancel (x : ℕ)
  /-- `oox::wait_for_all_status(x)`. -/
  | wait (x : ℕ)
  /-- `oox::wait_and_get(x)`. -/
  | get (x : ℕ)
  /-- `oox::node dst(std::move(src))` from a var of another type (oox.h:1497-1502). -/
  | toNode (dst src : ℕ)
  /-- `oox::node dst(std::move(src))` from a node. -/
  | moveNode (dst src : ℕ)
  /-- start a thread that may read the vars `xs`. -/
  | fork (xs : List ℕ) (locals : ℕ) (ops : List (Op V))

/-- What a task runs. -/
abbrev Body (V : Type) := Code V (Op V)

end Oox
