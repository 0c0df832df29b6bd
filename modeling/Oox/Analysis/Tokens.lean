import Mathlib.Algebra.BigOperators.Intervals
import Oox.Library.Ledger
import Oox.Analysis.Returns

/-!
# The ledger of the runtime

Every right a step may use is a token: a reference on a node, a prerequisite, one unit of a
countdown, the right to run a task or to set the next writer of a slot, an arc, a var. The
memory holds tokens (a slot that was not notified holds a reference on its node) and owes
tokens (a live node owes `lifeCount` references); instructions on the control stacks hold
the rest. The law of the ledger is that the two sides agree for every token.
-/

set_option autoImplicit false

namespace Oox

open Library

inductive Token where
  /-- a reference on `life_count`. -/
  | life (n : ℕ)
  /-- a prerequisite in `start_count`. -/
  | pre (n : ℕ)
  /-- one unit of a countdown. -/
  | back (n : ℕ) (p : ℕ)
  /-- a slot whose countdown is not stored yet. -/
  | arm (n : ℕ) (p : ℕ)
  /-- the producer's own count of a slot, and the unit it keeps in reserve. -/
  | hand (n : ℕ) (p : ℕ)
  /-- the right to call `notify_next_writer`. -/
  | fire (n : ℕ) (p : ℕ)
  /-- the right to set the next writer. -/
  | cap (n : ℕ) (p : ℕ)
  /-- a task that is being set up. -/
  | setup (n : ℕ)
  /-- the right to run and complete a task. -/
  | exec (n : ℕ)
  /-- the right to complete a task that offers its forwarding arc. -/
  | forward (n : ℕ)
  /-- the right to destroy a node. -/
  | del (n : ℕ)
  /-- a successor arc on its way to the list of `n`. -/
  | arc (a : ℕ) (n : ℕ)
  /-- an exception payload for the list of `n`, or its terminal arc. -/
  | payload (a : ℕ) (n : ℕ)
  /-- the redirect descriptor of `n`. -/
  | descriptor (a : ℕ) (n : ℕ)
  /-- the arc a forwarding task offers to `n`. -/
  | offer (a : ℕ) (n : ℕ)
  /-- an arc in the list of `n`, or taken from it and not processed yet. -/
  | listed (a : ℕ) (n : ℕ)
  /-- an arc that is about to be deleted. -/
  | spent (a : ℕ)
  | var (v : ℕ)
  /-- a reference on an exception payload. -/
  | control (c : ℕ)
  deriving DecidableEq, Repr

/-- One token `t`, counted at `k`. -/
def one (t k : Token) : ℤ := if k = t then 1 else 0

/-- The tokens `arm n p` for all `p ≥ i`. -/
def arms (n : ℕ) (i : ℕ) : Token → ℤ
  | .arm n' p => if n' = n ∧ i ≤ p then 1 else 0
  | _ => 0

/-- One var token for each element of `vs`. -/
def varTokens (vs : List ℕ) (k : Token) : ℤ := (vs.map fun v => one (.var v) k).sum

/-- One listed arc for each element of `l`. -/
def listedTokens (n : ℕ) (l : List ℕ) (k : Token) : ℤ :=
  (l.map fun a => one (.listed a n) k).sum

/-! ## What the memory holds and owes -/

/-- What a next writer stands for until it is notified. -/
def NextWriter.tokens : NextWriter → Token → ℤ
  | .node d, k => one (.pre d) k
  | .owner o, k => one (.life o) k
  | _, _ => 0

/-- The balance of one output slot. -/
def slotBalance (n : ℕ) (p : ℕ) (o : OutputNode) (k : Token) : ℤ :=
  (if o.notified = 0 then
    one (.life n) k + o.nextWriter.tokens k + (if o.nextWriter = .ready then one (.back n p) k else 0)
  else 0) -
  (if o.armed then (o.countdown - if o.handed then 0 else 1) * one (.back n p) k else 0) -
  (if o.armed ∧ o.handed = false then one (.hand n p) k else 0) -
  (if o.armed ∧ o.countdown = 0 ∧ o.notified = 0 then one (.fire n p) k else 0) -
  (if o.nextWriter = .null ∨ o.nextWriter = .ready then one (.cap n p) k else 0)

/-- The slots a task has not armed yet. -/
def armSupply (n : ℕ) (phase : Phase) (out : ℕ → OutputNode) : Token → ℤ
  | .arm n' p => if n' = n ∧ phase ≠ .finished ∧ (out p).armed = false then 1 else 0
  | _ => 0

/-- The outstanding prerequisites a node owes. -/
def Phase.prerequisites (count : ℕ) : Phase → ℤ
  | .setup => count - 1
  | .waiting => count
  | .suspended => count
  | _ => 0

/-- What a task that waits to be run keeps. -/
def Phase.pending (n : ℕ) (phase : Phase) (k : Token) : ℤ :=
  match phase with
  | .setup => one (.life n) k + one (.exec n) k + arms n 0 k
  | .waiting => one (.life n) k + one (.exec n) k + arms n 0 k
  | .suspended => one (.life n) k + one (.exec n) k + arms n 0 k
  | _ => 0

/-- The rights to a task that are out in its phase. -/
def Phase.rights (n : ℕ) (phase : Phase) (k : Token) : ℤ :=
  match phase with
  | .setup => one (.exec n) k + one (.setup n) k
  | .waiting => one (.exec n) k
  | .running => one (.exec n) k
  | .suspended => one (.exec n) k
  | .forwarding => one (.forward n) k
  | .finished => 0

/-- The references a node owes in its status. -/
def lifeSupply (status : Status) (phase : Phase) (slots : ℕ) (lifeCount : ℤ) : ℤ :=
  if status = .live then if phase = .setup then 1 + slots else lifeCount else 0

/-- The arcs in a list head. -/
def Head.tokens (n : ℕ) : Head → Token → ℤ
  | .list l, k => listedTokens n l k
  | .done, _ => 0
  | .terminal a, k => one (.payload a n) k
  | .redirect a, k => one (.descriptor a n) k

/-- The balance of one node. -/
def nodeBalance {V : Type} (n : ℕ) (x : Node V) (k : Token) : ℤ :=
  x.phase.pending n k - x.phase.rights n k - armSupply n x.phase x.out k -
  x.phase.prerequisites x.startCount.count * one (.pre n) k -
  lifeSupply x.status x.phase x.slots x.lifeCount * one (.life n) k -
  (if x.status = .destroying then one (.del n) k else 0) +
  (if x.status = .dead then 0 else x.head.tokens n k) +
  (if x.kind = .task then one (.var x.inner) k else 0) + varTokens x.locals k +
  ∑ p ∈ Finset.range x.slots, slotBalance n p (x.out p) k

/-- The token of an arc, by where it is. -/
def Arc.token (a : ℕ) (x : Arc) : Token :=
  if x.accepted ≠ x.handled then .listed a x.site
  else match x.role with
    | .waiting => .arc a x.site
    | .charged => .arc a x.site
    | .payload => .payload a x.site
    | .descriptor => .descriptor a x.site
    | .offered => .offer a x.site
    | .spent => .spent a

/-- What an arc stands for. -/
def Arc.carries (x : Arc) (k : Token) : ℤ :=
  match x.role with
  | .waiting => one (.pre x.node) k
  | .charged => one (.back x.node x.port) k
  | _ => 0

/-- The balance of one arc. -/
def arcBalance (a : ℕ) (x : Arc) (k : Token) : ℤ :=
  if x.alive then
    x.carries k + (if x.kind = .exceptionSignal then one (.control x.control) k else 0) -
      one (x.token a) k
  else 0

/-- What a var owns: its slot, and a reference on the node with its storage. -/
def Var.owns (u : Var) (k : Token) : ℤ :=
  match u.currentTask with
  | none => 0
  | some n => one (.cap n u.currentPort) k + match u.owner with
    | some o => one (.life o) k
    | none => 0

/-- The balance of one var. -/
def varBalance (v : ℕ) (u : Var) (k : Token) : ℤ :=
  (if u.borrowed then 0 else u.owns k) - one (.var v) k

/-- The balance of one exception payload. -/
def controlBalance (c : ℕ) (x : Control) (k : Token) : ℤ :=
  -(if x.alive then x.refCount * one (.control c) k else 0)

/-- The balance of the memory. -/
def balance {V : Type} (m : Mem V) (k : Token) : ℤ :=
  m.nodes.sum (fun n x => nodeBalance n x k) + m.arcs.sum (fun a x => arcBalance a x k) +
  m.vars.sum (fun v u => varBalance v u k) + m.controls.sum (fun c x => controlBalance c x k) +
  varTokens m.left k

/-! ## What an instruction holds -/

/-- The right to run task `t` when its slots from `i` on are not armed. -/
def running (t : ℕ) (i : ℕ) (k : Token) : ℤ := one (.exec t) k + arms t i k

/-- The counters of a completing task from slot `i` on; one unit of each stays in reserve. -/
def counters (t : ℕ) (i : ℕ) (count : List ℤ) (k : Token) : ℤ :=
  ∑ p ∈ Finset.Ico i count.length,
    (one (.hand t p) k + (count.getD p 0 - 1) * one (.back t p) k)

def After.tokens {V : Type} : After V → Token → ℤ
  | .exit, _ => 0
  | .body t _ _, k => running t 0 k

/-- A call of `run` that has counted `c` prerequisites. -/
def Frame.tokens {V : Type} (f : Frame V) (c : ℕ) (k : Token) : ℤ :=
  one (.setup f.task) k + (startCountMask - c - 1) * one (.pre f.task) k +
  one (.cap f.task 0) k +
  ∑ q ∈ Finset.Ico f.port (f.port + (f.args.filter Arg.isWriter).length), one (.cap f.task q) k +
  varTokens f.env k + f.after.tokens k

/-- An arc handed to `add_arc`, with the right of the caller to continue. -/
def AddSite.tokens {V : Type} (n : ℕ) (a : ℕ) : AddSite V → Token → ℤ
  | .assign f _, k => one (.arc a n) k + f.tokens (f.count + 1) k
  | .assignTo f _, k => one (.arc a n) k + f.tokens (f.count + 1) k
  | .ownBack f, k => one (.arc a n) k + f.tokens f.count k
  | .back, k => one (.arc a n) k
  | .moved, k => one (.arc a n) k
  | .thrown, k => one (.payload a n) k
  | .signal, k => one (.payload a n) k
  | .forward t, k => one (.offer a n) k + one (.life t) k + one (.forward t) k + arms t 0 k

def Instr.tokens {V : Type} : Instr V → Token → ℤ
  | .release n c, k => c * one (.life n) k
  | .releaseSub n c, k => c * one (.life n) k
  | .destroy n, k => one (.del n) k
  | .freeNode n, k => one (.del n) k
  | .deleteArc a, k => one (.spent a) k
  | .releaseControl c, k => one (.control c) k
  | .addArc n a site, k => site.tokens n a k
  | .addArcCas n a _ site, k => site.tokens n a k
  | .removeBackArc n p, k => one (.back n p) k
  | .notifyNextWriter n p, k => one (.fire n p) k
  | .setNextWriter n p d, k => one (.cap n p) k + d.tokens k
  | .storeCountdown t _ count, k => running t count.length k + counters t 0 count k
  | .loadException t count, k => running t count.length k + counters t 0 count k
  | .findTerminal t count, k => running t count.length k + counters t 0 count k
  | .retainTerminal t _ count, k => running t count.length k + counters t 0 count k
  | .closeList t _ terminal count, k => running t count.length k + counters t 0 count k +
    match terminal with
    | some a => one (.payload a t) k
    | none => 0
  | .loadFailureFlag t r count, k => listedTokens t r k + counters t 0 count k
  | .notifyArcs t _ _ r count, k => listedTokens t r k + counters t 0 count k
  | .outLoad t i count refs, k => counters t i count k + refs * one (.life t) k
  | .outCas t i count refs, k => counters t i count k + refs * one (.life t) k
  | .outSub t i count refs, k => counters t i count k + refs * one (.life t) k
  | .outNotify t i count refs, k =>
    one (.fire t i) k + counters t (i + 1) count k + refs * one (.life t) k
  | .wakeup t refs, k => refs * one (.life t) k
  | .removePrerequisite n c, k => c * one (.pre n) k
  | .spawn n, k => one (.life n) k + running n 0 k
  | .publish _ _ _, _ => 0
  | .publishControl _ _, _ => 0
  | .retainSignal _ _, _ => 0
  | .mark _ _, _ => 0
  | .markLoad _ _, _ => 0
  | .markCheck _ _ _, _ => 0
  | .markCas _ _ _, _ => 0
  | .execute t, k => running t 0 k
  | .invoke t, k => running t 0 k
  | .finish t env _ _, k => running t 0 k + varTokens env k
  | .storeStart t, k => running t 0 k
  | .addLife t, k => one (.forward t) k + arms t 0 k
  | .forwardFailure t, k => running t 0 k
  | .setup f, k => f.tokens f.count k
  | .assignHead f n _ a, k => one (.arc a n) k + f.tokens (f.count + 1) k
  | .assignFailure f n _ a, k => one (.arc a n) k + f.tokens (f.count + 1) k
  | .assignIncrement f n _ a, k => one (.arc a n) k + f.tokens (f.count + 1) k
  | .redirect n q t _ a, k => one (.descriptor a n) k + one (.cap n q) k + one (.pre t) k
  | .moveArcs n q t _ r, k => listedTokens n r k + one (.cap n q) k + one (.pre t) k
  | .bind f, k => f.tokens f.count k
  | .moveResult f r, k => r.owns k + varTokens f.env k + f.after.tokens k
  | .runOps env _ after, k => varTokens env k + after.tokens k
  | .waitHead _, _ => 0
  | .waitBlock _, _ => 0
  | .waitDone _, _ => 0
  | .waitStatus _, _ => 0
  | .waitRead _, _ => 0

/-- The law of the ledger: what the memory and the control stacks hold is what the memory
owes. -/
def Law {V : Type} (c : State V) : Prop := Balanced balance Instr.tokens c

end Oox
