import Oox.Library.ControlStacks
import Oox.Model.Operations
import Oox.Model.Wait

/-!
# One atomic step of each function

Each definition is one atomic operation of a function of `oox/oox.h`, with the local
computation around it. `exec` dispatches on the instruction, after checking that every node,
arc and payload the operation touches is in its lifetime and every var it follows holds a
pointer.
-/

set_option autoImplicit false

namespace Oox

open Library

variable {V : Type} [Inhabited V]

abbrev Step (V : Type) := Outcome (Mem V) (Instr V) Fault

/-- Continue on the same thread. -/
abbrev goto (m : Mem V) (push : List (Instr V)) : Step V := .next m push []

namespace Exec

/-! ## task::release and the destructor (oox.h:192-203, 456-459) -/

/-- `life_release`, the load that may skip the subtraction. -/
def release (m : Mem V) (n : ℕ) (k : ℕ) : Step V :=
  if (m.node n).lifeCount = k then
    goto (m.setNode n { m.node n with status := .destroying }) [.destroy n]
  else
    goto m [.releaseSub n k]

/-- `life_release`, the subtraction. -/
def releaseSub (m : Mem V) (n : ℕ) (k : ℕ) : Step V :=
  let life := (m.node n).lifeCount - k
  if life < 0 then
    .fault .assertion
  else if life = 0 then
    goto (m.setNode n { m.node n with lifeCount := life, status := .destroying }) [.destroy n]
  else
    goto (m.setNode n { m.node n with lifeCount := life }) []

/-- `~functional_task`: `result_base::reset` destroys the value, for a forwarding task the
var it returned. -/
def destroy (m : Mem V) (n : ℕ) : Step V :=
  let x := m.node n
  let x' := { x with result := none, dropped := x.dropped + if x.result.isSome then 1 else 0 }
  let u := m.var x.inner
  if x.innerSet then
    goto ((m.setNode n { x' with innerSet := false }).setVar x.inner { u with currentTask := none })
      (releaseVar u ++ [Instr.freeNode n])
  else
    goto (m.setNode n x') [.freeNode n]

/-- `~arc_list` (oox.h:749-761), then the memory is freed. -/
def freeNode (m : Mem V) (n : ℕ) : Step V :=
  let m' := m.setNode n { m.node n with status := .dead }
  match (m.node n).head with
  | .list [] => goto m' []
  | .list (_ :: _) => .fault .assertion
  | .done => goto m' []
  | .terminal a => goto (m'.spend a) [.deleteArc a]
  | .redirect a => goto (m'.spend a) [.deleteArc a]

/-- `~arc` (oox.h:662-668). -/
def deleteArc (m : Mem V) (a : ℕ) : Step V :=
  let x := m.arc a
  goto (m.setArc a { x with alive := false, role := .spent })
    (if x.kind = .exceptionSignal then [.releaseControl x.control] else [])

/-- `release_exception_control` (oox.h:165-172). -/
def releaseControl (m : Mem V) (c : ℕ) : Step V :=
  let x := m.control c
  if x.alive then
    goto (m.setControl c { x with refCount := x.refCount - 1, alive := x.refCount ≠ 1 }) []
  else
    .fault .useAfterFree

/-! ## arc_list::add_arc (oox.h:838-856) -/

/-- What the caller of `add_arc` does after `true`. -/
def added (n : ℕ) : AddSite V → List (Instr V)
  | .assign f _ => [.setup { f with count := f.count + 1 }]
  | .assignTo f _ => [.setup { f with count := f.count + 1 }]
  | .ownBack f => [.setup f]
  | .back => []
  | .moved => []
  | .thrown => [.mark n .exception]
  | .signal => [.mark n .exception]
  | .forward _ => []

/-- What the caller of `add_arc` does after `false`. -/
def rejected (m : Mem V) (n : ℕ) (a : ℕ) : AddSite V → Step V
  | .assign f p => goto m [.assignHead f n p a]
  | .assignTo f p => goto m [.assignFailure f n p a]
  | .ownBack _ => .fault .assertion
  | .back => .fault .assertion
  | .moved => .fault .assertion
  | .thrown => goto (m.spend a) [.deleteArc a, .mark n .dependencyCancelled]
  | .signal => goto (m.spend a) [.deleteArc a, .mark n .exception]
  | .forward t =>
    goto ((m.setNode t { m.node t with phase := .running }).spend a)
      ([.release t 1, .deleteArc a] ++
        if (m.node t).canThrow then [.forwardFailure t] else [.storeCountdown t false []])

/-- The load of `head`. -/
def addArc (m : Mem V) (n : ℕ) (a : ℕ) (site : AddSite V) : Step V :=
  match (m.node n).head with
  | .list l => goto m [.addArcCas n a l site]
  | _ => rejected m n a site

/-- The compare-exchange of `head`; it may fail spuriously. -/
def addArcCas (m : Mem V) (spurious : Bool) (n : ℕ) (a : ℕ) (seen : List ℕ)
    (site : AddSite V) : Step V :=
  if (m.node n).head = .list seen ∧ spurious = false then
    let m' := m.setNode n { m.node n with head := .list (a :: seen) }
    let x := { m.arc a with accepted := (m.arc a).accepted + 1 }
    match site with
    | .forward t =>
      let m'' := m'.setArc a { x with role := .waiting }
      goto (m''.setNode t { m''.node t with phase := .suspended }) []
    | _ => goto (m'.setArc a x) (added n site)
  else
    goto m [.addArc n a site]

/-! ## Output slots (oox.h:1188-1228) -/

/-- The calls of `notify_next_writer(d)` on node `n`, and how many references the caller
releases; `none` when `d` is null or the ready marker. -/
def notifyCalls (n : ℕ) : NextWriter → Option (List (Instr V) × ℕ)
  | .null => none
  | .ready => none
  | .noOwner => some ([], 1)
  | .owner o => if o = n then some ([], 2) else some ([.release o 1], 1)
  | .node d => some ([.removePrerequisite d 1], 1)

/-- `remove_back_arc`, the subtraction. -/
def removeBackArc (m : Mem V) (n : ℕ) (p : ℕ) : Step V :=
  match ((m.node n).out p).removeBackArc 1 with
  | none => .fault .assertion
  | some o => goto (m.setOut n p o) (if o.countdown = 0 then [.notifyNextWriter n p] else [])

/-- `notify_next_writer` from `remove_back_arc`, whose caller releases what it returns. -/
def notifyNextWriter (m : Mem V) (n : ℕ) (p : ℕ) : Step V :=
  let o := (m.node n).out p
  match notifyCalls n o.nextWriter with
  | none => .fault .nullPointer
  | some (calls, k) =>
    goto (m.setOut n p { o with notified := o.notified + 1 }) (calls ++ [.release n k])

/-- `task_node::set_next_writer`. -/
def setNextWriter (m : Mem V) (n : ℕ) (p : ℕ) (d : NextWriter) : Step V :=
  match ((m.node n).out p).setNextWriter d with
  | none => .fault .assertion
  | some (o, ready) => goto (m.setOut n p o) (if ready then [.removeBackArc n p] else [])

/-! ## Completion (oox.h:1045-1165, 1230-1236) -/

/-- The loop that stores the biased countdowns. -/
def storeCountdown (m : Mem V) (t : ℕ) (canThrow : Bool) (count : List ℤ) : Step V :=
  let i := count.length
  if i < (m.node t).slots then
    goto (m.setOut t i ((m.node t).out i).arm)
      [.storeCountdown t canThrow (count ++ [countdownBias])]
  else
    goto m [if canThrow then .loadException t count else .closeList t false none count]

def loadException (m : Mem V) (t : ℕ) (count : List ℤ) : Step V :=
  goto m [if (m.node t).startCount.exception then .findTerminal t count
    else .closeList t true none count]

def findTerminal (m : Mem V) (t : ℕ) (count : List ℤ) : Step V :=
  match localControl m t with
  | some c => goto m [.retainTerminal t c count]
  | none => goto m [.closeList t true none count]

/-- A new arc that carries control `c`, for node `n`. -/
def payloadArc (n : ℕ) (c : ℕ) : Arc :=
  { kind := .exceptionSignal, control := c, alive := true, role := .payload, site := n }

/-- `retain_exception_control` and the terminal arc. -/
def retainTerminal (m : Mem V) (t : ℕ) (c : ℕ) (count : List ℤ) : Step V :=
  let x := m.control c
  if x.alive then
    goto ((m.setControl c { x with refCount := x.refCount + 1 }).newArc (payloadArc t c))
      [.closeList t true (some m.arcs.size) count]
  else
    .fault .useAfterFree

/-- The tag `notify_successors` leaves in `head`. -/
def closedHead : Option ℕ → Head
  | some a => .terminal a
  | none => .done

/-- `head.exchange(terminal)`. -/
def closeList (m : Mem V) (t : ℕ) (canThrow : Bool) (terminal : Option ℕ)
    (count : List ℤ) : Step V :=
  let x := m.node t
  let m' := m.setNode t
    { x with head := closedHead terminal, phase := .finished, closes := x.closes + 1 }
  match x.head with
  | .list [] => goto m' [.outLoad t 0 count 0]
  | .list (a :: r) =>
    goto m' [if canThrow then .loadFailureFlag t (a :: r) count
      else .notifyArcs t false false (a :: r) count]
  | _ => .fault .nullPointer

/-- The load of `start_failure_flag` at the start of `do_notify_arcs<true>`. -/
def loadFailureFlag (m : Mem V) (t : ℕ) (r : List ℕ) (count : List ℤ) : Step V :=
  goto m [.notifyArcs t true (m.node t).startCount.failureFlag r count]

/-- One round of the loop of `do_notify_arcs`; for a `flow_back` arc it is the load of
`next_writer`. -/
def notifyArcs (m : Mem V) (t : ℕ) (canThrow failed : Bool) (r : List ℕ)
    (count : List ℤ) : Step V :=
  match r with
  | [] => goto m [.outLoad t 0 count 0]
  | a :: r' =>
    let j := m.arc a
    let spent := m.setArc a { j with role := .spent, handled := j.handled + 1 }
    let publish : List (Instr V) := if failed then [.publish j.node t j.port] else []
    match j.kind with
    | .exceptionSignal =>
      if canThrow then
        goto spent
          [.deleteArc a, .notifyArcs t canThrow failed r' count]
      else
        .fault .assertion
    | .backOnly =>
      goto spent [.removeBackArc j.node j.port, .deleteArc a, .notifyArcs t canThrow failed r' count]
    | .flowBack =>
      if ((m.node t).out j.port).nextWriter = .noOwner then
        goto spent (publish ++
          [.removePrerequisite j.node 1, .deleteArc a, .notifyArcs t canThrow failed r' count])
      else
        goto (m.setArc a
            { j with node := t, kind := .backOnly, role := .charged, site := j.node,
                     handled := j.handled + 1 })
          ([.addArc j.node a .back] ++ publish ++ [.removePrerequisite j.node 1,
            .notifyArcs t canThrow failed r' (count.modify j.port (· - 1))])
    | .flowOnly =>
      goto spent (publish ++
        [.removePrerequisite j.node 1, .deleteArc a, .notifyArcs t canThrow failed r' count])
    | .flowCopy => .fault .assertion
    | .forwardCopy => .fault .assertion

/-- `do_notify_out`, the first load of `next_writer`. -/
def outLoad (m : Mem V) (t : ℕ) (i : ℕ) (count : List ℤ) (refs : ℕ) : Step V :=
  if i < (m.node t).slots then
    if ((m.node t).out i).nextWriter = .null then
      goto m [.outCas t i count refs]
    else
      goto m [.outSub t i count refs]
  else
    goto m [.wakeup t refs]

/-- `do_notify_out`, the compare-exchange from null to the ready marker. -/
def outCas (m : Mem V) (t : ℕ) (i : ℕ) (count : List ℤ) (refs : ℕ) : Step V :=
  match ((m.node t).out i).offer with
  | some o => goto (m.setOut t i o) [.outSub t i (count.modify i (· - 1)) refs]
  | none => goto m [.outSub t i count refs]

/-- `remove_back_arc(port, count)` from `do_notify_out`. -/
def outSub (m : Mem V) (t : ℕ) (i : ℕ) (count : List ℤ) (refs : ℕ) : Step V :=
  match ((m.node t).out i).removeBackArc (count.getD i 0) with
  | none => .fault .assertion
  | some o =>
    goto (m.setOut t i { o with handed := true })
      [if o.countdown = 0 then .outNotify t i count refs else .outLoad t (i + 1) count refs]

/-- `notify_next_writer` from `do_notify_out`; the references are released together. -/
def outNotify (m : Mem V) (t : ℕ) (i : ℕ) (count : List ℤ) (refs : ℕ) : Step V :=
  let o := (m.node t).out i
  match notifyCalls t o.nextWriter with
  | none => .fault .nullPointer
  | some (calls, k) =>
    goto (m.setOut t i { o with notified := o.notified + 1 })
      (calls ++ [.outLoad t (i + 1) count (refs + k)])

def wakeup (m : Mem V) (t : ℕ) (refs : ℕ) : Step V :=
  goto (m.setNode t { m.node t with woken := true }) [.release t refs]

/-! ## remove_prerequisite (oox.h:1167-1186) -/

def removePrerequisite (m : Mem V) (n : ℕ) (k : ℕ) : Step V :=
  let x := m.node n
  match x.startCount.removePrerequisite k with
  | none => .fault .assertion
  | some (word, true) =>
    goto (m.setNode n { x with startCount := word, phase := .running })
      (if word.skips then [.storeCountdown n true [], .release n 1] else [.spawn n])
  | some (word, false) => goto (m.setNode n { x with startCount := word }) []

/-- `spawn`: a new thread runs `execute` under its lifetime guard. -/
def spawn (m : Mem V) (n : ℕ) : Step V :=
  .next m [] [[.execute n, .release n 1]]

/-! ## publish_failure_from and mark_failure (oox.h:910-998) -/

def publish (m : Mem V) (n source : ℕ) (p : ℕ) : Step V :=
  match (m.node source).startCount.published p with
  | none => goto m []
  | some .exception => goto m [.publishControl n source]
  | some b => goto m [.mark n b]

def publishControl (m : Mem V) (n source : ℕ) : Step V :=
  match localControl m source with
  | some c => goto m [.retainSignal n c]
  | none => goto m [.mark n .dependencyCancelled]

def retainSignal (m : Mem V) (n : ℕ) (c : ℕ) : Step V :=
  let x := m.control c
  if x.alive then
    goto ((m.setControl c { x with refCount := x.refCount + 1 }).newArc (payloadArc n c))
      [.addArc n m.arcs.size .signal]
  else
    .fault .useAfterFree

/-- The check of `head` before the loop. -/
def mark (m : Mem V) (n : ℕ) (b : FailureBit) : Step V :=
  goto m (if (m.node n).head.isDone then [] else [.markLoad n b])

def markLoad (m : Mem V) (n : ℕ) (b : FailureBit) : Step V :=
  goto m [.markCheck n b (m.node n).startCount]

/-- The check of `head` in the loop. -/
def markCheck (m : Mem V) (n : ℕ) (b : FailureBit) (word : StartCount) : Step V :=
  goto m (if (m.node n).head.isDone then [] else [.markCas n b word])

/-- The compare-exchange; a failure reloads the word. -/
def markCas (m : Mem V) (spurious : Bool) (n : ℕ) (b : FailureBit) (word : StartCount) :
    Step V :=
  let x := m.node n
  if x.startCount = word ∧ spurious = false then
    goto (m.setNode n { x with startCount := word.mark b }) []
  else
    goto m [.markCheck n b x.startCount]

/-! ## execute (oox.h:1591-1787) -/

/-- The storage an argument's `my_ptr` leads to when it is consumed. -/
def resolve (m : Mem V) : ArgPtr → StoragePtr
  | .plain p => p
  | .forwarded v => (m.var v).storage

/-- `consume` (oox.h:1591-1609). A Read-Write argument makes a default value when there is
none. A var object may be taken for a `result_state`: then `has_value` looks at a bit of its
`current_task`, `emplace` default-initialises the bytes there and sets the bit, and the body
gets a reference to them. What it reads through it is left open by the code; here it is the
default value. -/
def consume (m : Mem V) (mode : AccessMode) (p : ArgPtr) : Except Fault (Mem V × V) :=
  match resolve m p with
  | .null => .error .nullStorage
  | .task _ => .error .illTyped
  | .result n =>
    let x := m.node n
    if x.status ≠ .live then .error .useAfterFree
    else match x.result, mode with
      | some v, _ => .ok (m, v)
      | none, .readWrite =>
        .ok (m.setNode n { x with result := some default, made := x.made + 1 }, default)
      | none, _ => .error .emptyRead
  | .varObject v =>
    if mode = .readWrite then
      .ok (m.clobber v, default)
    else
      .error .wrongObject

/-- `apply_args`: consume every argument. -/
def consumeAll (m : Mem V) : List VarArg → Except Fault (Mem V × List V)
  | [] => .ok (m, [])
  | arg :: rest =>
    match consume m arg.mode arg.ptr with
    | .error e => .error e
    | .ok (m', v) =>
      match consumeAll m' rest with
      | .error e => .error e
      | .ok (m'', vs) => .ok (m'', v :: vs)

/-- The storages of the written arguments. -/
def writtenCells (m : Mem V) (args : List VarArg) : List StoragePtr :=
  (args.filter fun a => a.mode.isWriter).map fun a => resolve m a.ptr

/-- The start of `execute`: the check for a failure, and for a forwarding task whether it
resumes. -/
def execute (m : Mem V) (t : ℕ) : Step V :=
  let x := m.node t
  if x.canThrow ∧ x.startCount.failed then
    goto m [.storeCountdown t true []]
  else if x.resultKind = .var ∧ x.innerSet then
    goto m [.storeCountdown t false []]
  else
    goto (m.setNode t { x with started := true }) [.invoke t]

/-- The functor is called. -/
def invoke (m : Mem V) (t : ℕ) : Step V :=
  let x := m.node t
  match consumeAll m x.args with
  | .error e => .fault e
  | .ok (m', vals) =>
    let m'' := m'.setNode t { m'.node t with runs := (m'.node t).runs + 1, given := vals }
    let env := List.range' m''.vars.size x.body.locals
    goto (m''.newVars x.body.locals)
      [.runOps env (x.body.ops vals) (.body t vals (writtenCells m x.args))]

/-- The functor's writes to its arguments; over a var object they land in `current_task`. -/
def writeCells (m : Mem V) : List (StoragePtr × V) → Mem V
  | [] => m
  | (.result n, v) :: rest => writeCells (m.setNode n { m.node n with result := some v }) rest
  | (.varObject u, _) :: rest => writeCells (m.clobber u) rest
  | _ :: rest => writeCells m rest

/-- The functor returned or threw. -/
def finish (m : Mem V) (t : ℕ) (env : List ℕ) (vals : List V)
    (cells : List StoragePtr) : Step V :=
  let body := (m.node t).body
  let m₁ := writeCells m (cells.zip (body.writes vals))
  let x := m₁.node t
  let y := { x with locals := x.locals ++ env }
  if body.throws vals then
    if x.canThrow then
      goto (((m₁.setNode t y).newControl ⟨1, t, true⟩).newArc (payloadArc t m.controls.size))
        [.addArc t m.arcs.size .thrown, .storeCountdown t true []]
    else
      .fault .terminate
  else
    match x.resultKind with
    | .value =>
      if x.result.isSome then .fault .assertion
      else
        goto (m₁.setNode t { y with result := some (body.result vals), made := x.made + 1 })
          [.storeCountdown t false []]
    | .void => goto (m₁.setNode t y) [.storeCountdown t false []]
    | .var =>
      match env[body.returned vals]? with
      | none => .fault .nullPointer
      | some w =>
        let u := m₁.var w
        if u.canThrow ≠ x.canThrow then
          .fault .illTyped
        else if u.currentTask.isSome ∧ ¬ u.borrowed ∧ ¬ u.shared then
          goto (((m₁.setNode t { y with innerSet := true }).setVar w
              { u with currentTask := none }).setVar x.inner u) [.storeStart t]
        else
          .fault .nullPointer

/-- `try_forward_result`: `start_count.store(1)`. -/
def storeStart (m : Mem V) (t : ℕ) : Step V :=
  goto (m.setNode t { m.node t with startCount := { count := 1 }, phase := .forwarding })
    [.addLife t]

/-- `try_forward_result`: the new arc and `life_add_count`. -/
def addLife (m : Mem V) (t : ℕ) : Step V :=
  let x := m.node t
  match (m.var x.inner).currentTask with
  | none => .fault .nullPointer
  | some n =>
    goto ((m.setNode t { x with lifeCount := x.lifeCount + 1 }).newArc
        { kind := .flowOnly, node := t, alive := true, role := .offered, site := n })
      [.addArc n m.arcs.size (.forward t)]

/-- The returned var's task was complete: has it failed? -/
def forwardFailure (m : Mem V) (t : ℕ) : Step V :=
  match (m.var (m.node t).inner).currentTask with
  | none => .fault .nullPointer
  | some n =>
    goto m (if (m.node n).startCount.failed
      then [.publish t n 0, .storeCountdown t true []] else [.storeCountdown t false []])

/-! ## run (oox.h:1002-1043, 1299-1358, 1569-1590, 1851-1877) -/

/-- `my_ptr` of an argument on var `u`. -/
def argPtr (u : Var) : ArgPtr :=
  if u.isForwarded then
    match u.storage with
    | .varObject v => .forwarded v
    | p => .plain p
  else
    .plain u.storage

/-- `k_max_port`. -/
def maxPort : ℕ := 2 ^ 14 - 1

/-- `oox_var_args::setup` for the next argument. -/
def setup (m : Mem V) (f : Frame V) : Step V :=
  match f.args with
  | [] => goto m [.bind f]
  | .plain :: rest => goto m [.setup { f with args := rest }]
  | .var x mode :: rest =>
    match f.env[x]? with
    | none => .fault .unbound
    | some v =>
      let u := m.var v
      match u.currentTask with
      | none =>
        -- an empty var gets a default value first
        if u.borrowed ∨ u.shared then .fault .race
        else
          goto ((m.newNode (storageNode default)).setVar v
            (storageVar m.nodes.size false u.canThrow)) [.setup f]
      | some n =>
        let t := f.task
        let y := m.node t
        let arg : VarArg := { mode := mode, ptr := argPtr u, version := (n, u.currentPort) }
        let m₁ := m.setNode t { y with args := y.args ++ [arg] }
        if mode.isWriter then
          if u.borrowed ∨ u.shared then .fault .race
          else if y.canThrow ∧ ¬ u.canThrow then .fault .illTyped
          else if f.port > maxPort then .fault .assertion
          else
            let m₂ := m₁.setVar v
              { u with currentTask := some t, currentPort := f.port, isDeferred := false }
            let next : Instr V :=
              .setup { f with args := rest, port := f.port + 1, count := f.count + 1 }
            if u.isDeferred then
              goto (m₂.newArc { kind := .flowOnly, node := t, port := f.port, alive := true,
                                role := .descriptor, site := n })
                [.redirect n u.currentPort t f.port m.arcs.size, next]
            else
              goto m₂ [.setNextWriter n u.currentPort (.node t), next]
        else if u.canThrow ∧ ¬ y.canThrow then
          .fault .illTyped
        else
          goto (m₁.newArc { kind := .flowBack, node := t, port := u.currentPort, alive := true,
                            role := .waiting, site := n, reads := some (t, (n, u.currentPort)) })
            [.addArc n m.arcs.size (.assign { f with args := rest } u.currentPort)]

/-- `assign_prerequisite`: the load of `head` after a rejected arc. -/
def assignHead (m : Mem V) (f : Frame V) (n : ℕ) (p : ℕ) (a : ℕ) : Step V :=
  match (m.node n).head with
  | .redirect d =>
    let x := m.arc d
    goto (m.setArc a { m.arc a with
        port := x.port, site := x.node, reads := some (f.task, (x.node, x.port)) })
      [.addArc x.node a (.assignTo f x.port)]
  | _ => goto m [.assignFailure f n p a]

/-- `assign_prerequisite`, late consumer: `has_failure`. -/
def assignFailure (m : Mem V) (f : Frame V) (n : ℕ) (p : ℕ) (a : ℕ) : Step V :=
  goto m ((if (m.node n).startCount.failed then [Instr.publish f.task n p] else []) ++
    [Instr.assignIncrement f n p a])

/-- `assign_prerequisite`, late consumer: `++countdown`. -/
def assignIncrement (m : Mem V) (f : Frame V) (n : ℕ) (p : ℕ) (a : ℕ) : Step V :=
  match ((m.node n).out p).increment with
  | some o =>
    goto ((m.setOut n p o).setArc a
        { m.arc a with node := n, kind := .backOnly, role := .charged, site := f.task })
      [.addArc f.task a (.ownBack f)]
  | none => .fault .assertion

/-- `oox_var_base::set_next_writer` on a deferred var: the exchange of `head`. -/
def redirect (m : Mem V) (n : ℕ) (q : ℕ) (t : ℕ) (p : ℕ) (a : ℕ) : Step V :=
  let x := m.node n
  let r := match x.head with
    | .list l => l
    | _ => []
  goto (m.setNode n { x with head := .redirect a }) [.moveArcs n q t p r]

/-- `oox_var_base::set_next_writer` on a deferred var: move the next waiting arc. -/
def moveArcs (m : Mem V) (n : ℕ) (q : ℕ) (t : ℕ) (p : ℕ) : List ℕ → Step V
  | [] => goto m [.setNextWriter n q (.node t)]
  | a :: r =>
    let j := m.arc a
    goto (m.setArc a { j with
        port := p, site := t, reads := j.reads.map fun u => (u.1, (t, p)),
        handled := j.handled + 1 })
      [.addArc t a .moved, .moveArcs n q t p r]

/-- `gen_oox::bind_to`, then `remove_prerequisite(protect_count)`. -/
def bind (m : Mem V) (f : Frame V) : Step V :=
  let x := m.node f.task
  goto (m.setNode f.task { x with lifeCount := bindLifetime x, phase := .waiting })
    [.removePrerequisite f.task (startCountMask - f.count), .moveResult f (resultVar x f.task)]

/-- The returned var is assigned to its destination, or destroyed. -/
def moveResult (m : Mem V) (f : Frame V) (r : Var) : Step V :=
  match f.dst with
  | none => goto m (releaseVar r ++ [.runOps f.env f.ops f.after])
  | some v =>
    let u := m.var v
    if u.borrowed ∨ u.shared then .fault .race
    else goto (m.setVar v r) (releaseVar u ++ [.runOps f.env f.ops f.after])

/-! ## The issuing thread -/

/-- Replace the var named `x` and release what it held. -/
def assignVar (m : Mem V) (v : ℕ) (r : Var) (next : List (Instr V)) : Step V :=
  let u := m.var v
  if u.borrowed ∨ u.shared then .fault .race
  else goto (m.setVar v r) (releaseVar u ++ next)

/-- The copies a forked thread gets of the vars it may read, appended to the heap. -/
def borrowVars (m : Mem V) : List ℕ → Mem V
  | [] => m
  | v :: vs =>
    let u := m.var v
    borrowVars ((m.setVar v { u with shared := !u.borrowed }).newVar
      { u with borrowed := true, shared := false }) vs

/-- The next operation of a thread. -/
def runOps (m : Mem V) (env : List ℕ) (ops : List (Op V)) (after : After V) : Step V :=
  match ops with
  | [] =>
    match after with
    | .exit => goto { m with left := m.left ++ env } []
    | .body t vals cells => goto m [.finish t env vals cells]
  | op :: ops =>
    let next : List (Instr V) := [.runOps env ops after]
    match op with
    | .empty x canThrow =>
      match env[x]? with
      | none => .fault .unbound
      | some w => assignVar m w { canThrow := canThrow } next
    | .value x canThrow v =>
      match env[x]? with
      | none => .fault .unbound
      | some w =>
        assignVar (m.newNode (storageNode v)) w (storageVar m.nodes.size false canThrow) next
    | .deferred x canThrow =>
      match env[x]? with
      | none => .fault .unbound
      | some w =>
        assignVar (m.newNode deferredNode) w (storageVar m.nodes.size true canThrow) next
    | .run dst args canThrow kind code =>
      let f : Frame V :=
        { task := m.nodes.size, port := 1, count := 0, args := args
          dst := dst.bind fun x => env[x]?, env := env, ops := ops, after := after }
      goto ((m.newNode (taskNode args canThrow kind code m.vars.size)).newVar {}) [.setup f]
    | .move dst src =>
      match env[dst]?, env[src]? with
      | some d, some s =>
        let u := m.var s
        if u.borrowed ∨ u.shared then .fault .race
        -- the assertion of `operator=`, after it released what `dst` held
        else if d = s ∨ (m.var d).currentTask.isSome ∧ u.currentTask = none then .fault .assertion
        else assignVar (m.setVar s { u with currentTask := none }) d u next
      | _, _ => .fault .unbound
    | .destroy x =>
      match env[x]? with
      | none => .fault .unbound
      | some w => assignVar m w { m.var w with currentTask := none } next
    | .cancel x =>
      match env[x]? with
      | none => .fault .unbound
      | some v =>
        match (m.var v).currentTask with
        | none => goto m next
        | some n =>
          if (m.var v).isDeferred ∨ (m.var v).canThrow = false then goto m next
          else
            goto (m.setNode n { m.node n with cancelled := true }) (.mark n .userCancelled :: next)
    | .wait x =>
      match env[x]? with
      | none => .fault .unbound
      | some v =>
        match (m.var v).currentTask with
        | none => .fault .assertion
        | some n => goto m (.waitHead n :: .waitStatus v :: next)
    | .get x =>
      match env[x]? with
      | none => .fault .unbound
      | some v =>
        match (m.var v).currentTask with
        | none => .fault .assertion
        | some n => goto m (.waitHead n :: .waitRead v :: next)
    | .toNode dst src =>
      match env[dst]?, env[src]? with
      | some d, some s =>
        let u := m.var s
        match u.currentTask with
        | none => .fault .nullPointer
        | some n =>
          if u.borrowed ∨ u.shared then .fault .race
          else assignVar (m.setVar s { u with currentTask := none }) d u
            (.release (u.owner.getD n) 1 :: next)
      | _, _ => .fault .unbound
    | .moveNode dst src =>
      match env[dst]?, env[src]? with
      | some d, some s => assignVar m d (m.var s) next
      | _, _ => .fault .unbound
    | .fork xs locals ops' =>
      let shared := xs.filterMap fun x => env[x]?
      let m' := (borrowVars m shared).newVars locals
      .next m' next [[.runOps (List.range' m.vars.size (shared.length + locals)) ops' .exit]]

/-- `oox_var_base::wait` (oox.h:1333-1345): the check of `head`. -/
def waitHead (m : Mem V) (n : ℕ) : Step V :=
  goto m (if (m.node n).head.isDone then [] else [.waitBlock n])

/-- The backend's `wait`. -/
def waitBlock (m : Mem V) (n : ℕ) : Step V :=
  if (m.node n).woken then goto m [.waitDone n] else .blocked

def waitDone (m : Mem V) (n : ℕ) : Step V :=
  if (m.node n).head.isDone then goto m [] else .fault .assertion

/-- `wait_and_get` returns the value or throws what it found; the thread goes on. -/
def waitRead (m : Mem V) (v : ℕ) : Step V :=
  match waitAndGet m (m.var v) with
  | .fault cause => .fault cause
  | _ => goto m []

/-! ## The operations on words, written out -/

section Outcomes

omit [Inhabited V]

variable (m : Mem V) (n t p i k : ℕ)

/-- The subtraction of one unit. -/
theorem removeBackArc_eq : removeBackArc m n p =
    (let o := (m.node n).out p
     let k := o.countdown - 1
     if k < 0 then .fault .assertion
     else goto (m.setOut n p { o with countdown := k })
       (if k = 0 then [.notifyNextWriter n p] else [])) := by
  unfold removeBackArc OutputNode.removeBackArc
  by_cases hneg : ((m.node n).out p).countdown - 1 < 0 <;> simp only [hneg, if_true, if_false]

/-- What each word in the slot leads to. -/
theorem setNextWriter_eq (d : NextWriter) : setNextWriter m n p d =
    (let o := (m.node n).out p
     let m' := m.setOut n p { o with nextWriter := d }
     if d = .ready then .fault .assertion
     else
       match o.nextWriter with
       | .null => goto m' []
       | .ready => goto m' [.removeBackArc n p]
       | .noOwner => if d = .noOwner then goto m' [] else .fault .assertion
       | _ => .fault .assertion) := by
  unfold setNextWriter OutputNode.setNextWriter
  by_cases hd : d = .ready
  · simp only [if_pos hd]
  · simp only [if_neg hd]
    cases ((m.node n).out p).nextWriter with
    | noOwner => by_cases hend : d = .noOwner <;> simp [hend]
    | _ => rfl

/-- The compare-exchange succeeds on null. -/
theorem outCas_eq (count : List ℤ) (refs : ℕ) : outCas m t i count refs =
    (let o := (m.node t).out i
     if o.nextWriter = .null then
       goto (m.setOut t i { o with nextWriter := .ready })
         [.outSub t i (count.modify i (· - 1)) refs]
     else goto m [.outSub t i count refs]) := by
  unfold outCas OutputNode.offer
  dsimp only
  split_ifs <;> rfl

/-- The subtraction of everything that is left of the bias. -/
theorem outSub_eq (count : List ℤ) (refs : ℕ) : outSub m t i count refs =
    (let o := (m.node t).out i
     let k := o.countdown - count.getD i 0
     if k < 0 then .fault .assertion
     else goto (m.setOut t i { o with countdown := k, handed := true })
       [if k = 0 then .outNotify t i count refs else .outLoad t (i + 1) count refs]) := by
  unfold outSub OutputNode.removeBackArc
  by_cases hneg : ((m.node t).out i).countdown - count.getD i 0 < 0 <;>
    simp only [hneg, if_true, if_false]

/-- The call that removes the last prerequisites dispatches the task. -/
theorem removePrerequisite_eq : removePrerequisite m n k =
    (let x := m.node n
     let word := { x.startCount with count := x.startCount.count - k }
     if x.startCount.count < k then .fault .assertion
     else if x.startCount.count = k then
       goto (m.setNode n { x with startCount := word, phase := .running })
         (if word.skips then [.storeCountdown n true [], .release n 1] else [.spawn n])
     else goto (m.setNode n { x with startCount := word }) []) := by
  unfold removePrerequisite StartCount.removePrerequisite
  by_cases hless : (m.node n).startCount.count < k
  · simp only [hless, if_true]
  · by_cases hlast : (m.node n).startCount.count = k
    · simp only [if_neg hless, beq_iff_eq.mpr hlast, if_pos hlast]
    · simp only [if_neg hless, beq_eq_false_iff_ne.mpr hlast, if_neg hlast]

/-- Which bit is found first. -/
theorem publish_eq (source : ℕ) : publish m n source p =
    (let word := (m.node source).startCount
     if p ≠ 0 then goto m [.mark n .dependencyCancelled]
     else if word.exception then goto m [.publishControl n source]
     else if word.userCancelled then goto m [.mark n .userCancelled]
     else if word.dependencyCancelled then goto m [.mark n .dependencyCancelled]
     else goto m []) := by
  unfold publish StartCount.published
  dsimp only
  split_ifs <;> rfl

/-- The increment is accepted by a slot that is not finished. -/
theorem assignIncrement_eq (f : Frame V) (a : ℕ) : assignIncrement m f n p a =
    (let o := (m.node n).out p
     let k := o.countdown + 1
     if k > 1 then
       goto ((m.setOut n p { o with countdown := k }).setArc a
           { m.arc a with node := n, kind := .backOnly, role := .charged, site := f.task })
         [.addArc f.task a (.ownBack f)]
     else .fault .assertion) := by
  unfold assignIncrement OutputNode.increment
  dsimp only
  split_ifs <;> rfl

end Outcomes

end Exec

/-! ## Dispatch -/

/-- The nodes that a storage lies in. -/
def storageNodes (m : Mem V) : StoragePtr → List ℕ
  | .result n => [n]
  | .varObject v => m.holders v
  | _ => []

/-- The tasks that hold the var objects `consume` goes through; it checks the value itself. -/
def argHolders (m : Mem V) : ArgPtr → List ℕ
  | .plain (.varObject v) => m.holders v
  | .plain _ => []
  | .forwarded v => m.holders v ++
    match (m.var v).storage with
    | .varObject w => m.holders w
    | _ => []

/-- The task whose failures are looked up for var `u`. -/
def statusTask (canThrow : Bool) (u : Var) : List ℕ :=
  if canThrow then u.currentTask.toList else []

/-- The var objects that the loop of `wait_and_get` goes on to from `u`. -/
def passedVars (m : Mem V) (canThrow : Bool) : ℕ → Var → List ℕ
  | 0, _ => []
  | fuel + 1, u =>
    match varStatus m canThrow u with
    | .ready =>
      if u.isForwarded then
        match u.storage with
        | .varObject v => v :: passedVars m canThrow fuel (m.var v)
        | _ => []
      else []
    | _ => []

/-- The var objects `wait_and_get` reads after `v`. -/
def readVars (m : Mem V) (v : ℕ) : List ℕ :=
  passedVars m (m.var v).canThrow (m.vars.size + 1) (m.var v)

/-- The tasks whose failures an operation of a waiting thread looks up. -/
def reported (m : Mem V) : Instr V → List ℕ
  | .waitStatus v => statusTask (m.var v).canThrow (m.var v)
  | .waitRead v => (v :: readVars m v).flatMap fun w => statusTask (m.var v).canThrow (m.var w)
  | _ => []

/-- The nodes an operation uses through a pointer. -/
def touches (m : Mem V) : Instr V → List ℕ
  | .release n _ => [n]
  | .releaseSub n _ => [n]
  | .addArc n _ _ => [n]
  | .addArcCas n _ _ _ => [n]
  | .removeBackArc n _ => [n]
  | .notifyNextWriter n _ => [n]
  | .setNextWriter n _ _ => [n]
  | .storeCountdown t _ _ => [t]
  | .loadException t _ => [t]
  | .findTerminal t _ => [t]
  | .closeList t _ _ _ => [t]
  | .loadFailureFlag t _ _ => [t]
  | .notifyArcs t _ _ _ _ => [t]
  | .outLoad t _ _ _ => [t]
  | .outCas t _ _ _ => [t]
  | .outSub t _ _ _ => [t]
  | .outNotify t _ _ _ => [t]
  | .wakeup t _ => [t]
  | .removePrerequisite n _ => [n]
  | .spawn n => [n]
  | .publish n source p => if p = 0 then [n, source] else [n]
  | .publishControl n source => [n, source]
  | .retainSignal n _ => [n]
  | .mark n _ => [n]
  | .markLoad n _ => [n]
  | .markCheck n _ _ => [n]
  | .markCas n _ _ => [n]
  | .execute t => [t]
  | .invoke t => t :: (m.node t).args.flatMap fun arg => argHolders m arg.ptr
  | .finish t _ _ cells => t :: cells.flatMap fun c => storageNodes m c
  | .storeStart t => [t]
  | .addLife t => [t]
  | .forwardFailure t => t :: (m.var (m.node t).inner).currentTask.toList
  | .setup f => [f.task]
  | .assignHead _ n _ _ => [n]
  | .assignFailure _ n _ _ => [n]
  | .assignIncrement _ n _ _ => [n]
  | .redirect n _ _ _ _ => [n]
  | .bind f => [f.task]
  | .waitHead n => [n]
  | .waitBlock n => [n]
  | .waitDone n => [n]
  | .waitStatus v => reported m (.waitStatus v)
  | .waitRead v => reported m (.waitRead v) ++ (readVars m v).flatMap fun w => m.holders w
  | _ => []

/-- The arcs an operation uses through a pointer. -/
def touchesArcs (m : Mem V) : Instr V → List ℕ
  | .deleteArc a => [a]
  | .addArc _ a _ => [a]
  | .addArcCas _ a _ _ => [a]
  | .findTerminal t _ => headArcs (m.node t).head
  | .publishControl _ source => headArcs (m.node source).head
  | .notifyArcs _ _ _ r _ => r.take 1
  | .assignHead _ n _ a =>
    match (m.node n).head with
    | .redirect d => [a, d]
    | _ => [a]
  | .assignIncrement _ _ _ a => [a]
  | .moveArcs _ _ _ _ r => r.take 1
  | .waitStatus v => (reported m (.waitStatus v)).flatMap fun n => headArcs (m.node n).head
  | .waitRead v => (reported m (.waitRead v)).flatMap fun n => headArcs (m.node n).head
  | _ => []
where
  /-- The arcs `local_exception_control_handle` may visit. -/
  headArcs : Head → List ℕ
    | .list l => l
    | .terminal a => [a]
    | _ => []

/-- The payloads a waiting thread reads; the other operations check theirs themselves. -/
def touchesControls (m : Mem V) (ins : Instr V) : List ℕ :=
  (reported m ins).flatMap fun n => (localControl m n).toList

/-- The vars an operation of the user names. -/
def Op.names : Op V → List ℕ
  | .empty x _ => [x]
  | .value x _ _ => [x]
  | .deferred x _ => [x]
  | .run _ _ _ _ _ => []
  | .move dst src => [dst, src]
  | .destroy x => [x]
  | .cancel x => [x]
  | .wait x => [x]
  | .get x => [x]
  | .toNode dst src => [dst, src]
  | .moveNode dst src => [dst, src]
  | .fork _ _ _ => []

/-- The vars whose `current_task` an operation reads. -/
def touchesVars (m : Mem V) : Instr V → List ℕ
  | .destroy n => if (m.node n).innerSet then [(m.node n).inner] else []
  | .addLife t => [(m.node t).inner]
  | .forwardFailure t => [(m.node t).inner]
  | .setup f =>
    match f.args with
    | .var x _ :: _ => (f.env[x]?).toList
    | _ => []
  | .moveResult f _ => f.dst.toList
  | .runOps env (op :: _) _ => op.names.filterMap fun x => env[x]?
  | .waitStatus v => [v]
  | .waitRead v => v :: readVars m v
  | _ => []

/-- Everything an operation uses is in its lifetime, and what it follows from a var is a
pointer; a destructor runs on a node that is being destroyed. -/
def inLifetime (m : Mem V) (ins : Instr V) : Bool :=
  ((touches m ins).all fun n => decide ((m.node n).status = .live)) &&
  ((touchesArcs m ins).all fun a => (m.arc a).alive) &&
  ((touchesControls m ins).all fun c => (m.control c).alive) &&
  ((touchesVars m ins).all fun v => !(m.var v).wild) &&
  match ins with
  | .destroy n => decide ((m.node n).status = .destroying)
  | .freeNode n => decide ((m.node n).status = .destroying)
  | _ => true

/-- One atomic operation. -/
def exec (m : Mem V) (spurious : Bool) (ins : Instr V) : Step V :=
  if inLifetime m ins then
    match ins with
    | .release n k => Exec.release m n k
    | .releaseSub n k => Exec.releaseSub m n k
    | .destroy n => Exec.destroy m n
    | .freeNode n => Exec.freeNode m n
    | .deleteArc a => Exec.deleteArc m a
    | .releaseControl c => Exec.releaseControl m c
    | .addArc n a site => Exec.addArc m n a site
    | .addArcCas n a seen site => Exec.addArcCas m spurious n a seen site
    | .removeBackArc n p => Exec.removeBackArc m n p
    | .notifyNextWriter n p => Exec.notifyNextWriter m n p
    | .setNextWriter n p d => Exec.setNextWriter m n p d
    | .storeCountdown t canThrow count => Exec.storeCountdown m t canThrow count
    | .loadException t count => Exec.loadException m t count
    | .findTerminal t count => Exec.findTerminal m t count
    | .retainTerminal t c count => Exec.retainTerminal m t c count
    | .closeList t canThrow terminal count => Exec.closeList m t canThrow terminal count
    | .loadFailureFlag t r count => Exec.loadFailureFlag m t r count
    | .notifyArcs t canThrow failed r count => Exec.notifyArcs m t canThrow failed r count
    | .outLoad t i count refs => Exec.outLoad m t i count refs
    | .outCas t i count refs => Exec.outCas m t i count refs
    | .outSub t i count refs => Exec.outSub m t i count refs
    | .outNotify t i count refs => Exec.outNotify m t i count refs
    | .wakeup t refs => Exec.wakeup m t refs
    | .removePrerequisite n k => Exec.removePrerequisite m n k
    | .spawn n => Exec.spawn m n
    | .publish n source p => Exec.publish m n source p
    | .publishControl n source => Exec.publishControl m n source
    | .retainSignal n c => Exec.retainSignal m n c
    | .mark n b => Exec.mark m n b
    | .markLoad n b => Exec.markLoad m n b
    | .markCheck n b word => Exec.markCheck m n b word
    | .markCas n b word => Exec.markCas m spurious n b word
    | .execute t => Exec.execute m t
    | .invoke t => Exec.invoke m t
    | .finish t env vals cells => Exec.finish m t env vals cells
    | .storeStart t => Exec.storeStart m t
    | .addLife t => Exec.addLife m t
    | .forwardFailure t => Exec.forwardFailure m t
    | .setup f => Exec.setup m f
    | .assignHead f n p a => Exec.assignHead m f n p a
    | .assignFailure f n p a => Exec.assignFailure m f n p a
    | .assignIncrement f n p a => Exec.assignIncrement m f n p a
    | .redirect n q t p a => Exec.redirect m n q t p a
    | .moveArcs n q t p r => Exec.moveArcs m n q t p r
    | .bind f => Exec.bind m f
    | .moveResult f r => Exec.moveResult m f r
    | .runOps env ops after => Exec.runOps m env ops after
    | .waitHead n => Exec.waitHead m n
    | .waitBlock n => Exec.waitBlock m n
    | .waitDone n => Exec.waitDone m n
    | .waitStatus _ => goto m []
    | .waitRead v => Exec.waitRead m v
  else
    .fault .useAfterFree

/-- A configuration of the runtime: the shared memory and all control stacks. -/
abbrev State (V : Type) := Config (Mem V) (Instr V)

/-- `locals` empty vars, and one thread about to issue `ops` on them. -/
def initial (locals : ℕ) (ops : List (Op V)) : State V :=
  { mem := (Mem.initial V).newVars locals
    threads := [[.runOps (List.range locals) ops .exit]] }

end Oox
