import Oox.Library.Protocol

/-!
# Programs with a verified part

A program may contain a part that was verified on its own: some of its instructions work on the
part's memory as the part's own program does, the others leave that memory alone. Then the
program's configurations, seen from the part, are kept by the part's protocol.
-/

set_option autoImplicit false

namespace Library

variable {Mem Instr Fault Mem₁ Instr₁ Fault₁ K : Type}

/-- Where a part sits in a program: its memory, and the instructions that are its own. -/
structure Part (Mem Instr Mem₁ Instr₁ : Type) where
  memory : Mem → Mem₁
  instr : Instr → Option Instr₁

namespace Part

variable (p : Part Mem Instr Mem₁ Instr₁)

/-- What the part sees of a stack. -/
def stack (l : List Instr) : List Instr₁ := l.filterMap p.instr

/-- What the part sees of a configuration. -/
def config (c : Config Mem Instr) : Config Mem₁ Instr₁ := ⟨p.memory c.mem, c.threads.map p.stack⟩

@[simp] theorem stack_append (l l' : List Instr) : p.stack (l ++ l') = p.stack l ++ p.stack l' :=
  List.filterMap_append

/-- A step of the program is a step of the part, or nothing to it. -/
def Follows (exec₁ : Mem₁ → Bool → Instr₁ → Outcome Mem₁ Instr₁ Fault₁) (m : Mem) (choice : Bool)
    (ins : Instr) (m' : Mem) (push : List Instr) (spawned : List (List Instr)) : Prop :=
  (∃ x, p.instr ins = some x ∧
    exec₁ (p.memory m) choice x = .next (p.memory m') (p.stack push) (spawned.map p.stack)) ∨
  p.memory m' = p.memory m ∧ p.stack push = p.stack [ins] ∧ ∀ l ∈ spawned, p.stack l = []

end Part

/-- Threads with nothing to do change nothing. -/
theorem Protocol.Holds.append_idle {P : Protocol Mem Instr K} {c : Config Mem Instr}
    (h : P.Holds c) {ls : List (List Instr)} (hls : ∀ l ∈ ls, l = []) :
    P.Holds ⟨c.mem, c.threads ++ ls⟩ where
  memory := h.memory
  law k := by
    have hnone : threadSum P.tokens ls k = 0 := by
      induction ls with
      | nil => rfl
      | cons l ls ih =>
        rw [threadSum_cons, hls l List.mem_cons_self, stackSum_nil, zero_add]
        exact ih fun l' hl' => hls l' (List.mem_cons_of_mem l hl')
    rw [threadSum_append, hnone, add_zero]
    exact h.law k
  relies l hl := by
    rcases List.mem_append.mp hl with hl | hl
    · exact h.relies l hl
    · rw [hls l hl]
      trivial

namespace Part

variable {p : Part Mem Instr Mem₁ Instr₁}
variable {exec : Mem → Bool → Instr → Outcome Mem Instr Fault}
variable {exec₁ : Mem₁ → Bool → Instr₁ → Outcome Mem₁ Instr₁ Fault₁}
variable {P : Protocol Mem₁ Instr₁ K} {c c' : Config Mem Instr} {e : Turn}

/-- A step of the program keeps the part's protocol when the part's own steps do. -/
theorem holds_step (h : P.Holds (p.config c)) (hstep : c.step exec e = some c')
    (hfollows : ∀ ins m' push spawned, exec c.mem e.choice ins = .next m' push spawned →
      p.Follows exec₁ c.mem e.choice ins m' push spawned)
    (hkeeps : ∀ x rest m' push spawned,
      exec₁ (p.memory c.mem) e.choice x = .next m' push spawned →
      P.Enters (p.memory c.mem) x rest → P.Keeps (p.memory c.mem) x rest m' push spawned) :
    P.Holds (p.config c') := by
  obtain ⟨ins, rest, push, spawned, htop, hexec, hthreads⟩ := Config.step_cases hstep
  have htop' : (p.config c).threads[e.thread]? = some (p.stack (ins :: rest)) := by
    simp only [config, List.getElem?_map, htop, Option.map_some]
  have hthreads' : (p.config c').threads =
      (p.config c).threads.set e.thread (p.stack push ++ p.stack rest) ++ spawned.map p.stack := by
    simp only [config, hthreads, List.map_append, List.map_set, stack_append]
  rcases hfollows ins _ push spawned hexec with ⟨x, hx, hexec₁⟩ | ⟨hmemory, hpush, hspawned⟩
  · have hcons : p.stack (ins :: rest) = x :: p.stack rest := by
      unfold stack
      rw [List.filterMap_cons, hx]
    rw [hcons] at htop'
    have hstep₁ : (p.config c).step exec₁ e = some (p.config c') := by
      have hsome := Config.step_of_next htop' hexec₁
      rw [← hthreads'] at hsome
      exact hsome
    apply h.step _ hstep₁
    intro ins₁ rest₁ m₁ push₁ spawned₁ _ hexec₁ henters
    exact hkeeps ins₁ rest₁ m₁ push₁ spawned₁ hexec₁ henters
  · have hsame : p.stack push ++ p.stack rest = p.stack (ins :: rest) := by
      rw [hpush, ← stack_append]
      rfl
    have hset : (p.config c).threads.set e.thread (p.stack (ins :: rest)) = (p.config c).threads := by
      obtain ⟨hi, hget⟩ := List.getElem?_eq_some_iff.mp htop'
      rw [← hget]
      exact List.set_getElem_self hi
    have hnone : ∀ l ∈ spawned.map p.stack, l = [] := by
      intro l hl
      obtain ⟨l', hl', rfl⟩ := List.mem_map.mp hl
      exact hspawned l' hl'
    have hidle := h.append_idle hnone
    rw [hsame, hset] at hthreads'
    rw [← hthreads'] at hidle
    have hconfig : p.config c' = ⟨(p.config c).mem, (p.config c').threads⟩ := by
      show (⟨p.memory c'.mem, _⟩ : Config Mem₁ Instr₁) = ⟨p.memory c.mem, _⟩
      rw [hmemory]
      rfl
    rwa [hconfig]

/-- The part cannot run when no thread can and each that has something of the part to do is at
it. -/
theorem stuck (h : ∀ ins rest, ins :: rest ∈ c.threads → p.stack (ins :: rest) = [] ∨
      ∃ x, p.instr ins = some x ∧ ∀ m' push spawned,
        exec₁ (p.memory c.mem) false x ≠ .next m' push spawned) :
    (p.config c).Stuck exec₁ := by
  intro i
  unfold Config.step
  rw [show (p.config c).threads[i]? = c.threads[i]?.map p.stack from List.getElem?_map]
  cases htop : c.threads[i]? with
  | none => rfl
  | some l =>
    cases l with
    | nil => rfl
    | cons ins rest =>
      rcases h ins rest (List.mem_of_getElem? htop) with hempty | ⟨x, hx, hnone⟩
      · rw [Option.map_some, hempty]
      · have hcons : p.stack (ins :: rest) = x :: p.stack rest := by
          unfold stack
          rw [List.filterMap_cons, hx]
        rw [Option.map_some, hcons]
        dsimp only
        split
        · rename_i m' push spawned hexec
          exact absurd hexec (hnone m' push spawned)
        · rfl

end Part

end Library
