import ComputerSystems.Transition.Run
import Mathlib.Algebra.BigOperators.Fin
import Mathlib.Algebra.Order.BigOperators.Group.Finset

/-!
# Monitors

A monitor has one lock and some condition queues. An operation takes the lock,
waits on its condition while it is blocked, changes the shared state, wakes one
thread that waits on another condition and gives the lock back. A woken thread
has to take the lock again, and a newcomer may be faster.
-/

namespace ComputerSystems.Concurrency

open ComputerSystems.Transition

/-- The operations of a monitor on its shared state. -/
structure Monitor (τ σ ο κ : Type*) where
  blocked : ο → σ → Bool
  condition : ο → κ
  perform : τ → ο → σ → σ
  wakes : ο → κ

/-- Where a thread is. -/
inductive Phase (ο : Type*)
  /-- Outside the monitor. -/
  | idle
  /-- Before the lock, on the way to the test. -/
  | entering (op : ο)
  /-- At the test, with the lock. -/
  | testing (op : ο)
  /-- Past the test, with the lock. -/
  | body (op : ο)
  /-- After the body, before the signal, with the lock. -/
  | signalling (op : ο)
  /-- Before the unlock, with the lock. -/
  | leaving
  /-- In the queue of its condition, not signalled. -/
  | waiting (op : ο)
  /-- Signalled, the lock not yet taken again. -/
  | signalled (op : ο)
  /-- Interrupted while waiting, the lock not yet taken again. -/
  | interrupted
  deriving DecidableEq

/-- The threads, the lock and the shared state. -/
structure MonitorState (τ σ ο : Type*) where
  phases : τ → Phase ο
  owner : Option τ
  shared : σ

/-- One step of one thread. -/
inductive MonitorAction (τ ο : Type*)
  /-- Call an operation. -/
  | call (thread : τ) (op : ο)
  /-- Take the lock, or take it again. -/
  | acquire (thread : τ)
  /-- Test the condition; wait, and give the lock back, when it is not met. -/
  | test (thread : τ)
  /-- Leave a wait at once because the thread was interrupted before. -/
  | refuse (thread : τ)
  /-- Run the body. -/
  | perform (thread : τ)
  /-- Wake one waiting thread, or none when none waits. -/
  | signal (thread : τ) (woken : Option τ)
  /-- Give the lock back and return. -/
  | unlock (thread : τ)
  /-- Leave the queue because of an interrupt. -/
  | interrupt (thread : τ)
  /-- Leave the queue without a reason. -/
  | wake (thread : τ)
  deriving DecidableEq

variable {τ σ ο κ : Type*}

/-- The phases with the lock. -/
def Phase.holds : Phase ο → Bool
  | testing _ | body _ | signalling _ | leaving => true
  | _ => false

/-- Move one thread to another phase. -/
def MonitorState.move [DecidableEq τ] (state : MonitorState τ σ ο) (thread : τ)
    (phase : Phase ο) : MonitorState τ σ ο :=
  { state with phases := Function.update state.phases thread phase }

namespace Monitor

/-- A thread waits on a condition, not signalled. -/
def waitsOn [DecidableEq κ] (m : Monitor τ σ ο κ) (c : κ) : Phase ο → Bool
  | .waiting op => m.condition op = c
  | _ => false

/-- A thread was signalled on a condition and has not taken the lock again. -/
def signalledOn [DecidableEq κ] (m : Monitor τ σ ο κ) (c : κ) : Phase ο → Bool
  | .signalled op => m.condition op = c
  | _ => false

/-- The next state, when the action is one that its thread can take. -/
def step [Fintype τ] [DecidableEq τ] [DecidableEq κ] (m : Monitor τ σ ο κ)
    (state : MonitorState τ σ ο) :
    MonitorAction τ ο → Option (MonitorState τ σ ο)
  | .call thread op =>
      match state.phases thread with
      | .idle => some (state.move thread (.entering op))
      | _ => none
  | .acquire thread =>
      match state.owner, state.phases thread with
      | none, .entering op => some { state.move thread (.testing op) with owner := thread }
      | none, .signalled op => some { state.move thread (.testing op) with owner := thread }
      | none, .interrupted => some { state.move thread .leaving with owner := thread }
      | _, _ => none
  | .test thread =>
      match state.phases thread with
      | .testing op =>
          if m.blocked op state.shared then
            some { state.move thread (.waiting op) with owner := none }
          else
            some (state.move thread (.body op))
      | _ => none
  | .refuse thread =>
      match state.phases thread with
      | .testing op => if m.blocked op state.shared then some (state.move thread .leaving) else none
      | _ => none
  | .perform thread =>
      match state.phases thread with
      | .body op =>
          some { state.move thread (.signalling op) with
            shared := m.perform thread op state.shared }
      | _ => none
  | .signal thread woken =>
      match state.phases thread, woken with
      | .signalling op, none =>
          if ∀ other, m.waitsOn (m.wakes op) (state.phases other) = false then
            some (state.move thread .leaving)
          else
            none
      | .signalling op, some other =>
          match state.phases other with
          | .waiting waiter =>
              if m.condition waiter = m.wakes op then
                some ((state.move thread .leaving).move other (.signalled waiter))
              else
                none
          | _ => none
      | _, _ => none
  | .unlock thread =>
      match state.phases thread with
      | .leaving => some { state.move thread .idle with owner := none }
      | _ => none
  | .interrupt thread =>
      match state.phases thread with
      | .waiting _ => some (state.move thread .interrupted)
      | _ => none
  | .wake thread =>
      match state.phases thread with
      | .waiting op => some (state.move thread (.entering op))
      | _ => none

/-! ## What a step does -/

/-- What one thread does: its phase, the lock and the shared state before, and the
same three afterwards. -/
inductive Change (m : Monitor τ σ ο κ) (thread : τ) :
    Phase ο → Option τ → σ → Phase ο → Option τ → σ → Prop
  | call (op : ο) {owner shared} : Change m thread .idle owner shared (.entering op) owner shared
  | enter (op : ο) {shared} :
      Change m thread (.entering op) none shared (.testing op) (some thread) shared
  | resume (op : ο) {shared} :
      Change m thread (.signalled op) none shared (.testing op) (some thread) shared
  | abort {shared} : Change m thread .interrupted none shared .leaving (some thread) shared
  | wait (op : ο) {owner shared} (blocked : m.blocked op shared = true) :
      Change m thread (.testing op) owner shared (.waiting op) none shared
  | pass (op : ο) {owner shared} (free : m.blocked op shared = false) :
      Change m thread (.testing op) owner shared (.body op) owner shared
  | refuse (op : ο) {owner shared} (blocked : m.blocked op shared = true) :
      Change m thread (.testing op) owner shared .leaving owner shared
  | perform (op : ο) {owner shared} :
      Change m thread (.body op) owner shared (.signalling op) owner (m.perform thread op shared)
  | unlock {owner shared} : Change m thread .leaving owner shared .idle none shared
  | interrupt (op : ο) {owner shared} :
      Change m thread (.waiting op) owner shared .interrupted owner shared
  | wake (op : ο) {owner shared} :
      Change m thread (.waiting op) owner shared (.entering op) owner shared

/-- A signal: the thread that gives it and, when one waits, the thread it wakes. -/
inductive Signal [DecidableEq τ] [DecidableEq κ] (m : Monitor τ σ ο κ)
    (state : MonitorState τ σ ο) (thread : τ) (op : ο) :
    MonitorState τ σ ο → Prop
  | lost (nobody : ∀ other, m.waitsOn (m.wakes op) (state.phases other) = false) :
      Signal m state thread op (state.move thread .leaving)
  | woke (other : τ) (waiter : ο) (waits : state.phases other = .waiting waiter)
      (same : m.condition waiter = m.wakes op) :
      Signal m state thread op ((state.move thread .leaving).move other (.signalled waiter))

/-- Every step changes one thread, the lock and the shared state, or is a signal. -/
theorem step_cases [Fintype τ] [DecidableEq τ] [DecidableEq κ] {m : Monitor τ σ ο κ}
    {state next : MonitorState τ σ ο}
    {action : MonitorAction τ ο} (stepped : m.step state action = some next) :
    (∃ thread phase owner shared,
      m.Change thread (state.phases thread) state.owner state.shared phase owner shared ∧
      (shared = state.shared ∨ action = .perform thread) ∧
      next = ⟨Function.update state.phases thread phase, owner, shared⟩) ∨
    ∃ thread op, state.phases thread = .signalling op ∧ m.Signal state thread op next := by
  cases action with
  | call thread op =>
      simp only [step] at stepped
      split at stepped
      · rename_i here
        cases stepped
        exact Or.inl ⟨thread, _, _, _, here ▸ .call op, Or.inl rfl, rfl⟩
      · cases stepped
  | acquire thread =>
      simp only [step] at stepped
      split at stepped
      · rename_i free here
        cases stepped
        rename_i op
        exact Or.inl ⟨thread, _, _, _, here ▸ free ▸ .enter op, Or.inl rfl, rfl⟩
      · rename_i free here
        cases stepped
        rename_i op
        exact Or.inl ⟨thread, _, _, _, here ▸ free ▸ .resume op, Or.inl rfl, rfl⟩
      · rename_i free here
        cases stepped
        exact Or.inl ⟨thread, _, _, _, here ▸ free ▸ .abort, Or.inl rfl, rfl⟩
      · cases stepped
  | test thread =>
      simp only [step] at stepped
      split at stepped
      · rename_i op here
        split at stepped
        · rename_i blocked
          cases stepped
          exact Or.inl ⟨thread, _, _, _, here ▸ .wait op blocked, Or.inl rfl, rfl⟩
        · rename_i free
          cases stepped
          exact Or.inl ⟨thread, _, _, _, here ▸ .pass op (Bool.eq_false_of_not_eq_true free),
            Or.inl rfl, rfl⟩
      · cases stepped
  | refuse thread =>
      simp only [step] at stepped
      split at stepped
      · rename_i op here
        split at stepped
        · rename_i blocked
          cases stepped
          exact Or.inl ⟨thread, _, _, _, here ▸ .refuse op blocked, Or.inl rfl, rfl⟩
        · cases stepped
      · cases stepped
  | perform thread =>
      simp only [step] at stepped
      split at stepped
      · rename_i op here
        cases stepped
        exact Or.inl ⟨thread, _, _, _, here ▸ .perform op, Or.inr rfl, rfl⟩
      · cases stepped
  | signal thread woken =>
      simp only [step] at stepped
      split at stepped
      · rename_i op here
        split at stepped
        · rename_i nobody
          cases stepped
          exact Or.inr ⟨thread, op, here, .lost nobody⟩
        · cases stepped
      · rename_i op other here
        split at stepped
        · rename_i waiter waits
          split at stepped
          · rename_i same
            cases stepped
            exact Or.inr ⟨thread, op, here, .woke other waiter waits same⟩
          · cases stepped
        · cases stepped
      · cases stepped
  | unlock thread =>
      simp only [step] at stepped
      split at stepped
      · rename_i here
        cases stepped
        exact Or.inl ⟨thread, _, _, _, here ▸ .unlock, Or.inl rfl, rfl⟩
      · cases stepped
  | interrupt thread =>
      simp only [step] at stepped
      split at stepped
      · rename_i op here
        cases stepped
        exact Or.inl ⟨thread, _, _, _, here ▸ .interrupt op, Or.inl rfl, rfl⟩
      · cases stepped
  | wake thread =>
      simp only [step] at stepped
      split at stepped
      · rename_i op here
        cases stepped
        exact Or.inl ⟨thread, _, _, _, here ▸ .wake op, Or.inl rfl, rfl⟩
      · cases stepped

/-! ## Mutual exclusion -/

/-- The threads past their `acquire` are the owner of the lock, and a body runs
only while its operation is not blocked. -/
structure Exclusive (m : Monitor τ σ ο κ) (state : MonitorState τ σ ο) : Prop where
  owner : ∀ thread, (state.phases thread).holds = true ↔ state.owner = some thread
  ready : ∀ thread op, state.phases thread = .body op → m.blocked op state.shared = false

section Exclusive

variable {m : Monitor τ σ ο κ} {state next : MonitorState τ σ ο} {thread : τ}

/-- A change keeps the lock with one thread: the lock stays as it was, is taken
while it is free, or is given back by its owner. -/
theorem Change.owner {phase : Phase ο} {owner : Option τ} {shared : σ}
    (change : m.Change thread (state.phases thread) state.owner state.shared phase owner shared)
    (before : (state.phases thread).holds = true ↔ state.owner = some thread) :
    (phase.holds = true ↔ owner = some thread) ∧
      ∀ other, other ≠ thread → (state.owner = some other ↔ owner = some other) := by
  generalize state.phases thread = old at change before
  generalize state.owner = lock at change before
  generalize state.shared = data at change
  cases change with
  | call _ | perform _ | interrupt _ | wake _ => exact ⟨before, fun _ _ => Iff.rfl⟩
  | pass _ _ | refuse _ _ => exact ⟨before, fun _ _ => Iff.rfl⟩
  | enter _ | resume _ | abort =>
      constructor
      · simp [Phase.holds]
      · intro other apart
        simp [apart.symm]
  | wait _ _ | unlock =>
      constructor
      · simp [Phase.holds]
      · intro other apart
        simp [before.mp rfl, apart.symm]

variable [DecidableEq τ]

theorem Exclusive.change {phase : Phase ο} {owner : Option τ} {shared : σ}
    (exclusive : m.Exclusive state)
    (change : m.Change thread (state.phases thread) state.owner state.shared phase owner shared) :
    m.Exclusive ⟨Function.update state.phases thread phase, owner, shared⟩ := by
  rcases change.owner (exclusive.owner thread) with ⟨here, others⟩
  constructor
  · intro other
    by_cases same : other = thread
    · subst same
      simpa using here
    · simp only [Function.update_of_ne same]
      rw [exclusive.owner other, others other same]
  · intro other op running
    by_cases same : other = thread
    · subst same
      simp only [Function.update_self] at running
      subst running
      generalize state.phases other = old at change
      generalize state.owner = lock at change
      generalize state.shared = data at change
      cases change with
      | pass _ free => exact free
    · simp only [Function.update_of_ne same] at running
      have ready := exclusive.ready other op running
      have holder : state.owner = some other := by
        rw [← exclusive.owner, running]
        rfl
      have outside : (state.phases thread).holds = false := by
        rw [Bool.eq_false_iff, Ne, exclusive.owner, holder]
        simpa using same
      generalize state.phases thread = old at change outside
      generalize state.owner = lock at change
      generalize state.shared = data at change ready
      cases change with
      | perform _ => cases outside
      | _ => exact ready

/-- A move that neither takes nor gives back the lock and does not enter a body. -/
theorem Exclusive.move {phase : Phase ο} (exclusive : m.Exclusive state)
    (holds : phase.holds = (state.phases thread).holds) (outside : ∀ op, phase ≠ .body op) :
    m.Exclusive (state.move thread phase) := by
  constructor
  · intro other
    by_cases same : other = thread
    · subst same
      simp only [MonitorState.move, Function.update_self, holds]
      exact exclusive.owner other
    · simp only [MonitorState.move, Function.update_of_ne same]
      exact exclusive.owner other
  · intro other op running
    by_cases same : other = thread
    · subst same
      simp only [MonitorState.move, Function.update_self] at running
      exact absurd running (outside op)
    · simp only [MonitorState.move, Function.update_of_ne same] at running
      exact exclusive.ready other op running

theorem Exclusive.signal [DecidableEq κ] {op : ο} (exclusive : m.Exclusive state)
    (here : state.phases thread = .signalling op) (signal : m.Signal state thread op next) :
    m.Exclusive next := by
  have leaves : m.Exclusive (state.move thread .leaving) :=
    exclusive.move (by rw [here]; rfl) nofun
  cases signal with
  | lost nobody => exact leaves
  | woke other waiter waits same =>
      have apart : other ≠ thread := by
        rintro rfl
        rw [here] at waits
        cases waits
      apply leaves.move
      · simp only [MonitorState.move, Function.update_of_ne apart, waits, Phase.holds]
      · nofun

theorem Exclusive.step [Fintype τ] [DecidableEq κ] {action : MonitorAction τ ο}
    (exclusive : m.Exclusive state) (stepped : m.step state action = some next) :
    m.Exclusive next := by
  rcases step_cases stepped with ⟨thread, phase, owner, shared, change, _, rfl⟩ | moved
  · exact exclusive.change change
  · rcases moved with ⟨thread, op, here, signal⟩
    exact exclusive.signal here signal

end Exclusive

/-! ## Runs -/

/-- All threads outside, the lock free. -/
def init (shared : σ) : MonitorState τ σ ο := ⟨fun _ => .idle, none, shared⟩

section Runs

variable {m : Monitor τ σ ο κ} {state next final : MonitorState τ σ ο}

theorem exclusive_init (shared : σ) : m.Exclusive (init shared) := by
  constructor
  · simp [init, Phase.holds]
  · simp [init]

variable [Fintype τ] [DecidableEq τ] [DecidableEq κ]

theorem run_exclusive {shared : σ} {actions : List (MonitorAction τ ο)}
    (ran : exec m.step (init shared) actions = some final) : m.Exclusive final :=
  exec_invariant (exclusive_init shared) (fun _ _ _ stepped exclusive => exclusive.step stepped) ran

/-- A step leaves the shared state as it is or runs a body that is not blocked. -/
theorem shared_cases {action : MonitorAction τ ο} (exclusive : m.Exclusive state)
    (stepped : m.step state action = some next) :
    next.shared = state.shared ∨ ∃ thread op, action = .perform thread ∧
      state.phases thread = .body op ∧ m.blocked op state.shared = false ∧
      next.shared = m.perform thread op state.shared := by
  rcases step_cases stepped with ⟨thread, phase, owner, shared, change, kind, rfl⟩ | moved
  · rcases kind with same | rfl
    · exact Or.inl same
    · simp only [step] at stepped
      split at stepped
      · rename_i op here
        have changed := congrArg MonitorState.shared (Option.some.inj stepped)
        exact Or.inr ⟨thread, op, rfl, here, exclusive.ready thread op here, changed.symm⟩
      · cases stepped
  · rcases moved with ⟨thread, op, _, signal⟩
    cases signal with
    | lost _ => exact Or.inl rfl
    | woke _ _ _ _ => exact Or.inl rfl

/-- Invariant rule for the shared state: it is enough to look at the bodies. -/
theorem run_shared (holds : σ → Prop) {shared : σ} {actions : List (MonitorAction τ ο)}
    (initially : holds shared)
    (keeps : ∀ thread op data, m.blocked op data = false → holds data →
      holds (m.perform thread op data))
    (ran : exec m.step (init shared) actions = some final) : holds final.shared := by
  have both : m.Exclusive final ∧ holds final.shared := by
    apply exec_invariant _ _ ran
    · exact ⟨exclusive_init shared, initially⟩
    · rintro state action next stepped ⟨exclusive, before⟩
      refine ⟨exclusive.step stepped, ?_⟩
      rcases shared_cases exclusive stepped with same | ⟨thread, op, _, _, free, changed⟩
      · rwa [same]
      · rw [changed]
        exact keeps thread op state.shared free before
  exact both.2

end Runs

/-! ## Two monitors in step -/

section Simulation

variable {σ' : Type*} {m : Monitor τ σ ο κ} {m' : Monitor τ σ' ο κ} {related : σ → σ' → Prop}

/-- Two monitors with the same queues whose bodies keep their shared states
related, and whose operations are blocked in the same of these states. -/
structure InStep (m : Monitor τ σ ο κ) (m' : Monitor τ σ' ο κ) (related : σ → σ' → Prop) :
    Prop where
  condition : m'.condition = m.condition
  wakes : m'.wakes = m.wakes
  blocked : ∀ op data data', related data data' → m'.blocked op data' = m.blocked op data
  perform : ∀ thread op data data', related data data' →
    related (m.perform thread op data) (m'.perform thread op data')

/-- The threads of two monitors are in the same phases, and their shared states are
related. -/
def Agree (related : σ → σ' → Prop) (state : MonitorState τ σ ο) (state' : MonitorState τ σ' ο) :
    Prop :=
  state'.phases = state.phases ∧ state'.owner = state.owner ∧ related state.shared state'.shared

variable [Fintype τ] [DecidableEq τ] [DecidableEq κ]

theorem InStep.step (inStep : InStep m m' related) {state next : MonitorState τ σ ο}
    {state' : MonitorState τ σ' ο} {action : MonitorAction τ ο}
    (agree : Agree related state state') (stepped : m.step state action = some next) :
    ∃ next', m'.step state' action = some next' ∧ Agree related next next' := by
  rcases state' with ⟨phases, owner, shared'⟩
  rcases agree with ⟨rfl, rfl, before⟩
  have waits : m'.waitsOn = m.waitsOn := by
    funext c phase
    cases phase <;> simp only [waitsOn, inStep.condition]
  cases action with
  | call thread op =>
      simp only [Monitor.step] at stepped ⊢
      split at stepped
      · cases stepped
        exact ⟨_, rfl, rfl, rfl, before⟩
      · cases stepped
  | acquire thread =>
      simp only [Monitor.step] at stepped ⊢
      split at stepped
      · cases stepped
        exact ⟨_, rfl, rfl, rfl, before⟩
      · cases stepped
        exact ⟨_, rfl, rfl, rfl, before⟩
      · cases stepped
        exact ⟨_, rfl, rfl, rfl, before⟩
      · cases stepped
  | test thread =>
      simp only [Monitor.step] at stepped ⊢
      split at stepped
      · rename_i op _
        simp only [inStep.blocked op _ _ before]
        split at stepped
        · rename_i blocked
          cases stepped
          rw [if_pos blocked]
          exact ⟨_, rfl, rfl, rfl, before⟩
        · rename_i free
          cases stepped
          rw [if_neg free]
          exact ⟨_, rfl, rfl, rfl, before⟩
      · cases stepped
  | refuse thread =>
      simp only [Monitor.step] at stepped ⊢
      split at stepped
      · rename_i op _
        simp only [inStep.blocked op _ _ before]
        split at stepped
        · rename_i blocked
          cases stepped
          rw [if_pos blocked]
          exact ⟨_, rfl, rfl, rfl, before⟩
        · cases stepped
      · cases stepped
  | perform thread =>
      simp only [Monitor.step] at stepped ⊢
      split at stepped
      · rename_i op _
        cases stepped
        exact ⟨_, rfl, rfl, rfl, inStep.perform thread op _ _ before⟩
      · cases stepped
  | signal thread woken =>
      simp only [Monitor.step] at stepped ⊢
      split at stepped
      · rename_i op _
        simp only [waits, inStep.wakes]
        split at stepped
        · rename_i nobody
          cases stepped
          rw [if_pos nobody]
          exact ⟨_, rfl, rfl, rfl, before⟩
        · cases stepped
      · split at stepped
        · simp only [inStep.condition, inStep.wakes]
          split at stepped
          · rename_i same
            cases stepped
            rw [if_pos same]
            exact ⟨_, rfl, rfl, rfl, before⟩
          · cases stepped
        · cases stepped
      · cases stepped
  | unlock thread =>
      simp only [Monitor.step] at stepped ⊢
      split at stepped
      · cases stepped
        exact ⟨_, rfl, rfl, rfl, before⟩
      · cases stepped
  | interrupt thread =>
      simp only [Monitor.step] at stepped ⊢
      split at stepped
      · cases stepped
        exact ⟨_, rfl, rfl, rfl, before⟩
      · cases stepped
  | wake thread =>
      simp only [Monitor.step] at stepped ⊢
      split at stepped
      · cases stepped
        exact ⟨_, rfl, rfl, rfl, before⟩
      · cases stepped

/-- Runs of the two monitors take the same steps. -/
theorem InStep.run (inStep : InStep m m' related) {shared : σ} {shared' : σ'}
    (initially : related shared shared') {actions : List (MonitorAction τ ο)}
    {final : MonitorState τ σ ο} (ran : exec m.step (init shared) actions = some final) :
    ∃ final', exec m'.step (init shared') actions = some final' ∧ Agree related final final' :=
  exec_simulation (Agree related) ⟨rfl, rfl, initially⟩
    (fun _ _ _ _ agree stepped => inStep.step agree stepped) ran

end Simulation

end Monitor

end ComputerSystems.Concurrency
