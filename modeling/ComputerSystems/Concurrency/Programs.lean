import ComputerSystems.Concurrency.WakeUp

/-!
# Threads that run programs

Each thread of a monitor calls the operations of a list, one after the other, and nobody
interrupts it. A run is at most as long as the operations allow, and a run that has come
to a stop has either finished every program or left threads waiting for something that
nobody provides any more.
-/

namespace ComputerSystems.Concurrency

open ComputerSystems.Transition

variable {τ σ ο κ : Type*}

/-- The threads of a monitor and the operations that each of them has still to call. -/
structure ProgramState (τ σ ο : Type*) where
  monitor : MonitorState τ σ ο
  rest : τ → List ο

/-- The operations of a thread whose bodies have not run. -/
def unperformed (rest : List ο) : Phase ο → List ο
  | .entering op | .testing op | .body op | .waiting op | .signalled op => op :: rest
  | _ => rest

/-- What is left to do in a phase, in steps of the thread and in what a signal may cost
it. -/
def Phase.work : Phase ο → Nat
  | idle => 0
  | leaving => 1
  | interrupted => 2
  | signalling _ => 4
  | body _ | waiting _ => 5
  | testing _ => 6
  | entering _ | signalled _ => 7

namespace ProgramState

/-- The operations of a thread whose bodies have not run. -/
def ahead (state : ProgramState τ σ ο) (thread : τ) : List ο :=
  unperformed (state.rest thread) (state.monitor.phases thread)

/-- What is left to do for one thread. -/
def work (state : ProgramState τ σ ο) (thread : τ) : Nat :=
  8 * (state.rest thread).length + (state.monitor.phases thread).work

/-- Every thread is outside and has no operation left to call. -/
def Finished (state : ProgramState τ σ ο) : Prop :=
  ∀ thread, state.monitor.phases thread = .idle ∧ state.rest thread = []

end ProgramState

namespace MonitorAction

/-- A thread leaves its queue without a reason. -/
def spurious : MonitorAction τ ο → Bool
  | wake _ => true
  | _ => false

/-- A thread goes on alone with the operation it has called. -/
def alone : MonitorAction τ ο → Bool
  | acquire _ | test _ | perform _ | unlock _ | wake _ => true
  | _ => false

end MonitorAction

/-- The sums of two families that differ at one place. -/
theorem sum_of_frame {M : Type*} [AddCommMonoid M] [Fintype τ] [DecidableEq τ] {f g : τ → M}
    {thread : τ} (frame : ∀ other, other ≠ thread → f other = g other) :
    ∑ other, f other + g thread = ∑ other, g other + f thread := by
  have rest : ∑ other ∈ Finset.univ.erase thread, f other =
      ∑ other ∈ Finset.univ.erase thread, g other := by
    apply Finset.sum_congr rfl
    intro other member
    exact frame other (Finset.ne_of_mem_erase member)
  rw [← Finset.add_sum_erase Finset.univ f (Finset.mem_univ thread),
    ← Finset.add_sum_erase Finset.univ g (Finset.mem_univ thread), rest, add_right_comm,
    add_right_comm (g thread), add_comm (f thread)]

namespace Monitor

section Steps

variable [Fintype τ] [DecidableEq τ] [DecidableEq κ] [DecidableEq ο]

/-- A thread calls the next operation of its program; the other steps are those of the
monitor, without interrupts. -/
def programStep (m : Monitor τ σ ο κ) (state : ProgramState τ σ ο) :
    MonitorAction τ ο → Option (ProgramState τ σ ο)
  | .call thread op =>
      match state.rest thread with
      | [] => none
      | first :: later =>
          if op = first then
            (m.step state.monitor (.call thread op)).map fun next =>
              ⟨next, Function.update state.rest thread later⟩
          else
            none
  | .refuse _ | .interrupt _ => none
  | action => (m.step state.monitor action).map fun next => ⟨next, state.rest⟩

/-- All threads outside, with their whole programs to run. -/
def load (shared : σ) (programs : τ → List ο) : ProgramState τ σ ο := ⟨init shared, programs⟩

/-- No thread can take a step, other than to leave its queue without a reason. -/
def Stopped (m : Monitor τ σ ο κ) (state : ProgramState τ σ ο) : Prop :=
  ∀ action next, m.programStep state action = some next → action.spurious = true

variable {m : Monitor τ σ ο κ} {state next final : ProgramState τ σ ο}
  {action : MonitorAction τ ο} {shared : σ} {programs : τ → List ο}
  {actions : List (MonitorAction τ ο)}

/-- A step of a program is a step of the monitor. -/
theorem step_of_programStep (stepped : m.programStep state action = some next) :
    m.step state.monitor action = some next.monitor := by
  cases action with
  | call thread op =>
      simp only [programStep] at stepped
      split at stepped
      · cases stepped
      · split at stepped
        · rcases Option.map_eq_some_iff.mp stepped with ⟨moved, done, rfl⟩
          exact done
        · cases stepped
  | refuse thread | interrupt thread => cases stepped
  | _ =>
      rcases Option.map_eq_some_iff.mp stepped with ⟨moved, done, rfl⟩
      exact done

/-- A run of programs is a run of the monitor. -/
theorem exec_of_programStep (ran : exec m.programStep (load shared programs) actions = some final) :
    exec m.step (init shared) actions = some final.monitor := by
  rcases exec_simulation (fun (state : ProgramState τ σ ο) monitor => monitor = state.monitor)
    rfl (fun _ _ _ _ same stepped => ⟨_, same ▸ step_of_programStep stepped, rfl⟩) ran with
    ⟨monitor, also, rfl⟩
  exact also

theorem program_exclusive (ran : exec m.programStep (load shared programs) actions = some final) :
    m.Exclusive final.monitor :=
  run_exclusive (exec_of_programStep ran)

/-! ## What a step does -/

/-- One thread goes on with the operation it has called. -/
inductive Turn (m : Monitor τ σ ο κ) :
    MonitorAction τ ο → τ → Phase ο → σ → Phase ο → σ → Prop
  | enter {thread shared} (op : ο) :
      Turn m (.acquire thread) thread (.entering op) shared (.testing op) shared
  | resume {thread shared} (op : ο) :
      Turn m (.acquire thread) thread (.signalled op) shared (.testing op) shared
  | abort {thread shared} : Turn m (.acquire thread) thread .interrupted shared .leaving shared
  | wait {thread shared} (op : ο) :
      Turn m (.test thread) thread (.testing op) shared (.waiting op) shared
  | pass {thread shared} (op : ο) :
      Turn m (.test thread) thread (.testing op) shared (.body op) shared
  | perform {thread shared} (op : ο) :
      Turn m (.perform thread) thread (.body op) shared (.signalling op)
        (m.perform thread op shared)
  | unlock {thread shared} : Turn m (.unlock thread) thread .leaving shared .idle shared
  | wake {thread shared} (op : ο) :
      Turn m (.wake thread) thread (.waiting op) shared (.entering op) shared

omit [DecidableEq ο] in
/-- A step of a thread that goes on alone. -/
theorem turn_of_step {before after : MonitorState τ σ ο}
    (stepped : m.step before action = some after) (alone : action.alone = true) :
    ∃ thread phase owner shared,
      m.Turn action thread (before.phases thread) before.shared phase shared ∧
      after = ⟨Function.update before.phases thread phase, owner, shared⟩ := by
  cases action with
  | call thread op | signal thread woken | refuse thread | interrupt thread => cases alone
  | acquire thread =>
      simp only [step] at stepped
      split at stepped
      · rename_i here
        cases stepped
        exact ⟨thread, _, _, _, here ▸ .enter _, rfl⟩
      · rename_i here
        cases stepped
        exact ⟨thread, _, _, _, here ▸ .resume _, rfl⟩
      · rename_i here
        cases stepped
        exact ⟨thread, _, _, _, here ▸ .abort, rfl⟩
      · cases stepped
  | test thread =>
      simp only [step] at stepped
      split at stepped
      · rename_i op here
        split at stepped
        · cases stepped
          exact ⟨thread, _, _, _, here ▸ .wait op, rfl⟩
        · cases stepped
          exact ⟨thread, _, _, _, here ▸ .pass op, rfl⟩
      · cases stepped
  | perform thread =>
      simp only [step] at stepped
      split at stepped
      · rename_i op here
        cases stepped
        exact ⟨thread, _, _, _, here ▸ .perform op, rfl⟩
      · cases stepped
  | unlock thread =>
      simp only [step] at stepped
      split at stepped
      · rename_i here
        cases stepped
        exact ⟨thread, _, _, _, here ▸ .unlock, rfl⟩
      · cases stepped
  | wake thread =>
      simp only [step] at stepped
      split at stepped
      · rename_i op here
        cases stepped
        exact ⟨thread, _, _, _, here ▸ .wake op, rfl⟩
      · cases stepped

/-- Every step of a program is a call of its next operation, a move of one thread or a
signal. -/
theorem programStep_cases (stepped : m.programStep state action = some next) :
    (∃ thread op later, state.monitor.phases thread = .idle ∧ state.rest thread = op :: later ∧
      next = ⟨state.monitor.move thread (.entering op),
        Function.update state.rest thread later⟩) ∨
    (∃ thread phase owner shared,
      m.Turn action thread (state.monitor.phases thread) state.monitor.shared phase shared ∧
      next = ⟨⟨Function.update state.monitor.phases thread phase, owner, shared⟩, state.rest⟩) ∨
    ∃ thread op after, state.monitor.phases thread = .signalling op ∧
      m.Signal state.monitor thread op after ∧ next = ⟨after, state.rest⟩ := by
  cases action with
  | call thread op =>
      simp only [programStep] at stepped
      split at stepped
      · cases stepped
      · rename_i first later program
        split at stepped
        · rename_i same
          rcases Option.map_eq_some_iff.mp stepped with ⟨after, moved, rfl⟩
          simp only [step] at moved
          split at moved
          · rename_i here
            cases moved
            exact Or.inl ⟨thread, op, later, here, same ▸ program, rfl⟩
          · cases moved
        · cases stepped
  | refuse thread | interrupt thread => cases stepped
  | signal thread woken =>
      rcases Option.map_eq_some_iff.mp stepped with ⟨after, moved, rfl⟩
      right
      right
      simp only [step] at moved
      split at moved
      · rename_i op here
        split at moved
        · rename_i nobody
          cases moved
          exact ⟨thread, op, _, here, .lost nobody, rfl⟩
        · cases moved
      · rename_i op other here
        split at moved
        · rename_i waiter waits
          split at moved
          · rename_i same
            cases moved
            exact ⟨thread, op, _, here, .woke other waiter waits same, rfl⟩
          · cases moved
        · cases moved
      · cases moved
  | acquire thread | test thread | perform thread | unlock thread | wake thread =>
      rcases Option.map_eq_some_iff.mp stepped with ⟨after, moved, rfl⟩
      rcases turn_of_step moved rfl with
        ⟨mover, phase, owner, shared, turn, rfl⟩
      exact Or.inr (Or.inl ⟨mover, phase, owner, shared, turn, rfl⟩)

end Steps

/-! ## How long programs run -/

section Work

variable [DecidableEq τ] {state next : ProgramState τ σ ο} {thread : τ}

/-- What is left to do after one thread has moved. -/
theorem sum_work_move [Fintype τ] (state : ProgramState τ σ ο) (thread : τ) (phase : Phase ο)
    (owner : Option τ) (shared : σ) :
    ∑ other, (⟨⟨Function.update state.monitor.phases thread phase, owner, shared⟩, state.rest⟩ :
        ProgramState τ σ ο).work other + (state.monitor.phases thread).work =
      ∑ other, state.work other + phase.work := by
  have frame : ∀ other, other ≠ thread →
      (⟨⟨Function.update state.monitor.phases thread phase, owner, shared⟩, state.rest⟩ :
        ProgramState τ σ ο).work other = state.work other := by
    intro other apart
    simp only [ProgramState.work, Function.update_of_ne apart]
  have sums := sum_of_frame frame
  simp only [ProgramState.work, Function.update_self] at sums ⊢
  omega

/-- What is left to do after a thread has called its next operation. -/
theorem sum_work_call [Fintype τ] {op : ο} {later : List ο}
    (idle : state.monitor.phases thread = .idle) (program : state.rest thread = op :: later) :
    ∑ other, (⟨state.monitor.move thread (.entering op),
        Function.update state.rest thread later⟩ : ProgramState τ σ ο).work other + 1 =
      ∑ other, state.work other := by
  have frame : ∀ other, other ≠ thread →
      (⟨state.monitor.move thread (.entering op), Function.update state.rest thread later⟩ :
        ProgramState τ σ ο).work other = state.work other := by
    intro other apart
    simp only [ProgramState.work, MonitorState.move, Function.update_of_ne apart]
  have sums := sum_of_frame frame
  simp only [ProgramState.work, MonitorState.move, Function.update_self, idle, program,
    Phase.work, List.length_cons] at sums ⊢
  omega

variable [Fintype τ] [DecidableEq κ] [DecidableEq ο] {m : Monitor τ σ ο κ}
  {action : MonitorAction τ ο} {final : ProgramState τ σ ο} {actions : List (MonitorAction τ ο)}

omit [Fintype τ] [DecidableEq τ] [DecidableEq κ] [DecidableEq ο] in
/-- A thread that moves alone has less to do, unless it leaves its queue without a
reason. -/
theorem Turn.work {old phase : Phase ο} {data shared : σ}
    (turn : m.Turn action thread old data phase shared) :
    phase.work + 1 ≤ old.work + if action.spurious then 3 else 0 := by
  cases turn <;> simp [Phase.work, MonitorAction.spurious]

/-- A step leaves less to do. -/
theorem programStep_work (stepped : m.programStep state action = some next) :
    ∑ thread, next.work thread + 1 ≤
      ∑ thread, state.work thread + if action.spurious then 3 else 0 := by
  rcases programStep_cases stepped with ⟨thread, op, later, idle, program, rfl⟩ | moved
  · rw [sum_work_call idle program]
    exact Nat.le_add_right _ _
  · rcases moved with ⟨thread, phase, owner, shared, turn, rfl⟩ | signalled
    · have sums := sum_work_move state thread phase owner shared
      have less := turn.work
      omega
    · rcases signalled with ⟨thread, op, after, here, signal, rfl⟩
      have left := sum_work_move state thread .leaving state.monitor.owner state.monitor.shared
      rw [here] at left
      cases signal with
      | lost nobody =>
          simp only [Phase.work, MonitorState.move] at left ⊢
          omega
      | woke other waiter waits same =>
          have apart : other ≠ thread := by
            rintro rfl
            rw [here] at waits
            cases waits
          have woken := sum_work_move ⟨state.monitor.move thread .leaving, state.rest⟩ other
            (.signalled waiter) state.monitor.owner state.monitor.shared
          simp only [MonitorState.move, Function.update_of_ne apart, waits] at woken
          simp only [Phase.work, MonitorState.move] at left woken ⊢
          omega

/-- A run is at most as long as what is left to do at its start, and what the threads that
leave their queues without a reason add to it. -/
theorem exec_programStep_length (ran : exec m.programStep state actions = some final) :
    actions.length + ∑ thread, final.work thread ≤
      ∑ thread, state.work thread + 3 * actions.countP MonitorAction.spurious := by
  induction actions generalizing state with
  | nil =>
      cases ran
      simp
  | cons action rest ih =>
      rcases Option.bind_eq_some_iff.mp ran with ⟨next, stepped, continued⟩
      have here := programStep_work stepped
      have later := ih continued
      rw [List.length_cons, List.countP_cons]
      split at here
      · rename_i spurious
        rw [if_pos spurious]
        omega
      · rename_i urged
        rw [if_neg urged]
        omega

end Work

/-! ## What is left of the programs -/

section Ahead

variable [Fintype τ] [DecidableEq τ] [DecidableEq κ] [DecidableEq ο] {m : Monitor τ σ ο κ}
  {state next final : ProgramState τ σ ο} {action : MonitorAction τ ο} {shared : σ}
  {programs : τ → List ο} {actions : List (MonitorAction τ ο)}

omit [Fintype τ] [DecidableEq κ] [DecidableEq ο] in
/-- A move between phases with the same operation ahead. -/
theorem ahead_move (state : ProgramState τ σ ο) {thread : τ} {phase : Phase ο} (owner : Option τ)
    (shared : σ) (same : unperformed (state.rest thread) phase = state.ahead thread) (other : τ) :
    (⟨⟨Function.update state.monitor.phases thread phase, owner, shared⟩, state.rest⟩ :
      ProgramState τ σ ο).ahead other = state.ahead other := by
  by_cases here : other = thread
  · subst here
    simp only [ProgramState.ahead, Function.update_self]
    exact same
  · simp only [ProgramState.ahead, Function.update_of_ne here]

/-- A step leaves what is ahead of the threads and the shared state as they are, or runs
the first body that is ahead of a thread. -/
theorem programStep_ahead (stepped : m.programStep state action = some next) :
    (next.monitor.shared = state.monitor.shared ∧
      ∀ thread, next.ahead thread = state.ahead thread) ∨
    ∃ thread op, state.monitor.phases thread = .body op ∧
      next.monitor.shared = m.perform thread op state.monitor.shared ∧
      state.ahead thread = op :: next.ahead thread ∧
      ∀ other, other ≠ thread → next.ahead other = state.ahead other := by
  rcases programStep_cases stepped with ⟨thread, op, later, idle, program, rfl⟩ | moved
  · left
    refine ⟨rfl, ?_⟩
    intro other
    by_cases here : other = thread
    · subst here
      simp [ProgramState.ahead, MonitorState.move, unperformed, idle, program]
    · simp only [ProgramState.ahead, MonitorState.move, Function.update_of_ne here]
  · rcases moved with ⟨thread, phase, owner, data, turn, rfl⟩ | signalled
    · generalize old : state.monitor.phases thread = before at turn
      generalize held : state.monitor.shared = shared at turn
      cases turn with
      | perform op =>
          right
          refine ⟨thread, op, old, held ▸ rfl, ?_, ?_⟩
          · simp [ProgramState.ahead, unperformed, old]
          · intro other apart
            simp only [ProgramState.ahead, Function.update_of_ne apart]
      | enter op | resume op | wait op | pass op | wake op =>
          left
          refine ⟨rfl, ahead_move _ _ _ ?_⟩
          simp [ProgramState.ahead, unperformed, old]
      | abort | unlock =>
          left
          refine ⟨rfl, ahead_move _ _ _ ?_⟩
          simp [ProgramState.ahead, unperformed, old]
    · rcases signalled with ⟨thread, op, after, here, signal, rfl⟩
      left
      have left : unperformed (state.rest thread) .leaving = state.ahead thread := by
        simp [ProgramState.ahead, unperformed, here]
      have leaves := ahead_move state state.monitor.owner state.monitor.shared left
      cases signal with
      | lost nobody => exact ⟨rfl, leaves⟩
      | woke other waiter waits same =>
          refine ⟨rfl, ?_⟩
          intro third
          have apart : other ≠ thread := by
            rintro rfl
            rw [here] at waits
            cases waits
          rw [← leaves third]
          refine ahead_move ⟨state.monitor.move thread .leaving, state.rest⟩ _ _ ?_ third
          simp [ProgramState.ahead, MonitorState.move, Function.update_of_ne apart, unperformed,
            waits]

/-- What is ahead of a thread is the end of its program. -/
theorem ahead_suffix (ran : exec m.programStep (load shared programs) actions = some final)
    (thread : τ) : final.ahead thread <:+ programs thread := by
  refine @exec_invariant _ _ (fun state => state.ahead thread <:+ programs thread) _ _ _ _
    (List.suffix_refl _) ?_ ran
  intro state action next stepped suffix
  rcases programStep_ahead stepped with ⟨_, same⟩ | ⟨mover, op, _, _, first, others⟩
  · rwa [same thread]
  · by_cases here : thread = mover
    · subst here
      rw [first] at suffix
      exact (List.suffix_cons op _).trans suffix
    · rwa [others thread here]

/-- Invariant rule for the shared state: it is enough to look at the bodies, in the states
in which the programs run them. -/
theorem program_shared (holds : σ → Prop) (initially : holds shared)
    (keeps : ∀ past state thread op,
      exec m.programStep (load shared programs) past = some state →
      state.monitor.phases thread = .body op → holds state.monitor.shared →
      holds (m.perform thread op state.monitor.shared))
    (ran : exec m.programStep (load shared programs) actions = some final) :
    holds final.monitor.shared := by
  refine @exec_prefix_invariant _ _ (fun state => holds state.monitor.shared) _ _ actions
    initially ?_ actions (List.prefix_refl _) final ran
  intro past action rest _ state before held next stepped
  rcases programStep_ahead stepped with ⟨same, _⟩ | ⟨thread, op, body, performed, _, _⟩
  · rwa [same]
  · rw [performed]
    exact keeps past state thread op before body held

/-- Where every body changes a count by what its operation is worth, the count and what is
ahead of all threads are worth as much as the whole programs. -/
theorem program_account (size : σ → ℤ) (worth : List ο → ℤ)
    (counts : ∀ thread op data rest, m.blocked op data = false →
      size (m.perform thread op data) + worth rest = size data + worth (op :: rest))
    (ran : exec m.programStep (load shared programs) actions = some final) :
    size final.monitor.shared + ∑ thread, worth (final.ahead thread) =
      size shared + ∑ thread, worth (programs thread) := by
  have both : m.Exclusive final.monitor ∧
      size final.monitor.shared + ∑ thread, worth (final.ahead thread) =
        size shared + ∑ thread, worth (programs thread) := by
    refine @exec_invariant _ _ (fun state => m.Exclusive state.monitor ∧
      size state.monitor.shared + ∑ thread, worth (state.ahead thread) =
        size shared + ∑ thread, worth (programs thread)) _ _ _ _
      ⟨exclusive_init shared, rfl⟩ ?_ ran
    rintro state action next stepped ⟨exclusive, before⟩
    refine ⟨exclusive.step (step_of_programStep stepped), ?_⟩
    rw [← before]
    rcases programStep_ahead stepped with
      ⟨same, others⟩ | ⟨thread, op, body, changed, first, others⟩
    · rw [same]
      simp only [others]
    · have frame : ∀ other, other ≠ thread →
          worth (next.ahead other) = worth (state.ahead other) := by
        intro other apart
        rw [others other apart]
      have sums := sum_of_frame frame
      have change := counts thread op state.monitor.shared (next.ahead thread)
        (exclusive.ready thread op body)
      rw [first] at sums
      rw [changed]
      omega
  exact both.2

end Ahead

/-! ## Where programs stop -/

section Stopped

variable [Fintype τ] [DecidableEq τ] [DecidableEq κ] [DecidableEq ο] {m : Monitor τ σ ο κ}
  {state final : ProgramState τ σ ο} {shared : σ} {programs : τ → List ο}
  {actions : List (MonitorAction τ ο)}

theorem Stopped.absurd (stopped : m.Stopped state) (action : MonitorAction τ ο)
    (able : (m.programStep state action).isSome = true) (urged : action.spurious = false) :
    False := by
  rcases Option.isSome_iff_exists.mp able with ⟨next, stepped⟩
  rw [stopped action next stepped] at urged
  cases urged

/-- The thread with the lock can go on. -/
theorem Stopped.free (stopped : m.Stopped state) (exclusive : m.Exclusive state.monitor) :
    state.monitor.owner = none := by
  rcases held : state.monitor.owner with _ | thread
  · rfl
  · exfalso
    have holds := (exclusive.owner thread).mpr held
    cases phase : state.monitor.phases thread with
    | testing op =>
        apply stopped.absurd (.test thread) _ rfl
        cases blocked : m.blocked op state.monitor.shared <;>
          simp [programStep, step, phase, blocked]
    | body op =>
        apply stopped.absurd (.perform thread) _ rfl
        simp [programStep, step, phase]
    | signalling op =>
        by_cases nobody : ∀ other, m.waitsOn (m.wakes op) (state.monitor.phases other) = false
        · apply stopped.absurd (.signal thread none) _ rfl
          simp [programStep, step, phase, nobody]
        · simp only [not_forall, Bool.not_eq_false] at nobody
          rcases nobody with ⟨other, waits⟩
          apply stopped.absurd (.signal thread (some other)) _ rfl
          cases waiting : state.monitor.phases other with
          | waiting waiter =>
              rw [waiting, waitsOn, decide_eq_true_eq] at waits
              simp [programStep, step, phase, waiting, waits]
          | _ =>
              rw [waiting] at waits
              cases waits
    | leaving =>
        apply stopped.absurd (.unlock thread) _ rfl
        simp [programStep, step, phase]
    | _ =>
        rw [phase] at holds
        cases holds

/-- A thread that cannot go on has finished its program or waits. -/
theorem Stopped.cases (stopped : m.Stopped state) (exclusive : m.Exclusive state.monitor)
    (thread : τ) :
    (state.monitor.phases thread = .idle ∧ state.rest thread = []) ∨
      ∃ op, state.monitor.phases thread = .waiting op := by
  have free := stopped.free exclusive
  have outside := exclusive.owner thread
  rw [free] at outside
  cases phase : state.monitor.phases thread with
  | idle =>
      cases program : state.rest thread with
      | nil => exact Or.inl ⟨rfl, rfl⟩
      | cons op later =>
          exfalso
          apply stopped.absurd (.call thread op) _ rfl
          simp [programStep, step, phase, program]
  | waiting op => exact Or.inr ⟨op, rfl⟩
  | entering op | signalled op =>
      exfalso
      apply stopped.absurd (.acquire thread) _ rfl
      simp [programStep, step, phase, free]
  | interrupted =>
      exfalso
      apply stopped.absurd (.acquire thread) _ rfl
      simp [programStep, step, phase, free]
  | testing op | body op | signalling op => simp [phase, Phase.holds] at outside
  | leaving => simp [phase, Phase.holds] at outside

/-- Where wake-ups are not lost, the threads that still wait when the programs stop are
blocked. -/
theorem stopped_blocked {valid : σ → Prop} {available : κ → σ → Nat}
    (law : m.UnitResource valid available) (initially : valid shared)
    (ran : exec m.programStep (load shared programs) actions = some final)
    (stopped : m.Stopped final) (thread : τ) :
    (final.monitor.phases thread = .idle ∧ final.rest thread = []) ∨
      ∃ op, final.monitor.phases thread = .waiting op ∧
        m.blocked op final.monitor.shared = true := by
  have exclusive := program_exclusive ran
  rcases stopped.cases exclusive thread with done | ⟨op, waits⟩
  · exact Or.inl done
  · right
    refine ⟨op, waits, ?_⟩
    have also := exec_of_programStep ran
    have isValid := run_shared valid initially law.keeps also
    have covered := available_le_signalled law initially also (stopped.free exclusive)
      (m.condition op) ⟨thread, by simp [waits, waitsOn]⟩
    have nobody : (Finset.univ.filter fun other =>
        m.signalledOn (m.condition op) (final.monitor.phases other)) = ∅ := by
      rw [Finset.filter_eq_empty_iff]
      intro other _
      rcases stopped.cases exclusive other with ⟨idle, _⟩ | ⟨waiter, waiting⟩
      · simp [idle, signalledOn]
      · simp [waiting, signalledOn]
    rw [nobody, Finset.card_empty] at covered
    exact (law.blocked_iff op _ isValid).mpr (Nat.le_zero.mp covered)

/-- Threads that have finished their programs take no step. -/
theorem stopped_of_finished (finished : state.Finished) : m.Stopped state := by
  intro action next stepped
  rcases programStep_cases stepped with ⟨thread, op, later, _, program, _⟩ | moved
  · rw [(finished thread).2] at program
    exact absurd program (List.cons_ne_nil op later).symm
  · rcases moved with ⟨thread, phase, owner, shared, turn, _⟩ | ⟨thread, op, _, here, _⟩
    · rw [(finished thread).1] at turn
      cases turn
    · rw [(finished thread).1] at here
      cases here

end Stopped

end Monitor

end ComputerSystems.Concurrency
