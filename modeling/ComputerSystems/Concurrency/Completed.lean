import ComputerSystems.Concurrency.Monitor

/-!
# Completed calls

A call of an operation is completed when its thread gives back the lock after it has run
the body. Whenever the lock is free, the shared state is what the completed calls have
made of it, one after the other.
-/

namespace ComputerSystems.Concurrency

open ComputerSystems.Transition

variable {τ σ ο κ : Type*} [DecidableEq τ]

/-- The calls whose bodies have run: of each thread the one from which it has not
returned, and those from which their threads have returned, in this order. -/
structure Ledger (τ ο : Type*) where
  pending : τ → Option ο
  completed : List (τ × ο)

namespace Ledger

/-- No call has run its body. -/
def empty : Ledger τ ο := ⟨fun _ => none, []⟩

/-- A thread runs a body. -/
def perform (ledger : Ledger τ ο) (thread : τ) (op : ο) : Ledger τ ο :=
  { ledger with pending := Function.update ledger.pending thread (some op) }

/-- A thread returns. A call that has not run its body is left by an exception. -/
def leave (ledger : Ledger τ ο) (thread : τ) : Ledger τ ο :=
  match ledger.pending thread with
  | some op =>
      ⟨Function.update ledger.pending thread none, ledger.completed ++ [(thread, op)]⟩
  | none => ledger

/-- The ledger after an action. -/
def after (ledger : Ledger τ ο) (phases : τ → Phase ο) : MonitorAction τ ο → Ledger τ ο
  | .perform thread =>
      match phases thread with
      | .body op => ledger.perform thread op
      | _ => ledger
  | .unlock thread => ledger.leave thread
  | _ => ledger

end Ledger

namespace Monitor

section Accounts

variable [Fintype τ] [DecidableEq κ]

/-- A step of a monitor with its ledger. -/
def accountedStep (m : Monitor τ σ ο κ) :
    MonitorState τ σ ο × Ledger τ ο → MonitorAction τ ο →
      Option (MonitorState τ σ ο × Ledger τ ο) :=
  fun (state, ledger) action =>
    (m.step state action).map fun next => (next, ledger.after state.phases action)

/-- The calls that are completed in a run. -/
def completed (m : Monitor τ σ ο κ) (shared : σ) (actions : List (MonitorAction τ ο)) :
    List (τ × ο) :=
  match exec m.accountedStep (init shared, .empty) actions with
  | some (_, ledger) => ledger.completed
  | none => []

/-- The ledger does not change the run. -/
theorem exec_accountedStep_fst (m : Monitor τ σ ο κ) (state : MonitorState τ σ ο)
    (ledger : Ledger τ ο) (actions : List (MonitorAction τ ο)) :
    (exec m.accountedStep (state, ledger) actions).map Prod.fst = exec m.step state actions := by
  induction actions generalizing state ledger with
  | nil => rfl
  | cons action rest ih =>
      cases stepped : m.step state action with
      | none => simp [exec, accountedStep, stepped]
      | some next => simpa [exec, accountedStep, stepped] using ih next _

end Accounts

/-! ## Threads behind their bodies -/

/-- A thread has run the body of an operation and not given back the lock. -/
def Behind (op : ο) : Phase ο → Prop
  | .signalling other => other = op
  | .leaving => True
  | _ => False

section Behind

variable {m : Monitor τ σ ο κ} {state next : MonitorState τ σ ο} {thread actor : τ} {op : ο}

theorem Behind.holds {phase : Phase ο} (behind : Behind op phase) : phase.holds = true := by
  cases phase with
  | signalling other => rfl
  | leaving => rfl
  | _ => cases behind

theorem Behind.update {phases : τ → Phase ο} (behind : Behind op (phases thread))
    {old : Phase ο} (here : phases actor = old) (outside : ¬ Behind op old) (phase : Phase ο) :
    Behind op (Function.update phases actor phase thread) := by
  have apart : thread ≠ actor := by
    rintro rfl
    exact outside (here ▸ behind)
  rwa [Function.update_of_ne apart]

/-- A thread stays behind its body until it gives back the lock. -/
theorem Behind.step [Fintype τ] [DecidableEq κ] {action : MonitorAction τ ο}
    (behind : Behind op (state.phases thread)) (stepped : m.step state action = some next)
    (stays : action ≠ .unlock thread) : Behind op (next.phases thread) := by
  cases action with
  | call actor _ | interrupt actor | wake actor =>
      simp only [Monitor.step] at stepped
      split at stepped
      · rename_i here
        cases stepped
        exact behind.update here id _
      · cases stepped
  | acquire actor =>
      simp only [Monitor.step] at stepped
      split at stepped
      · rename_i here
        cases stepped
        exact behind.update here id _
      · rename_i here
        cases stepped
        exact behind.update here id _
      · rename_i here
        cases stepped
        exact behind.update here id _
      · cases stepped
  | test actor =>
      simp only [Monitor.step] at stepped
      split at stepped
      · rename_i here
        split at stepped <;> cases stepped <;> exact behind.update here id _
      · cases stepped
  | refuse actor =>
      simp only [Monitor.step] at stepped
      split at stepped
      · rename_i here
        split at stepped
        · cases stepped
          exact behind.update here id _
        · cases stepped
      · cases stepped
  | perform actor =>
      simp only [Monitor.step] at stepped
      split at stepped
      · rename_i here
        cases stepped
        exact behind.update here id _
      · cases stepped
  | unlock actor =>
      have apart : thread ≠ actor := fun same => stays (same ▸ rfl)
      simp only [Monitor.step] at stepped
      split at stepped
      · cases stepped
        change Behind op (Function.update state.phases actor .idle thread)
        rwa [Function.update_of_ne apart]
      · cases stepped
  | signal actor woken =>
      have leaves : Behind op (Function.update state.phases actor .leaving thread) := by
        by_cases same : thread = actor
        · rw [same, Function.update_self]
          exact trivial
        · rwa [Function.update_of_ne same]
      simp only [Monitor.step] at stepped
      split at stepped
      · split at stepped
        · cases stepped
          exact leaves
        · cases stepped
      · rename_i other here
        split at stepped
        · rename_i waiter waits
          split at stepped
          · cases stepped
            have apart : other ≠ actor := by
              rintro rfl
              rw [here] at waits
              cases waits
            exact leaves.update ((Function.update_of_ne apart ..).trans waits) id _
          · cases stepped
        · cases stepped
      · cases stepped

end Behind

/-! ## The completed calls and the shared state -/

/-- A relation between the calls whose bodies have run and the shared state, at the calls
of a ledger: at most one of them, that of the thread with the lock, is not completed. -/
structure Accounted (m : Monitor τ σ ο κ) (holds : List (τ × ο) → σ → Prop)
    (state : MonitorState τ σ ο) (ledger : Ledger τ ο) : Prop where
  exclusive : m.Exclusive state
  behind : ∀ thread op, ledger.pending thread = some op → Behind op (state.phases thread)
  settled : (∀ thread, ledger.pending thread = none) → holds ledger.completed state.shared
  unsettled : ∀ thread op, ledger.pending thread = some op →
    holds (ledger.completed ++ [(thread, op)]) state.shared

section Accounted

variable {m : Monitor τ σ ο κ} {holds : List (τ × ο) → σ → Prop}
  {state next : MonitorState τ σ ο} {ledger : Ledger τ ο} {thread : τ} {op : ο}

omit [DecidableEq τ] in
/-- The thread of a call that is not completed has the lock. -/
theorem Accounted.owner (accounted : Accounted m holds state ledger)
    (pending : ledger.pending thread = some op) : state.owner = some thread :=
  (accounted.exclusive.owner thread).mp (accounted.behind thread op pending).holds

omit [DecidableEq τ] in
/-- While another thread has the lock, or none has it, a call is completed. -/
theorem Accounted.pending_eq_none (accounted : Accounted m holds state ledger)
    (other : state.owner ≠ some thread) : ledger.pending thread = none := by
  cases pending : ledger.pending thread with
  | none => rfl
  | some op => exact absurd (accounted.owner pending) other

omit [DecidableEq τ] in
theorem accounted_init {shared : σ} (initially : holds [] shared) :
    Accounted m holds (init shared) .empty where
  exclusive := exclusive_init shared
  behind := nofun
  settled := fun _ => initially
  unsettled := nofun

variable [Fintype τ] [DecidableEq κ]

/-- Steps that leave the ledger alone. -/
theorem Accounted.keep {action : MonitorAction τ ο} (accounted : Accounted m holds state ledger)
    (stepped : m.step state action = some next) (same : next.shared = state.shared)
    (stays : ∀ thread, action = .unlock thread → ledger.pending thread = none) :
    Accounted m holds next ledger where
  exclusive := accounted.exclusive.step stepped
  behind := by
    intro thread op pending
    refine (accounted.behind thread op pending).step stepped ?_
    intro unlocks
    cases pending.symm.trans (stays thread unlocks)
  settled := by
    rw [same]
    exact accounted.settled
  unsettled := by
    rw [same]
    exact accounted.unsettled

/-- A thread runs a body. -/
theorem Accounted.perform (accounted : Accounted m holds state ledger)
    (keeps : ∀ calls thread op data, m.blocked op data = false → holds calls data →
      holds (calls ++ [(thread, op)]) (m.perform thread op data))
    (here : state.phases thread = .body op)
    (stepped : m.step state (.perform thread) = some next) :
    Accounted m holds next (ledger.perform thread op) := by
  have exclusive := accounted.exclusive
  have owner : state.owner = some thread := (exclusive.owner thread).mp (by rw [here]; rfl)
  have none : ∀ other, ledger.pending other = none := by
    intro other
    cases pending : ledger.pending other with
    | none => rfl
    | some op' =>
        cases owner.symm.trans (accounted.owner pending)
        have behind := accounted.behind thread op' pending
        rw [here] at behind
        cases behind
  have next_eq : next = { state.move thread (.signalling op) with
      shared := m.perform thread op state.shared } := by
    rw [Monitor.step, here] at stepped
    exact (Option.some.inj stepped).symm
  have after := keeps ledger.completed thread op state.shared
    (exclusive.ready thread op here) (accounted.settled none)
  have only : ∀ other op', (ledger.perform thread op).pending other = some op' →
      other = thread ∧ op' = op := by
    intro other op' pending
    by_cases same : other = thread
    · subst same
      have found := (Function.update_self ..).symm.trans pending
      exact ⟨rfl, (Option.some.inj found).symm⟩
    · have found := (Function.update_of_ne same ..).symm.trans pending
      cases (none other).symm.trans found
  constructor
  · exact exclusive.step stepped
  · intro other op' pending
    rcases only other op' pending with ⟨rfl, rfl⟩
    rw [next_eq]
    change Behind op' (Function.update state.phases other (.signalling op') other)
    rw [Function.update_self]
    rfl
  · intro all
    cases (Function.update_self ..).symm.trans (all thread)
  · intro other op' pending
    rcases only other op' pending with ⟨rfl, rfl⟩
    rw [next_eq]
    exact after

/-- A thread returns from a call whose body it has run. -/
theorem Accounted.complete (accounted : Accounted m holds state ledger)
    (pending : ledger.pending thread = some op)
    (stepped : m.step state (.unlock thread) = some next) :
    Accounted m holds next
      ⟨Function.update ledger.pending thread none, ledger.completed ++ [(thread, op)]⟩ := by
  have owner := accounted.owner pending
  have none : ∀ other, Function.update ledger.pending thread none other = none := by
    intro other
    by_cases same : other = thread
    · rw [same, Function.update_self]
    · rw [Function.update_of_ne same]
      refine accounted.pending_eq_none ?_
      rw [owner]
      exact fun found => same (Option.some.inj found).symm
  have same : next.shared = state.shared := by
    rcases shared_cases accounted.exclusive stepped with same | ⟨_, _, performs, _⟩
    · exact same
    · cases performs
  constructor
  · exact accounted.exclusive.step stepped
  · intro other op' found
    cases (none other).symm.trans found
  · intro _
    rw [same]
    exact accounted.unsettled thread op pending
  · intro other op' found
    cases (none other).symm.trans found

theorem Accounted.step {action : MonitorAction τ ο}
    (keeps : ∀ calls thread op data, m.blocked op data = false → holds calls data →
      holds (calls ++ [(thread, op)]) (m.perform thread op data))
    (accounted : Accounted m holds state ledger)
    (stepped : m.step state action = some next) :
    Accounted m holds next (ledger.after state.phases action) := by
  have unchanged : (∀ thread, action ≠ .perform thread) → next.shared = state.shared := by
    intro other
    rcases shared_cases accounted.exclusive stepped with same | ⟨thread, _, performs, _⟩
    · exact same
    · exact absurd performs (other thread)
  cases action with
  | perform thread =>
      have enabled := stepped
      simp only [Monitor.step] at enabled
      split at enabled
      · rename_i op here
        rw [Ledger.after, here]
        exact accounted.perform keeps here stepped
      · cases enabled
  | unlock thread =>
      rw [Ledger.after, Ledger.leave]
      cases pending : ledger.pending thread with
      | none =>
          refine accounted.keep stepped (unchanged fun _ same => by cases same) ?_
          rintro other ⟨⟩
          exact pending
      | some op => exact accounted.complete pending stepped
  | _ =>
      refine accounted.keep stepped (unchanged fun _ same => by cases same) ?_
      intro other unlocks
      cases unlocks

/-- History rule. A relation that every body keeps between the calls so far and the shared
state holds of the completed calls whenever the lock is free. -/
theorem run_completed {shared : σ} {actions : List (MonitorAction τ ο)}
    (initially : holds [] shared)
    (keeps : ∀ calls thread op data, m.blocked op data = false → holds calls data →
      holds (calls ++ [(thread, op)]) (m.perform thread op data))
    (ran : exec m.step (init shared) actions = some state) (free : state.owner = none) :
    holds (m.completed shared actions) state.shared := by
  have same := exec_accountedStep_fst m (init shared) .empty actions
  rw [ran] at same
  rcases Option.map_eq_some_iff.mp same with ⟨⟨final, ledger⟩, recorded, rfl⟩
  have accounted : Accounted m holds final ledger := by
    refine @exec_invariant _ _ (fun both => Accounted m holds both.1 both.2) _ _ _ _
      (accounted_init initially) ?_ recorded
    rintro ⟨before, entries⟩ action ⟨after, later⟩ stepped accounted
    rcases Option.map_eq_some_iff.mp stepped with ⟨next, moved, both⟩
    cases both
    exact accounted.step keeps moved
  rw [completed, recorded]
  refine accounted.settled ?_
  intro thread
  refine accounted.pending_eq_none ?_
  rw [free]
  nofun

end Accounted

end Monitor

end ComputerSystems.Concurrency
