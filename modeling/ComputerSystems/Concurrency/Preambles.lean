import ComputerSystems.Concurrency.Calls

/-!
# Calls that look around first

Where a call uses the shared memory only while it holds the mutex, and returns as it gives it
back, the calls of all threads line up: whenever the mutex is free, the memory is what the
calls that have returned make of it when each of them runs alone, one after the other in the
order in which they returned. A call can also read the memory before it takes the mutex, and
return without taking it. As long as the memory is steady, which is to say that what the calls
find there does not change, this makes no difference.
-/

namespace ComputerSystems.Concurrency

open ComputerSystems.Transition

variable {τ σ π ο : Type*} [DecidableEq τ]

theorem ThreadState.goto_self (state : ThreadState τ σ π) (thread : τ) (point : π) :
    (state.goto thread point).points thread = point :=
  Function.update_self _ _ _

theorem ThreadState.goto_of_ne {state : ThreadState τ σ π} {thread other : τ} {point : π}
    (apart : other ≠ thread) : (state.goto thread point).points other = state.points other :=
  Function.update_of_ne apart _ _

namespace Program

section Definitions

variable (program : Program σ π ο) (guarded : π → Bool) (steady : σ → Prop)
  (admits : σ → π → Prop)

/-- A call that has not taken the mutex comes to a point from any steady memory, which it
leaves alone. -/
def Before (op : ο) (point : π) : Prop :=
  ∀ shared, steady shared → program.Alone (shared, program.entry op) (shared, point)

/-- In this turn a thread takes the mutex where that is admitted, uses the memory with the
mutex, returns from its call, or looks at a steady memory where that is admitted. -/
def Prepared (state : ThreadState τ σ π) : Turn τ ο → Prop
  | .call _ _ => True
  | .run thread =>
      match program.code (state.points thread) with
      | none => True
      | some (.acquire _) => state.mutex = none → admits state.shared (state.points thread)
      | some (.release next) =>
          guarded (state.points thread) = true ∧ program.code next = none
      | some (.access effect) => guarded (state.points thread) = true ∧
          ∀ result, effect state.shared = some result → steady result.1
      | some (.other effect) => guarded (state.points thread) = false ∧
          (∃ next, ∀ shared, steady shared → effect shared = some (shared, next)) ∧
          ∀ shared, steady shared → admits shared (state.points thread)

/-- Calls one after the other, each of which runs alone: it returns before it takes the
mutex, or it takes the mutex and returns as it gives it back, where that is admitted. -/
inductive Consecutive (start : σ) : List (τ × ο × π) → σ → Prop
  | nil : Consecutive start [] start
  | pass {calls : List (τ × ο × π)} {before : σ} {point next : π} {effect : σ → Option (σ × π)}
      (thread : τ) (op : ο) (earlier : Consecutive start calls before)
      (arrives : program.Alone (before, program.entry op) (before, point))
      (looks : program.code point = some (.other effect)) (admitted : admits before point)
      (leaves : effect before = some (before, next)) (outside : program.code next = none) :
      Consecutive start (calls ++ [(thread, op, point)]) before
  | hold {calls : List (τ × ο × π)} {before after : σ} {entrance inside point next : π}
      (thread : τ) (op : ο) (earlier : Consecutive start calls before)
      (arrives : program.Alone (before, program.entry op) (before, entrance))
      (enters : program.code entrance = some (.acquire inside))
      (admitted : admits before entrance)
      (runs : program.Alone (before, inside) (after, point))
      (releases : program.code point = some (.release next)) (outside : program.code next = none) :
      Consecutive start (calls ++ [(thread, op, point)]) after

/-- A thread is outside while it is in no call; in a call it has only looked around until
it has the mutex. -/
def Standing (point : π) : Option ο → Prop
  | none => program.code point = none
  | some op => guarded point = false → program.Before steady op point

/-- While the mutex is free the memory is that of the calls that have returned; while a
thread has it, that thread has come so far from there alone. -/
structure Ordered (start : σ) (state : ThreadState τ σ π) (log : CallLog τ π ο) : Prop where
  owned : Owned guarded state
  calm : steady state.shared
  standing : ∀ thread,
    program.Standing guarded steady (state.points thread) (log.pending thread)
  settled : state.mutex = none → program.Consecutive admits start log.returned state.shared
  unsettled : ∀ thread, state.mutex = some thread → ∃ op before entrance inside,
    log.pending thread = some op ∧ steady before ∧
      program.Consecutive admits start log.returned before ∧
      program.Alone (before, program.entry op) (before, entrance) ∧
      program.code entrance = some (.acquire inside) ∧ admits before entrance ∧
      program.Alone (before, inside) (state.shared, state.points thread)

end Definitions

variable {program : Program σ π ο} {guarded : π → Bool} {steady : σ → Prop}
  {admits : σ → π → Prop} {start : σ} {state next : ThreadState τ σ π} {log : CallLog τ π ο}
  {thread : τ}

omit [DecidableEq τ] in
theorem Before.entry (op : ο) : program.Before steady op (program.entry op) :=
  fun _ _ => .refl

omit [DecidableEq τ] in
/-- A look at a steady memory leads on. -/
theorem Before.other {op : ο} {point following : π} {effect : σ → Option (σ × π)}
    (before : program.Before steady op point) (code : program.code point = some (.other effect))
    (looks : ∀ shared, steady shared → effect shared = some (shared, following)) :
    program.Before steady op following := by
  intro shared calm
  apply (before shared calm).tail
  simp [advance, code, looks shared calm]

/-- One thread moves and may enter or leave a call. -/
theorem standing_update {points : τ → π} {pending : τ → Option ο} {point : π} {call : Option ο}
    (standing : ∀ other, program.Standing guarded steady (points other) (pending other))
    (here : program.Standing guarded steady point call) (other : τ) :
    program.Standing guarded steady (Function.update points thread point other)
      (Function.update pending thread call other) := by
  by_cases equal : other = thread
  · subst equal
    simpa only [Function.update_self] using here
  · simpa only [Function.update_of_ne equal] using standing other

/-- One thread moves and stays in its call. -/
theorem standing_goto {points : τ → π} {pending : τ → Option ο} {point : π} {op : ο}
    (standing : ∀ other, program.Standing guarded steady (points other) (pending other))
    (call : pending thread = some op)
    (here : guarded point = false → program.Before steady op point) (other : τ) :
    program.Standing guarded steady (Function.update points thread point other)
      (pending other) := by
  have moved := @standing_update _ _ _ _ _ program guarded steady thread points pending point
    (some op) standing here other
  rwa [← call, Function.update_eq_self] at moved

omit [DecidableEq τ] in
theorem Ordered.init {idle : π} (guards : program.Guards guarded)
    (outside : program.code idle = none) {shared : σ} (calm : steady shared) :
    program.Ordered guarded steady admits shared (init idle shared : ThreadState τ σ π)
      .empty where
  owned := owned_init (guards.outside idle outside) shared
  calm := calm
  standing := fun _ => outside
  settled := fun _ => .nil
  unsettled := by
    intro thread held
    cases held

omit [DecidableEq τ] in
/-- A thread that is not outside is in a call. -/
theorem Ordered.pending (ordered : program.Ordered guarded steady admits start state log)
    (busy : program.code (state.points thread) ≠ none) : ∃ op, log.pending thread = some op := by
  have standing := ordered.standing thread
  cases pending : log.pending thread with
  | none =>
      rw [pending] at standing
      exact absurd standing busy
  | some op => exact ⟨op, rfl⟩

omit [DecidableEq τ] in
/-- What a thread in a call has done before it takes the mutex. -/
theorem Ordered.before (ordered : program.Ordered guarded steady admits start state log) {op : ο}
    (pending : log.pending thread = some op) (unguarded : guarded (state.points thread) = false) :
    program.Before steady op (state.points thread) := by
  have standing := ordered.standing thread
  rw [pending] at standing
  exact standing unguarded

omit [DecidableEq τ] in
/-- A thread at an unguarded point has not got the mutex. -/
theorem Ordered.apart (ordered : program.Ordered guarded steady admits start state log)
    (unguarded : guarded (state.points thread) = false) {holder : τ}
    (held : state.mutex = some holder) : holder ≠ thread := by
  rintro rfl
  have inside := (ordered.owned holder).mpr held
  rw [unguarded] at inside
  cases inside

/-- A turn says nothing of the calls of the other threads. -/
theorem pending_note_of_ne {turn : Turn τ ο} {other : τ} (apart : other ≠ turn.thread) :
    (program.note log state next turn).pending other = log.pending other := by
  cases turn with
  | call thread op => exact Function.update_of_ne apart _ _
  | run thread =>
      simp only [note]
      split
      · exact Function.update_of_ne apart _ _
      · rfl

/-- A thread outside calls an operation. -/
theorem Ordered.call (ordered : program.Ordered guarded steady admits start state log)
    (guards : program.Guards guarded) (here : program.code (state.points thread) = none) (op : ο) :
    program.Ordered guarded steady admits start (state.goto thread (program.entry op))
      (log.call thread op) := by
  have unguarded := guards.outside _ here
  constructor
  · have same : guarded (program.entry op) = guarded (state.points thread) := by
      rw [guards.entry, unguarded]
    exact ordered.owned.goto same
  · exact ordered.calm
  · exact standing_update ordered.standing fun _ => .entry op
  · exact ordered.settled
  · intro holder held
    have apart := ordered.apart unguarded held
    rcases ordered.unsettled holder held with ⟨called, before, entrance, inside, pending, rest⟩
    refine ⟨called, before, entrance, inside, ?_, ?_⟩
    · simpa only [CallLog.call, Function.update_of_ne apart] using pending
    · simpa only [CallLog.call, ThreadState.goto, Function.update_of_ne apart] using rest

/-- A thread takes the mutex. -/
theorem Ordered.acquire (ordered : program.Ordered guarded steady admits start state log)
    (guards : program.Guards guarded) {point : π}
    (code : program.code (state.points thread) = some (.acquire point))
    (free : state.mutex = none) (admitted : admits state.shared (state.points thread)) :
    program.Ordered guarded steady admits start
      { state.goto thread point with mutex := thread } log := by
  have inside := guards.acquire _ _ code
  rcases ordered.pending (code ▸ Option.some_ne_none _) with ⟨op, pending⟩
  constructor
  · exact ordered.owned.acquire free inside
  · exact ordered.calm
  · apply standing_goto ordered.standing pending
    intro outside
    rw [inside] at outside
    cases outside
  · intro released
    cases released
  · intro holder held
    cases held
    have unguarded : guarded (state.points thread) = false := by
      rw [Bool.eq_false_iff, Ne, ordered.owned thread, free]
      exact (Option.some_ne_none thread).symm
    have arrives := ordered.before pending unguarded state.shared ordered.calm
    refine ⟨op, state.shared, _, point, pending, ordered.calm, ordered.settled free, arrives,
      code, admitted, ?_⟩
    dsimp only
    rw [ThreadState.goto_self]
    exact .refl

/-- The thread with the mutex uses the memory. -/
theorem Ordered.access (ordered : program.Ordered guarded steady admits start state log)
    (guards : program.Guards guarded) {effect : σ → Option (σ × π)} {result : σ × π}
    (code : program.code (state.points thread) = some (.access effect))
    (inside : guarded (state.points thread) = true) (ran : effect state.shared = some result)
    (calm : steady result.1) :
    program.Ordered guarded steady admits start
      { state.goto thread result.2 with shared := result.1 } log := by
  have held := (ordered.owned thread).mp inside
  have stays := guards.access _ _ _ _ code ran
  rcases ordered.unsettled thread held with
    ⟨op, before, entrance, point, pending, was, earlier, arrives, enters, admitted, runs⟩
  constructor
  · exact ordered.owned.goto stays
  · exact calm
  · apply standing_goto ordered.standing pending
    intro outside
    rw [stays, inside] at outside
    cases outside
  · intro free
    cases held.symm.trans free
  · intro holder also
    cases held.symm.trans also
    refine ⟨op, before, entrance, point, pending, was, earlier, arrives, enters, admitted,
      runs.tail ?_⟩
    simp [advance, code, ran, ThreadState.goto]

/-- The thread with the mutex gives it back and returns. -/
theorem Ordered.release (ordered : program.Ordered guarded steady admits start state log)
    (guards : program.Guards guarded) {point : π} {op : ο}
    (code : program.code (state.points thread) = some (.release point))
    (inside : guarded (state.points thread) = true) (outside : program.code point = none)
    (pending : log.pending thread = some op) :
    program.Ordered guarded steady admits start { state.goto thread point with mutex := none }
      (log.leave thread op (state.points thread)) := by
  have held := (ordered.owned thread).mp inside
  constructor
  · exact ordered.owned.release (guards.outside _ outside) (Or.inl inside)
  · exact ordered.calm
  · exact standing_update ordered.standing outside
  · intro _
    rcases ordered.unsettled thread held with
      ⟨called, before, entrance, first, same, _, earlier, arrives, enters, admitted, runs⟩
    cases pending.symm.trans same
    exact .hold thread op earlier arrives enters admitted runs code outside
  · intro holder also
    cases also

/-- A thread without the mutex looks at the memory and goes on with its call. -/
theorem Ordered.look (ordered : program.Ordered guarded steady admits start state log)
    (guards : program.Guards guarded) {effect : σ → Option (σ × π)} {point : π}
    (code : program.code (state.points thread) = some (.other effect))
    (unguarded : guarded (state.points thread) = false)
    (looks : ∀ shared, steady shared → effect shared = some (shared, point)) :
    program.Ordered guarded steady admits start (state.goto thread point) log := by
  have stays := guards.other _ _ _ _ code (looks _ ordered.calm)
  rcases ordered.pending (code ▸ Option.some_ne_none _) with ⟨op, pending⟩
  constructor
  · exact ordered.owned.goto stays
  · exact ordered.calm
  · exact standing_goto ordered.standing pending fun _ =>
      (ordered.before pending unguarded).other code looks
  · exact ordered.settled
  · intro holder held
    rcases ordered.unsettled holder held with ⟨called, before, entrance, inside, rest⟩
    refine ⟨called, before, entrance, inside, ?_⟩
    simpa only [ThreadState.goto, Function.update_of_ne (ordered.apart unguarded held)] using rest

/-- A thread without the mutex looks at the memory and returns. -/
theorem Ordered.leave (ordered : program.Ordered guarded steady admits start state log)
    (guards : program.Guards guarded) {effect : σ → Option (σ × π)} {point : π} {op : ο}
    (code : program.code (state.points thread) = some (.other effect))
    (unguarded : guarded (state.points thread) = false)
    (looks : ∀ shared, steady shared → effect shared = some (shared, point))
    (admitted : ∀ shared, steady shared → admits shared (state.points thread))
    (outside : program.code point = none) (pending : log.pending thread = some op) :
    program.Ordered guarded steady admits start (state.goto thread point)
      (log.leave thread op (state.points thread)) := by
  have stays := guards.other _ _ _ _ code (looks _ ordered.calm)
  have arrives := ordered.before pending unguarded
  constructor
  · exact ordered.owned.goto stays
  · exact ordered.calm
  · exact standing_update ordered.standing outside
  · intro free
    exact .pass thread op (ordered.settled free) (arrives _ ordered.calm) code
      (admitted _ ordered.calm) (looks _ ordered.calm) outside
  · intro holder held
    have apart := ordered.apart unguarded held
    rcases ordered.unsettled holder held with
      ⟨called, before, entrance, inside, same, was, earlier, rest⟩
    refine ⟨called, before, entrance, inside, ?_, was, ?_, ?_⟩
    · simpa only [CallLog.leave, Function.update_of_ne apart] using same
    · exact .pass thread op earlier (arrives _ was) code (admitted _ was) (looks _ was) outside
    · simpa only [ThreadState.goto, Function.update_of_ne apart] using rest

/-- Step lemma. -/
theorem Ordered.step {turn : Turn τ ο}
    (ordered : program.Ordered guarded steady admits start state log)
    (guards : program.Guards guarded)
    (prepared : program.Prepared guarded steady admits state turn)
    (stepped : program.step state turn = some next) :
    program.Ordered guarded steady admits start next (program.note log state next turn) := by
  have busy : ∀ point, guarded point = true → program.code point ≠ none := by
    intro point inside outside
    exact Bool.false_ne_true ((guards.outside point outside).symm.trans inside)
  cases turn with
  | call thread op =>
      simp only [Program.step] at stepped
      split at stepped
      · rename_i here
        cases stepped
        exact ordered.call guards here op
      · cases stepped
  | run thread =>
      have moved := state.goto_self thread
      simp only [Program.step] at stepped
      simp only [Prepared] at prepared
      split at stepped
      · cases stepped
      · rename_i point code
        rw [code] at prepared
        split at stepped
        · rename_i free
          cases stepped
          have after := busy point (guards.acquire _ _ code)
          rw [note_run_inside (by simpa only [moved] using after)]
          have unheld := Option.isNone_iff_eq_none.mp free
          exact ordered.acquire guards code unheld (prepared unheld)
        · cases stepped
      · rename_i point code
        cases stepped
        rw [code] at prepared
        rcases prepared with ⟨inside, outside⟩
        rcases ordered.pending (busy _ inside) with ⟨op, pending⟩
        simp only [note, moved, outside, pending]
        exact ordered.release guards code inside outside pending
      · rename_i effect code
        rw [code] at prepared
        rcases prepared with ⟨inside, calm⟩
        rcases Option.map_eq_some_iff.mp stepped with ⟨result, ran, rfl⟩
        have after := busy result.2 ((guards.access _ _ _ _ code ran).trans inside)
        rw [note_run_inside (by simpa only [moved] using after)]
        exact ordered.access guards code inside ran (calm result ran)
      · rename_i effect code
        rw [code] at prepared
        rcases prepared with ⟨unguarded, ⟨point, looks⟩, admitted⟩
        rcases Option.map_eq_some_iff.mp stepped with ⟨result, ran, rfl⟩
        cases (looks _ ordered.calm).symm.trans ran
        rcases ordered.pending (code ▸ Option.some_ne_none _) with ⟨op, pending⟩
        cases outside : program.code point with
        | none =>
            simp only [note, moved, outside, pending]
            exact ordered.leave guards code unguarded looks admitted outside pending
        | some instruction =>
            rw [note_run_inside (by simp only [moved, outside, ne_eq, reduceCtorEq,
              not_false_eq_true])]
            exact ordered.look guards code unguarded looks

/-- Run lemma. -/
theorem Ordered.exec {log' : CallLog τ π ο} {turns : List (Turn τ ο)}
    (ordered : program.Ordered guarded steady admits start state log)
    (guards : program.Guards guarded)
    (prepared : EveryStep program.step (program.Prepared guarded steady admits) state turns)
    (ran : exec program.loggedStep (state, log) turns = some (next, log')) :
    program.Ordered guarded steady admits start next log' := by
  induction turns generalizing state log with
  | nil =>
      cases ran
      exact ordered
  | cons turn rest ih =>
      rcases Option.bind_eq_some_iff.mp ran with ⟨both, logged, continued⟩
      rcases Option.map_eq_some_iff.mp logged with ⟨following, stepped, rfl⟩
      exact ih (ordered.step guards prepared.1 stepped) (prepared.2 following stepped) continued

end Program

end ComputerSystems.Concurrency
