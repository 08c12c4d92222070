import ComputerSystems.ThreadSafeHeap.Threads

/-!
# Stages of a run

A thread that finds `head` to be NULL runs `init_heap` without the mutex. As long as no
thread looks at `head` while another one does so, a run has three stages: no thread has seen
that `head` is NULL, one thread is in `init_heap` and the others wait, and `init_heap` has
run. From then on the calls act on the heap one after the other.
-/

namespace ComputerSystems.ThreadSafeHeap.Threads

open ComputerSystems.Concurrency
open ComputerSystems.Heap (Walk)
open ComputerSystems.Loop
open ComputerSystems.Transition

variable {τ : Type*} [DecidableEq τ]

/-! ## Conditions on a run -/

/-- No thread looks at `head` or goes to free a block while another one is in `init_heap`, and
no block is freed before `init_heap` has run. -/
def Unraced (state : ThreadState τ Shared Point) : Turn τ Request → Prop
  | .call _ _ => True
  | .run thread =>
      ((state.points thread).looks = true → ∀ other, (state.points other).initialising = false) ∧
        ((state.points thread).frees = true → state.shared.head ≠ 0#64)

/-- What is freed once the mutex is taken. -/
def Frees (frees : State → BitVec 64 → Prop) (shared : Shared) : Point → Prop
  | .lockFree ptr => frees shared.heap ptr
  | _ => True

/-- In this turn a thread that takes the mutex frees nothing but what may be freed. -/
def Admitted (frees : State → BitVec 64 → Prop) (state : ThreadState τ Shared Point) :
    Turn τ Request → Prop
  | .call _ _ => True
  | .run thread => state.mutex = none → Frees frees state.shared (state.points thread)

variable {place : Placement} {again : Nat → BitVec 64} {heap : State}
  {frees : State → BitVec 64 → Prop} {state next : ThreadState τ Shared Point}
  {log : CallLog τ Point Request}

/-! ## `init_heap` -/

/-- The parts of `init_heap` in front of one of them. -/
def earlierParts : Part → List Part
  | .mapHead => []
  | .clearPageTab => [.mapHead]
  | .setNext => [.mapHead, .clearPageTab]
  | .setFree => [.mapHead, .clearPageTab, .setNext]
  | .setSize => [.mapHead, .clearPageTab, .setNext, .setFree]

/-- The variables while `init_heap` is about to run one of its parts. -/
def beforePart (place : Placement) (again : Nat → BitVec 64) (heap : State) (part : Part) :
    Shared :=
  (earlierParts part).foldl (initPart place again) ⟨0#64, 0, heap⟩

/-- The variables after `init_heap`. -/
def ready (place : Placement) (heap : State) : Shared := ⟨place.head, 1, initHeap place heap⟩

/-- `init_heap` has run. -/
def Steady (place : Placement) (shared : Shared) : Prop := shared.head = place.head

theorem Steady.head_ne {shared : Shared} (steady : Steady place shared) : shared.head ≠ 0#64 := by
  rw [show shared.head = place.head from steady]
  exact place.notNull

/-! ## Calls before and during `init_heap` -/

/-- The mutex is free; the threads, but for one of them, have not got behind a look at
`head`, and the calls that have returned are none that `init_heap` matters to. -/
structure Waiting (place : Placement) (again : Nat → BitVec 64) (heap : State)
    (frees : State → BitVec 64 → Prop) (but : τ → Prop) (state : ThreadState τ Shared Point)
    (log : CallLog τ Point Request) : Prop where
  free : state.mutex = none
  early : ∀ thread, ¬ but thread → (state.points thread).early = true
  standing : ∀ thread, ¬ but thread →
    (program place again).Standing Point.guarded (Steady place) (state.points thread)
      (log.pending thread)
  returned : (program place again).Consecutive (Frees frees) (ready place heap) log.returned
    (ready place heap)

/-- The three stages of a run. -/
inductive Stage (place : Placement) (again : Nat → BitVec 64) (heap : State)
    (frees : State → BitVec 64 → Prop) (state : ThreadState τ Shared Point)
    (log : CallLog τ Point Request) : Prop
  | unset (shared : state.shared = ⟨0#64, 0, heap⟩)
      (waiting : Waiting place again heap frees (fun _ => False) state log)
  | setting (thread : τ) (part : Part) (bytes : BitVec 64) (request : Request)
      (shared : state.shared = beforePart place again heap part)
      (here : state.points thread = .initHeap part bytes)
      (pending : log.pending thread = some request)
      (arrives : (program place again).Before (Steady place) request (.lockMalloc bytes))
      (waiting : Waiting place again heap frees (fun other => other = thread) state log)
  | set (ordered : (program place again).Ordered Point.guarded (Steady place) (Frees frees)
        (ready place heap) state log)
      (done : ∀ thread, (state.points thread).initialising = false)

section Waiting

variable {but : τ → Prop} {thread : τ}

/-- A thread that waits moves on. -/
theorem Waiting.update (waiting : Waiting place again heap frees but state log) {point : Point}
    {call : Option Request} (early : point.early = true)
    (standing : (program place again).Standing Point.guarded (Steady place) point call)
    {after : CallLog τ Point Request}
    (pending : after.pending = Function.update log.pending thread call)
    (returned : (program place again).Consecutive (Frees frees) (ready place heap) after.returned
      (ready place heap)) :
    Waiting place again heap frees but (state.goto thread point) after where
  free := waiting.free
  early := by
    intro other apart
    by_cases equal : other = thread
    · rw [equal, ThreadState.goto_self]
      exact early
    · rw [ThreadState.goto_of_ne equal]
      exact waiting.early other apart
  standing := by
    intro other apart
    rw [pending]
    by_cases equal : other = thread
    · rw [equal, ThreadState.goto_self, Function.update_self]
      exact standing
    · rw [ThreadState.goto_of_ne equal, Function.update_of_ne equal]
      exact waiting.standing other apart
  returned := returned

/-- A thread that waits makes a call. -/
theorem Waiting.call (waiting : Waiting place again heap frees but state log) (request : Request) :
    Waiting place again heap frees but
      (state.goto thread ((program place again).entry request)) (log.call thread request) := by
  have early : ((program place again).entry request).early = true := by
    cases request <;> rfl
  have standing : (program place again).Standing Point.guarded (Steady place)
      ((program place again).entry request) (some request) := fun _ => .entry request
  exact waiting.update early standing rfl waiting.returned

omit [DecidableEq τ] in
/-- A thread that waits is in a call unless it is outside. -/
theorem Waiting.pending (waiting : Waiting place again heap frees but state log)
    (other : ¬ but thread) (busy : state.points thread ≠ .idle) :
    ∃ request, log.pending thread = some request ∧
      (program place again).Before (Steady place) request (state.points thread) := by
  have standing := waiting.standing thread other
  have early := waiting.early thread other
  cases pending : log.pending thread with
  | none =>
      rw [pending] at standing
      generalize state.points thread = point at standing busy
      cases point with
      | idle => exact absurd rfl busy
      | _ => cases standing
  | some request =>
      rw [pending] at standing
      refine ⟨request, rfl, standing ?_⟩
      generalize state.points thread = point at early
      cases point <;> first | rfl | cases early

/-- A thread that waits looks at the pointer it is to free. -/
theorem Waiting.checkPtr (waiting : Waiting place again heap frees but state log)
    (other : ¬ but thread) {ptr : BitVec 64} (here : state.points thread = .checkPtr ptr) :
    Waiting place again heap frees but
      (state.goto thread (if ptr = 0#64 then .idle else .lockFree ptr))
      ((program place again).note log state
        (state.goto thread (if ptr = 0#64 then .idle else .lockFree ptr)) (.run thread)) := by
  have busy : state.points thread ≠ .idle := by
    rw [here]
    exact Point.noConfusion
  rcases waiting.pending other busy with ⟨request, pending, before⟩
  rw [here] at before
  by_cases null : ptr = 0#64
  · have noted : (program place again).note log state (state.goto thread .idle) (.run thread) =
        log.leave thread request (.checkPtr ptr) := by
      simp only [Program.note, ThreadState.goto_self, pending, here]
      rfl
    have returned : (program place again).Consecutive (Frees frees) (ready place heap)
        (log.leave thread request (.checkPtr ptr)).returned (ready place heap) := by
      apply Program.Consecutive.pass thread request waiting.returned (before _ rfl) rfl trivial
      · rw [if_pos null]
      · rfl
    have outside : (program place again).Standing Point.guarded (Steady place) .idle none := rfl
    rw [if_pos null, noted]
    exact waiting.update rfl outside rfl returned
  · have inside : (program place again).code ((state.goto thread (.lockFree ptr)).points thread) ≠
        none := by
      rw [ThreadState.goto_self]
      exact Option.some_ne_none _
    have arrives : (program place again).Before (Steady place) request (.lockFree ptr) := by
      apply before.other rfl
      intro shared _
      rw [if_neg null]
    have stands : (program place again).Standing Point.guarded (Steady place) (.lockFree ptr)
        (some request) := fun _ => arrives
    rw [if_neg null, Program.note_run_inside inside]
    apply waiting.update rfl stands _ waiting.returned
    rw [← pending, Function.update_eq_self]

end Waiting

/-! ## Steps -/

/-- The threads that wait take a turn only to make a call or to look at a pointer. -/
theorem Waiting.step {but : τ → Prop} {turn : Turn τ Request}
    (waiting : Waiting place again heap frees but state log) (other : ¬ but turn.thread)
    (unseen : ∀ bytes, state.points turn.thread ≠ .checkHead bytes)
    (unfreed : ∀ ptr, state.points turn.thread ≠ .lockFree ptr)
    (stepped : (program place again).step state turn = some next) :
    Waiting place again heap frees but next ((program place again).note log state next turn) ∧
      next.shared = state.shared := by
  have early := waiting.early turn.thread other
  cases turn with
  | call thread request =>
      simp only [Program.step] at stepped
      split at stepped
      · cases stepped
        exact ⟨waiting.call request, rfl⟩
      · cases stepped
  | run thread =>
      rw [Turn.thread] at early other unseen unfreed
      simp only [Program.step] at stepped
      cases here : state.points thread with
      | idle =>
          rw [here] at stepped
          cases stepped
      | checkHead bytes => exact absurd here (unseen bytes)
      | lockFree ptr => exact absurd here (unfreed ptr)
      | checkPtr ptr =>
          rw [here] at stepped
          cases stepped
          exact ⟨waiting.checkPtr other here, rfl⟩
      | _ =>
          rw [here] at early
          cases early

/-- A thread sees that `head` is NULL. -/
theorem Waiting.checkHead {thread : τ} {bytes : BitVec 64}
    (waiting : Waiting place again heap frees (fun _ => False) state log)
    (shared : state.shared = ⟨0#64, 0, heap⟩) (here : state.points thread = .checkHead bytes) :
    Stage place again heap frees (state.goto thread (.initHeap .mapHead bytes)) log := by
  have busy : state.points thread ≠ .idle := by
    rw [here]
    exact Point.noConfusion
  rcases waiting.pending not_false busy with ⟨request, pending, before⟩
  rw [here] at before
  have arrives : (program place again).Before (Steady place) request (.lockMalloc bytes) := by
    apply before.other rfl
    intro shared steady
    rw [if_neg steady.head_ne]
  have others : Waiting place again heap frees (fun other => other = thread)
      (state.goto thread (.initHeap .mapHead bytes)) log := by
    constructor
    · exact waiting.free
    · intro other apart
      rw [ThreadState.goto_of_ne apart]
      exact waiting.early other not_false
    · intro other apart
      rw [ThreadState.goto_of_ne apart]
      exact waiting.standing other not_false
    · exact waiting.returned
  exact .setting thread .mapHead bytes request shared (state.goto_self _ _) pending arrives others

theorem early_outside {point : Point} (early : point.early = true) :
    point.guarded = false ∧ point.initialising = false := by
  cases point <;> first | exact ⟨rfl, rfl⟩ | cases early

/-- The thread in `init_heap` has come to its end. -/
theorem Waiting.set {thread : τ} {bytes : BitVec 64} {request : Request}
    (waiting : Waiting place again heap frees (fun other => other = thread) state log)
    (shared : state.shared = ready place heap) (here : state.points thread = .lockMalloc bytes)
    (pending : log.pending thread = some request)
    (arrives : (program place again).Before (Steady place) request (.lockMalloc bytes)) :
    Stage place again heap frees state log := by
  have outside : ∀ other, (state.points other).guarded = false ∧
      (state.points other).initialising = false := by
    intro other
    by_cases equal : other = thread
    · rw [equal, here]
      exact ⟨rfl, rfl⟩
    · exact early_outside (waiting.early other equal)
  have unheld : ∀ other, state.mutex ≠ some other := by
    rw [waiting.free]
    exact fun other => (Option.some_ne_none other).symm
  refine .set ?_ fun other => (outside other).2
  constructor
  · intro other
    rw [(outside other).1]
    exact iff_of_false Bool.false_ne_true (unheld other)
  · rw [shared]
    exact (rfl : place.head = place.head)
  · intro other
    by_cases equal : other = thread
    · rw [equal, here, pending]
      exact fun _ => arrives
    · exact waiting.standing other equal
  · rw [shared]
    exact fun _ => waiting.returned
  · exact fun other held => absurd held (unheld other)

/-- The thread in `init_heap` goes on with its next part. -/
theorem Waiting.initPart {thread : τ} {part : Part} {bytes : BitVec 64} {request : Request}
    (waiting : Waiting place again heap frees (fun other => other = thread) state log)
    (shared : state.shared = beforePart place again heap part)
    (pending : log.pending thread = some request)
    (arrives : (program place again).Before (Steady place) request (.lockMalloc bytes)) :
    Stage place again heap frees
      { state.goto thread (afterPart bytes part) with
        shared := Threads.initPart place again state.shared part } log := by
  have others : ∀ following, Waiting place again heap frees (fun other => other = thread)
      { state.goto thread (afterPart bytes part) with shared := following } log := by
    intro following
    constructor
    · exact waiting.free
    · intro other apart
      exact (congrArg Point.early (state.goto_of_ne apart)).trans (waiting.early other apart)
    · intro other apart
      dsimp only
      rw [state.goto_of_ne apart]
      exact waiting.standing other apart
    · exact waiting.returned
  have moved := state.goto_self thread (afterPart bytes part)
  rw [shared]
  cases part with
  | mapHead =>
      exact .setting thread .clearPageTab bytes request rfl moved pending arrives (others _)
  | clearPageTab =>
      exact .setting thread .setNext bytes request rfl moved pending arrives (others _)
  | setNext => exact .setting thread .setFree bytes request rfl moved pending arrives (others _)
  | setFree => exact .setting thread .setSize bytes request rfl moved pending arrives (others _)
  | setSize => exact (others (ready place heap)).set rfl moved pending arrives

omit [DecidableEq τ] in
/-- Once `init_heap` has run, every call looks around and then keeps to its section. -/
theorem prepared {turn : Turn τ Request} (steady : Steady place state.shared)
    (done : ∀ thread, (state.points thread).initialising = false)
    (admitted : Admitted frees state turn) :
    (program place again).Prepared Point.guarded (Steady place) (Frees frees) state turn := by
  cases turn with
  | call thread request => trivial
  | run thread =>
      have here := done thread
      rw [Admitted] at admitted
      simp only [Program.Prepared]
      split
      · trivial
      · exact admitted
      · rename_i following code
        cases point : state.points thread with
        | unlockMalloc result | unlockFree =>
            rw [point] at code
            cases code
            exact ⟨rfl, rfl⟩
        | _ =>
            rw [point] at code
            cases code
      · rename_i effect code
        exact ⟨guarded_of_access code, fun result ran => (access_guarded code ran).2.trans steady⟩
      · rename_i effect code
        cases point : state.points thread with
        | checkHead bytes =>
            rw [point] at code
            cases code
            refine ⟨rfl, ⟨.lockMalloc bytes, fun shared steady => ?_⟩, fun _ _ => trivial⟩
            dsimp only
            rw [if_neg steady.head_ne]
        | initHeap part bytes =>
            rw [point] at here
            cases here
        | checkPtr ptr =>
            rw [point] at code
            cases code
            exact ⟨rfl, ⟨_, fun _ _ => rfl⟩, fun _ _ => trivial⟩
        | _ =>
            rw [point] at code
            cases code

/-- No thread enters `init_heap` once it has run. -/
theorem done_step {turn : Turn τ Request} (steady : Steady place state.shared)
    (done : ∀ thread, (state.points thread).initialising = false)
    (stepped : (program place again).step state turn = some next) (thread : τ) :
    (next.points thread).initialising = false := by
  have inside : ∀ point : Point, point.guarded = true → point.initialising = false := by
    intro point guarded
    cases point <;> first | rfl | cases guarded
  rcases Program.step_leads stepped with ⟨leads, others⟩
  by_cases same : thread = turn.thread
  · have here := done turn.thread
    rw [same]
    generalize state.points turn.thread = point at leads here
    generalize next.points turn.thread = following at leads
    simp only [Program.Leads] at leads
    split at leads
    · rcases leads with ⟨request, rfl⟩
      cases request <;> rfl
    · rename_i code
      rw [leads]
      exact inside _ ((guards place again).acquire _ _ code)
    · rename_i code
      cases point with
      | unlockMalloc _ | unlockFree =>
          cases code
          rw [leads]
          rfl
      | _ => cases code
    · rename_i effect code
      rcases leads with ⟨written, ran⟩
      exact inside _ (access_guarded code ran).1
    · rename_i effect code
      rcases leads with ⟨written, ran⟩
      cases point with
      | checkHead bytes =>
          cases code
          dsimp only at ran
          rw [if_neg steady.head_ne] at ran
          cases ran
          rfl
      | initHeap part bytes => cases here
      | checkPtr ptr =>
          cases code
          cases ran
          split <;> rfl
      | _ => cases code
  · rw [others thread same]
    exact done thread

/-- A thread in a call takes a turn by going on with it. -/
theorem turn_eq_run {turn : Turn τ Request} (busy : state.points turn.thread ≠ .idle)
    (stepped : (program place again).step state turn = some next) : turn = .run turn.thread := by
  cases turn with
  | call thread request =>
      simp only [Program.step] at stepped
      split at stepped
      · rename_i outside
        rw [Turn.thread] at busy
        generalize state.points thread = point at outside busy
        cases point with
        | idle => exact absurd rfl busy
        | _ => cases outside
      · cases stepped
  | run thread => rfl

/-- Step lemma. -/
theorem Stage.step {turn : Turn τ Request} (stage : Stage place again heap frees state log)
    (unraced : Unraced state turn) (admitted : Admitted frees state turn)
    (stepped : (program place again).step state turn = some next) :
    Stage place again heap frees next ((program place again).note log state next turn) := by
  have busy : ∀ {point : Point}, point ≠ .idle → state.points turn.thread = point →
      turn = .run turn.thread := by
    rintro point apart rfl
    exact turn_eq_run apart stepped
  cases stage with
  | unset shared waiting =>
      by_cases looks : ∃ bytes, state.points turn.thread = .checkHead bytes
      · rcases looks with ⟨bytes, here⟩
        have running := busy Point.noConfusion here
        generalize turn.thread = thread at here running
        subst running
        rw [Program.step, here] at stepped
        have null : state.shared.head = 0#64 := congrArg Shared.head shared
        have moved : next = state.goto thread (.initHeap .mapHead bytes) := by
          rw [← Option.some.inj stepped, null, if_pos rfl]
          rfl
        have inside : (program place again).code (next.points thread) ≠ none := by
          rw [moved, state.goto_self]
          exact Option.some_ne_none _
        rw [Program.note_run_inside inside, moved]
        exact waiting.checkHead shared here
      · have unfreed : ∀ ptr, state.points turn.thread ≠ .lockFree ptr := by
          intro ptr here
          rw [busy Point.noConfusion here, Unraced, here] at unraced
          exact unraced.2 rfl (congrArg Shared.head shared)
        rcases waiting.step not_false (not_exists.mp looks) unfreed stepped with ⟨after, same⟩
        exact .unset (same.trans shared) after
  | setting thread part bytes request shared here pending arrives waiting =>
      have initialising : (state.points thread).initialising = true := by
        rw [here]
        rfl
      by_cases same : turn.thread = thread
      · rw [← same] at here pending waiting
        have running := busy Point.noConfusion here
        generalize turn.thread = thread at here pending waiting running
        subst running
        rw [Program.step, here] at stepped
        have moved : next = { state.goto thread (afterPart bytes part) with
            shared := initPart place again state.shared part } := (Option.some.inj stepped).symm
        have inside : (program place again).code (next.points thread) ≠ none := by
          rw [moved, show _ = afterPart bytes part from state.goto_self _ _]
          cases part <;> exact Option.some_ne_none _
        rw [Program.note_run_inside inside, moved]
        exact waiting.initPart shared pending arrives
      · have unseen : ∀ bytes, state.points turn.thread ≠ .checkHead bytes := by
          intro bytes look
          rw [busy Point.noConfusion look, Unraced, look] at unraced
          exact Bool.false_ne_true ((unraced.1 rfl thread).symm.trans initialising)
        have unfreed : ∀ ptr, state.points turn.thread ≠ .lockFree ptr := by
          intro ptr look
          rw [busy Point.noConfusion look, Unraced, look] at unraced
          exact Bool.false_ne_true ((unraced.1 rfl thread).symm.trans initialising)
        rcases waiting.step same unseen unfreed stepped with ⟨after, kept⟩
        have apart := Ne.symm same
        exact .setting thread part bytes request (kept.trans shared)
          (((Program.step_leads stepped).2 thread apart).trans here)
          ((Program.pending_note_of_ne apart).trans pending) arrives after
  | set ordered done =>
      have ready := @prepared _ place again _ _ _ ordered.calm done admitted
      exact .set (ordered.step (guards place again) ready stepped)
        (done_step ordered.calm done stepped)

omit [DecidableEq τ] in
theorem stage_start (place : Placement) (again : Nat → BitVec 64) (heap : State)
    (frees : State → BitVec 64 → Prop) :
    Stage place again heap frees (start heap : ThreadState τ Shared Point) .empty := by
  apply Stage.unset rfl
  constructor
  · rfl
  · exact fun _ _ => rfl
  · exact fun _ _ => rfl
  · exact .nil

/-- The conditions on a turn. -/
def Allowed (frees : State → BitVec 64 → Prop) (state : ThreadState τ Shared Point)
    (turn : Turn τ Request) : Prop :=
  Unraced state turn ∧ Admitted frees state turn

/-- Run lemma. -/
theorem Stage.exec {turns : List (Turn τ Request)} {after : CallLog τ Point Request}
    (stage : Stage place again heap frees state log)
    (allowed : EveryStep (program place again).step (Allowed frees) state turns)
    (ran : exec (program place again).loggedStep (state, log) turns = some (next, after)) :
    Stage place again heap frees next after := by
  induction turns generalizing state log with
  | nil =>
      cases ran
      exact stage
  | cons turn rest ih =>
      rcases Option.bind_eq_some_iff.mp ran with ⟨both, logged, continued⟩
      rcases Option.map_eq_some_iff.mp logged with ⟨following, stepped, rfl⟩
      have met := allowed.1
      exact ih (stage.step met.1 met.2 stepped) (allowed.2 following stepped) continued

end ComputerSystems.ThreadSafeHeap.Threads
