import ComputerSystems.ThreadSafeHeap.Stages

/-!
# Interleaved calls of the heap

The calls of any number of threads act on the heap one after the other, as long as no
thread looks at `head` while another one is still in `init_heap`. So whatever the
interleaving, the block list tiles the region while no thread has the mutex.
-/

namespace ComputerSystems.ThreadSafeHeap.Threads

open ComputerSystems.Concurrency
open ComputerSystems.Heap (Walk)
open ComputerSystems.Loop
open ComputerSystems.Transition

/-- Calls of the two functions, one after the other, with the live allocations. -/
inductive OneByOne {τ : Type*} (place : Placement) (frees : State → BitVec 64 → Prop)
    (start : State) : List (τ × Request × Point) → List Allocation → State → Prop
  | nil : OneByOne place frees start [] [] (initHeap place start)
  | malloc {calls : List (τ × Request × Point)} {live : List Allocation} {before after : State}
      (thread : τ) (bytes ptr : BitVec 64) (earlier : OneByOne place frees start calls live before)
      (returns : Completes (threadSafeMalloc place before bytes) (after, ptr)) :
      OneByOne place frees start (calls ++ [(thread, .malloc bytes, .unlockMalloc ptr)])
        (allocated live bytes ptr) after
  | free {calls : List (τ × Request × Point)} {live : List Allocation} {before after : State}
      (thread : τ) (ptr : BitVec 64) (point : Point)
      (earlier : OneByOne place frees start calls live before)
      (allowed : ptr = 0#64 ∨ frees before ptr) (returns : threadSafeFree before ptr = some after) :
      OneByOne place frees start (calls ++ [(thread, .free ptr, point)]) (released live ptr) after

variable {τ : Type*} {place : Placement} {again : Nat → BitVec 64} {heap : State}
  {frees : State → BitVec 64 → Prop}

/-! ## A call alone -/

/-- How far a call has come that started after `init_heap`. -/
inductive Reached (place : Placement) (before : Shared) : Request → Shared × Point → Prop
  | checkHead (bytes : BitVec 64) :
      Reached place before (.malloc bytes) (before, .checkHead bytes)
  | lockMalloc (bytes : BitVec 64) :
      Reached place before (.malloc bytes) (before, .lockMalloc bytes)
  | readHead (bytes : BitVec 64) : Reached place before (.malloc bytes) (before, .readHead bytes)
  | search (bytes curr : BitVec 64)
      (visits : Visits (searchBody before.heap.memory bytes) place.head curr) :
      Reached place before (.malloc bytes) (before, .search bytes curr)
  | allocate (bytes curr : BitVec 64)
      (found : Completes (fun fuel => loop (searchBody before.heap.memory bytes) fuel place.head)
        curr) :
      Reached place before (.malloc bytes) (before, .allocate bytes curr)
  | enterPage (bytes curr result : BitVec 64) (memory : Memory)
      (found : Completes (fun fuel => loop (searchBody before.heap.memory bytes) fuel place.head)
        curr) (some : curr ≠ 0#64)
      (taken : allocateAt before.heap.memory bytes curr = (memory, result))
      (set : result ≠ 0#64) :
      Reached place before (.malloc bytes)
        ({ before with heap := { before.heap with memory } }, .enterPage bytes result)
  | unlockMalloc (bytes result : BitVec 64) (heap : State)
      (returns : Completes (threadSafeMalloc place before.heap bytes) (heap, result)) :
      Reached place before (.malloc bytes) ({ before with heap }, .unlockMalloc result)
  | checkPtr (ptr : BitVec 64) : Reached place before (.free ptr) (before, .checkPtr ptr)
  | lockFree (ptr : BitVec 64) (set : ptr ≠ 0#64) :
      Reached place before (.free ptr) (before, .lockFree ptr)
  | saveDirty (ptr : BitVec 64) (set : ptr ≠ 0#64) :
      Reached place before (.free ptr) (before, .saveDirty ptr)
  | removePage (ptr : BitVec 64) (heap : State) (set : ptr ≠ 0#64)
      (saved : saveDirty before.heap (ptr - sizeofBlock) = some heap) :
      Reached place before (.free ptr) ({ before with heap }, .removePage ptr)
  | markFree (ptr : BitVec 64) (heap : State) (set : ptr ≠ 0#64)
      (saved : saveDirty before.heap (ptr - sizeofBlock) = some heap) :
      Reached place before (.free ptr)
        ({ before with heap := removePage heap (ptr - sizeofBlock) }, .markFree ptr)
  | unlockFree (ptr : BitVec 64) (heap : State) (set : ptr ≠ 0#64)
      (returns : threadSafeFree before.heap ptr = some heap) :
      Reached place before (.free ptr) ({ before with heap }, .unlockFree)
  | idle (request : Request) (shared : Shared) : Reached place before request (shared, .idle)

variable {before : Shared} {request : Request}

theorem reached_entry (request : Request) :
    Reached place before request (before, (program place again).entry request) := by
  cases request with
  | malloc bytes => exact .checkHead bytes
  | free ptr => exact .checkPtr ptr

theorem threadSafeMalloc_of_search {bytes curr : BitVec 64}
    (found : Completes (fun fuel => loop (searchBody before.heap.memory bytes) fuel place.head)
      curr) :
    Completes (threadSafeMalloc place before.heap bytes) (finish place before.heap bytes curr) := by
  unfold threadSafeMalloc
  exact found.map _

theorem Reached.advance {now next : Shared × Point} (steady : Steady place before)
    (reached : Reached place before request now)
    (advanced : (program place again).advance now = some next) :
    Reached place before request next := by
  cases reached with
  | checkHead bytes =>
      simp only [Program.advance, program, code, if_neg steady.head_ne] at advanced
      cases advanced
      exact .lockMalloc bytes
  | lockMalloc bytes =>
      cases advanced
      exact .readHead bytes
  | readHead bytes =>
      cases advanced
      have visits : Visits (searchBody before.heap.memory bytes) place.head before.head := by
        rw [show before.head = place.head from steady]
        exact .refl
      exact .search bytes _ visits
  | search bytes curr visits =>
      simp only [Program.advance, program, code, searchStep] at advanced
      split at advanced
      · rename_i following steps
        cases advanced
        exact .search bytes following (visits.tail steps)
      · rename_i exits
        cases advanced
        exact .allocate bytes curr (visits.completes exits)
      · cases advanced
  | allocate bytes curr found =>
      have returns := threadSafeMalloc_of_search found
      simp only [Program.advance, program, code, allocateStep] at advanced
      rw [finish] at returns
      split at advanced
      · rename_i null
        cases advanced
        rw [if_pos null] at returns
        exact .unlockMalloc bytes 0#64 _ returns
      · rename_i some
        rw [if_neg some] at returns
        cases taken : allocateAt before.heap.memory bytes curr with
        | mk memory result =>
            rw [taken] at advanced returns
            dsimp only at advanced returns
            split at advanced
            · rename_i null
              cases advanced
              rw [if_pos null] at returns
              exact .unlockMalloc bytes 0#64 _ returns
            · rename_i set
              cases advanced
              exact .enterPage bytes curr result memory found some taken set
  | enterPage bytes curr result memory found some taken set =>
      have returns := threadSafeMalloc_of_search found
      rw [finish, if_neg some, taken] at returns
      dsimp only at returns
      rw [if_neg set] at returns
      cases advanced
      exact .unlockMalloc bytes result _ returns
  | unlockMalloc bytes result heap returns =>
      cases advanced
      exact .idle _ _
  | checkPtr ptr =>
      simp only [Program.advance, program, code] at advanced
      cases advanced
      split
      · exact .idle _ _
      · rename_i set
        exact .lockFree ptr set
  | lockFree ptr set =>
      cases advanced
      exact .saveDirty ptr set
  | saveDirty ptr set =>
      rcases Option.map_eq_some_iff.mp advanced with ⟨heap, saved, rfl⟩
      exact .removePage ptr heap set saved
  | removePage ptr heap set saved =>
      cases advanced
      exact .markFree ptr heap set saved
  | markFree ptr heap set saved =>
      cases advanced
      apply Reached.unlockFree ptr _ set
      rw [threadSafeFree, if_neg set]
      dsimp only
      rw [saved]
      rfl
  | unlockFree ptr heap set returns =>
      cases advanced
      exact .idle _ _
  | idle request shared => cases advanced

theorem reached_of_alone {now : Shared × Point} (steady : Steady place before)
    (runs : (program place again).Alone (before, (program place again).entry request) now) :
    Reached place before request now := by
  induction runs with
  | refl => exact reached_entry request
  | tail _ advanced ih => exact ih.advance steady advanced

/-! ## Calls one after the other -/

variable {calls : List (τ × Request × Point)} {live : List Allocation} {after : Shared}

/-- A call that returns before it takes the mutex frees NULL. -/
theorem Reached.passes {point next : Point} {effect : Shared → Option (Shared × Point)}
    (steady : Steady place before) (reached : Reached place before request (after, point))
    (looks : (program place again).code point = some (.other effect))
    (leaves : effect after = some (after, next))
    (outside : (program place again).code next = none) : request = .free 0#64 := by
  cases reached with
  | checkHead bytes =>
      cases looks
      dsimp only at leaves
      rw [if_neg steady.head_ne] at leaves
      cases leaves
      cases outside
  | checkPtr ptr =>
      cases looks
      by_cases null : ptr = 0#64
      · rw [null]
      · dsimp only at leaves
        rw [if_neg null] at leaves
        cases leaves
        cases outside
  | _ => cases looks

/-- A call that is about to return has done what its function does. -/
theorem Reached.returns {point next : Point} (thread : τ)
    (earlier : OneByOne place frees heap calls live before.heap)
    (allowed : ∀ ptr, request = .free ptr → frees before.heap ptr)
    (reached : Reached place before request (after, point))
    (releases : (program place again).code point = some (.release next)) :
    after.head = before.head ∧ ∃ live,
      OneByOne place frees heap (calls ++ [(thread, request, point)]) live after.heap := by
  cases reached with
  | unlockMalloc bytes result heap returns =>
      exact ⟨rfl, _, .malloc thread bytes result earlier returns⟩
  | unlockFree ptr heap set returns =>
      exact ⟨rfl, _, .free thread ptr .unlockFree earlier (Or.inr (allowed ptr rfl)) returns⟩
  | _ => cases releases

/-- A call that is about to take the mutex frees only what may be freed. -/
theorem Reached.admitted {entrance inside : Point}
    (reached : Reached place before request (after, entrance))
    (enters : (program place again).code entrance = some (.acquire inside))
    (admitted : Frees frees after entrance) (ptr : BitVec 64) (freed : request = .free ptr) :
    frees after.heap ptr := by
  subst freed
  cases reached with
  | lockFree ptr set => exact admitted
  | _ => cases enters

/-- Consecutive calls are calls of the two functions. -/
theorem oneByOne_of_consecutive
    (consecutive : (program place again).Consecutive (Frees frees) (ready place heap) calls
      after) :
    Steady place after ∧ ∃ live, OneByOne place frees heap calls live after.heap := by
  induction consecutive with
  | nil => exact ⟨rfl, [], .nil⟩
  | pass thread request _ arrives looks _ leaves outside ih =>
      rcases ih with ⟨steady, live, earlier⟩
      have null := (reached_of_alone steady arrives).passes steady looks leaves outside
      subst null
      exact ⟨steady, _, .free thread 0#64 _ earlier (Or.inl rfl) rfl⟩
  | @hold calls before after entrance inside point next thread request _ arrives enters admitted
      runs releases outside ih =>
      rcases ih with ⟨steady, live, earlier⟩
      have allowed := (reached_of_alone steady arrives).admitted enters admitted
      have locked : (program place again).advance (before, entrance) = some (before, inside) := by
        simp [Program.advance, enters]
      have reached := reached_of_alone steady ((arrives.tail locked).trans runs)
      rcases reached.returns thread earlier allowed releases with ⟨kept, done⟩
      exact ⟨kept.trans steady, done⟩

/-- Such calls are a run of the heap. -/
theorem OneByOne.run {state : State} (fresh : Fresh heap)
    (calls : OneByOne place (fun state => OnList place state.memory) heap calls live state) :
    Run place (KeepsHeaders place) live state := by
  induction calls with
  | nil => exact .start fresh
  | malloc thread bytes ptr _ returns ih => exact ih.malloc trivial returns
  | free thread ptr point _ allowed returns ih => exact ih.free allowed returns

/-! ## Runs -/

variable [DecidableEq τ] {state : ThreadState τ Shared Point} {turns : List (Turn τ Request)}

theorem exec_oneByOne
    (allowed : EveryStep (program place again).step (Allowed frees) (start heap) turns)
    (ran : exec (program place again).step (start heap) turns = some state)
    (free : state.mutex = none) (set : state.shared.head ≠ 0#64)
    (done : ∀ thread, (state.points thread).initialising = false) :
    ∃ live, OneByOne place frees heap ((program place again).returned (start heap) turns) live
      state.shared.heap := by
  have same := Program.exec_loggedStep_fst (program place again) (start heap) .empty turns
  rw [ran] at same
  rcases Option.map_eq_some_iff.mp same with ⟨⟨final, log⟩, logged, rfl⟩
  rw [Program.returned, logged]
  cases (stage_start place again heap frees).exec allowed logged with
  | unset shared waiting => exact absurd (congrArg Shared.head shared) set
  | setting thread part bytes request shared here _ _ _ =>
      have initialising := done thread
      rw [here] at initialising
      cases initialising
  | set ordered _ => exact (oneByOne_of_consecutive (ordered.settled free)).2

/-- In a run in which no thread looks at `head` while another one is in `init_heap`, the heap
is, whenever the mutex is free and `init_heap` has run, what the calls that have returned make
of it one after the other, and each of them has returned what it returns then. -/
theorem calls_oneByOne (place : Placement) (again : Nat → BitVec 64) (heap : State)
    (turns : List (Turn τ Request))
    (unraced : EveryStep (program place again).step Unraced (start heap) turns)
    (state : ThreadState τ Shared Point)
    (ran : exec (program place again).step (start heap) turns = some state)
    (free : state.mutex = none) (set : state.shared.head ≠ 0#64)
    (done : ∀ thread, (state.points thread).initialising = false) :
    ∃ live, OneByOne place (fun _ _ => True) heap
      ((program place again).returned (start heap) turns) live state.shared.heap := by
  have allowed : EveryStep (program place again).step (Allowed fun _ _ => True) (start heap)
      turns := by
    refine unraced.imp (fun _ => True) trivial (fun state turn _ met => ⟨met, ?_⟩)
      fun _ _ _ _ _ _ => trivial
    cases turn with
    | call thread request => trivial
    | run thread =>
        intro _
        unfold Frees
        split <;> trivial
  exact exec_oneByOne allowed ran free set done

instance unracedDecidable (state : ThreadState Bool Shared Point) :
    (turn : Turn Bool Request) → Decidable (Unraced state turn)
  | .call _ _ => isTrue trivial
  | .run thread => inferInstanceAs (Decidable
      (((state.points thread).looks = true →
          ∀ other, (state.points other).initialising = false) ∧
        ((state.points thread).frees = true → state.shared.head ≠ 0#64)))

/-- What is read off a run of two threads at its end: the mutex is free, `head` is set, and
neither thread is in `init_heap`. -/
theorem exists_settled {turns : List (Turn Bool Request)} {head : BitVec 64} (set : head ≠ 0#64)
    (final : (exec (program place again).step (start heap) turns).map (fun state =>
      (state.mutex, state.shared.head, (state.points false).initialising,
        (state.points true).initialising)) = some (none, head, false, false)) :
    ∃ state, exec (program place again).step (start heap) turns = some state ∧
      state.mutex = none ∧ state.shared.head ≠ 0#64 ∧
      ∀ thread, (state.points thread).initialising = false := by
  rcases Option.map_eq_some_iff.mp final with ⟨state, ran, read⟩
  injection read with free read
  injection read with atHead read
  injection read with first second
  refine ⟨state, ran, free, ?_, Bool.rec first second⟩
  rw [atHead]
  exact set

/-- Two threads ask for 16 bytes. The first one runs `init_heap`; the second one is served
first, gets NULL and frees that. -/
def twoRequests : List (Turn Bool Request) :=
  [.call false (.malloc 16#64), .run false, .call true (.malloc 16#64)] ++
    List.replicate 5 (.run false) ++ List.replicate 6 (.run true) ++
    List.replicate 6 (.run false) ++ [.call true (.free 0#64), .run true]

/-- The first thread frees what it has got. -/
def requestsAndFree : List (Turn Bool Request) :=
  twoRequests ++ .call false (.free 0x1020#64) :: List.replicate 6 (.run false)

theorem calls_oneByOne_requestsAndFree :
    ∃ state live, exec (program samplePlacement fun _ => 0#64).step (start sampleState)
        requestsAndFree = some state ∧
      OneByOne samplePlacement (fun _ _ => True) sampleState
        ((program samplePlacement fun _ => 0#64).returned (start sampleState) requestsAndFree) live
        state.shared.heap := by
  have final : (exec (program samplePlacement fun _ => 0#64).step (start sampleState)
      requestsAndFree).map (fun state => (state.mutex, state.shared.head,
        (state.points false).initialising, (state.points true).initialising)) =
      some (none, 0x1000#64, false, false) := by
    decide +kernel
  rcases exists_settled (by decide) final with ⟨state, ran, free, set, done⟩
  have unraced : EveryStep (program samplePlacement fun _ => 0#64).step Unraced
      (start sampleState) requestsAndFree := by
    decide +kernel
  rcases calls_oneByOne samplePlacement (fun _ => 0#64) sampleState requestsAndFree unraced state
    ran free set done with ⟨live, calls⟩
  exact ⟨state, live, ran, calls⟩

example : ((program samplePlacement fun _ => 0#64).returned (start sampleState)
      requestsAndFree).map (fun call => (call.1, call.2.2)) =
    [(true, .unlockMalloc 0#64), (false, .unlockMalloc 0x1020#64), (true, .checkPtr 0#64),
      (false, .unlockFree)] := by
  decide +kernel

/-- Two threads find `head` to be NULL, and the second one ends its `init_heap` after the first
one has been served. -/
def raced : List (Turn Nat Request) :=
  [.call 0 (.malloc 16#64), .run 0, .call 1 (.malloc 16#64), .run 1, .run 1] ++
    List.replicate 10 (.run 0) ++ .call 2 (.malloc 16#64) :: List.replicate 7 (.run 2) ++
    List.replicate 10 (.run 1)

-- Without the condition two threads can get the same block.
example : ((program samplePlacement fun _ => 0x3000000#64).returned (start sampleState) raced).map
      (fun call => (call.1, call.2.2)) =
    [(0, .unlockMalloc 0#64), (2, .unlockMalloc 0x3000020#64),
      (1, .unlockMalloc 0x3000020#64)] := by
  decide +kernel

/-- Where moreover only NULL and blocks of the list are freed, the heap is that of a run of the
two functions, and the block list tiles the region. -/
theorem calls_tile (place : Placement) (again : Nat → BitVec 64) (heap : State) (fresh : Fresh heap)
    (turns : List (Turn τ Request))
    (allowed : EveryStep (program place again).step
      (Allowed fun state => OnList place state.memory) (start heap) turns)
    (state : ThreadState τ Shared Point)
    (ran : exec (program place again).step (start heap) turns = some state)
    (free : state.mutex = none) (set : state.shared.head ≠ 0#64)
    (done : ∀ thread, (state.points thread).initialising = false) :
    (∃ live, Run place (KeepsHeaders place) live state.shared.heap) ∧
      ∃ nodes, Walk state.shared.heap.memory place.head nodes ∧ Tiles place nodes := by
  rcases exec_oneByOne allowed ran free set done with ⟨live, calls⟩
  have run := calls.run fresh
  exact ⟨⟨live, run⟩, (run_tilesRegion run).1⟩

/-- In this turn no block is freed, and the condition on `head` is met. -/
def Requests (state : ThreadState Bool Shared Point) (turn : Turn Bool Request) : Prop :=
  Unraced state turn ∧ (state.points turn.thread).frees = false

instance requestsDecidable (state : ThreadState Bool Shared Point) (turn : Turn Bool Request) :
    Decidable (Requests state turn) :=
  inferInstanceAs (Decidable (Unraced state turn ∧ (state.points turn.thread).frees = false))

theorem Requests.allowed {state : ThreadState Bool Shared Point} {turn : Turn Bool Request}
    (requests : Requests state turn) : Allowed frees state turn := by
  refine ⟨requests.1, ?_⟩
  cases turn with
  | call thread request => trivial
  | run thread =>
      intro _
      have spared := requests.2
      rw [Turn.thread] at spared
      unfold Frees
      split
      · rename_i ptr point
        rw [point] at spared
        cases spared
      · trivial

theorem calls_tile_twoRequests :
    ∃ state nodes, exec (program samplePlacement fun _ => 0#64).step (start sampleState)
        twoRequests = some state ∧
      Walk state.shared.heap.memory samplePlacement.head nodes ∧ Tiles samplePlacement nodes := by
  have final : (exec (program samplePlacement fun _ => 0#64).step (start sampleState)
      twoRequests).map (fun state => (state.mutex, state.shared.head,
        (state.points false).initialising, (state.points true).initialising)) =
      some (none, 0x1000#64, false, false) := by
    decide +kernel
  rcases exists_settled (by decide) final with ⟨state, ran, free, set, done⟩
  have requests : EveryStep (program samplePlacement fun _ => 0#64).step Requests
      (start sampleState) twoRequests := by
    decide +kernel
  have allowed : EveryStep (program samplePlacement fun _ => 0#64).step
      (Allowed fun state => OnList samplePlacement state.memory) (start sampleState)
      twoRequests :=
    requests.imp (fun _ => True) trivial (fun _ _ _ met => met.allowed) fun _ _ _ _ _ _ => trivial
  rcases (calls_tile samplePlacement (fun _ => 0#64) sampleState sampleState_fresh twoRequests
    allowed state ran free set done).2 with ⟨nodes, walk, tiles⟩
  exact ⟨state, nodes, ran, walk, tiles⟩

end ComputerSystems.ThreadSafeHeap.Threads
