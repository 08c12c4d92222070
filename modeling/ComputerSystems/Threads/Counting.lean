import ComputerSystems.Concurrency.Mutex
import Mathlib.Data.List.Infix

/-!
# The counting threads

`start_counting` and the threads that `main` of `A5/multiprocess.c` creates for it: two for
each of four files, which are joined before the next file is opened, and two that get the
name of a file where they expect a file. They all count one variable up to 30, so the first
thread to lock the mutex writes all numbers, and writes them to the first file. Output to
the console and the sentences that `main` writes itself are left out.
-/

namespace ComputerSystems.Threads.Counting

open ComputerSystems.Concurrency
open ComputerSystems.Transition

/-- `COUNT_TO`. -/
def countTo : Nat := 30

/-- `MAX_CORES`. -/
def maxCores : Nat := 2

/-- `numfiles`. -/
def numfiles : Nat := 4

/-- The number of all threads, which are numbered in the order in which they are created. -/
def allThreads : Nat := maxCores * (numfiles + 1)

/-- What a thread gets as its argument: one of the open files, or the string `filename`. -/
inductive Target
  | out (k : Nat)
  | filename
  deriving DecidableEq

/-- The argument of a thread. -/
def target (thread : Fin allThreads) : Target :=
  if thread.val / maxCores < numfiles then .out (thread.val / maxCores) else .filename

/-- The global `i`, and what the threads have written. -/
structure Shared where
  i : Nat
  written : List (Target × String)

/-- Where a thread is, with its argument. -/
inductive Point
  | outside
  | lock (out : Target)
  | test (out : Target)
  | sentence (out : Target)
  | number (out : Target)
  | unlock (out : Target)
  | done
  deriving DecidableEq

/-- `fputs` and `fprintf`. -/
def write (out : Target) (line : String) (shared : Shared) : Shared :=
  { shared with written := shared.written ++ [(out, line)] }

/-- `start_counting`. -/
def code : Point → Option (Instruction Shared Point)
  | .outside | .done => none
  | .lock out => some (.acquire (.test out))
  | .test out => some (.access fun shared =>
      if shared.i < countTo then some ({ shared with i := shared.i + 1 }, .sentence out)
      else some (shared, .unlock out))
  | .sentence out => some (.access fun shared =>
      some (write out "Inside Sum function...\n" shared, .number out))
  | .number out => some (.access fun shared =>
      some (write out ("i = " ++ toString shared.i ++ "\n") shared, .test out))
  | .unlock _ => some (.release .done)

/-- The threads as a program. -/
def program : Program Shared Point Target where
  code := code
  entry out := .lock out

/-- The threads, and how many of them `main` has created. -/
structure State where
  created : Nat
  threads : ThreadState (Fin allThreads) Shared Point

/-- Before the first thread is created. -/
def start : State := ⟨0, Program.init .outside ⟨0, []⟩⟩

/-- What happens next: `main` creates a thread, or one of the threads takes a step. -/
inductive Action
  | create
  | run (thread : Fin allThreads)

/-- A step. `main` creates the threads of a file when those of the files before it have been
joined. -/
def step (state : State) : Action → Option State
  | .create =>
      if next : state.created < allThreads then
        if ∀ thread : Fin allThreads, thread.val / maxCores < state.created / maxCores →
            state.threads.points thread = .done then
          (program.step state.threads
            (.call ⟨state.created, next⟩ (target ⟨state.created, next⟩))).map fun threads =>
              ⟨state.created + 1, threads⟩
        else none
      else none
  | .run thread =>
      (program.step state.threads (.run thread)).map fun threads => { state with threads }

/-- The two lines of each number from 1 on, in the first file. -/
def lines : Nat → List (Target × String)
  | 0 => []
  | i + 1 => lines i ++
      [(.out 0, "Inside Sum function...\n"), (.out 0, "i = " ++ toString (i + 1) ++ "\n")]

/-- The points at which a thread holds the mutex. -/
def Point.guarded : Point → Bool
  | .test _ | .sentence _ | .number _ | .unlock _ => true
  | .outside | .lock _ | .done => false

/-- The argument at a point. -/
def Point.argument : Point → Option Target
  | .outside | .done => none
  | .lock out | .test out | .sentence out | .number out | .unlock out => some out

/-- A thread that has counted and not written both lines. -/
def Point.counting : Point → Bool
  | .sentence _ | .number _ => true
  | _ => false

/-- What has been written while the thread with the mutex is at a point. -/
def Progress (shared : Shared) : Point → Prop
  | .sentence out => out = .out 0 ∧ ∃ i, shared.i = i + 1 ∧ shared.written = lines i
  | .number out => out = .out 0 ∧ ∃ i, shared.i = i + 1 ∧
      shared.written = lines i ++ [(.out 0, "Inside Sum function...\n")]
  | .unlock _ => shared.i = countTo ∧ shared.written = lines countTo
  | _ => shared.written = lines shared.i

/-- What holds between two steps. -/
structure Consistent (state : State) : Prop where
  owned : Program.Owned Point.guarded state.threads
  argument : ∀ thread out, (state.threads.points thread).argument = some out → out = target thread
  fresh : ∀ thread : Fin allThreads, state.created ≤ thread.val →
    state.threads.points thread = .outside
  created : ∀ thread : Fin allThreads, state.threads.points thread = .outside →
    state.created ≤ thread.val
  joined : ∀ thread : Fin allThreads, thread.val / maxCores < (state.created - 1) / maxCores →
    state.threads.points thread = .done
  bounded : state.threads.shared.i ≤ countTo
  counted : ∀ thread, state.threads.points thread = .done → state.threads.shared.i = countTo
  counting : ∀ thread, (state.threads.points thread).counting = true →
    ∀ other, state.threads.points other ≠ .done
  free : state.threads.mutex = none →
    state.threads.shared.written = lines state.threads.shared.i
  progress : ∀ thread, state.threads.mutex = some thread →
    Progress state.threads.shared (state.threads.points thread)

theorem guards : program.Guards Point.guarded := by
  constructor
  · intro point outside
    cases point with
    | outside | done => rfl
    | _ => cases outside
  · intro out
    rfl
  · intro point following here
    cases point with
    | lock out =>
        cases here
        rfl
    | _ => cases here
  · intro point following here
    cases point with
    | unlock out =>
        cases here
        rfl
    | _ => cases here
  · intro point effect shared result here ran
    cases point with
    | test out =>
        cases here
        simp only at ran
        split at ran
        · cases ran
          rfl
        · cases ran
          rfl
    | sentence out | number out =>
        cases here
        cases ran
        rfl
    | _ => cases here
  · intro point effect shared result here ran
    cases point <;> cases here

/-! ## The steps -/

/-- What a thread does to its point and to the memory. -/
inductive Advance (thread : Fin allThreads) : Point → Option (Fin allThreads) → Shared →
    Point → Option (Fin allThreads) → Shared → Prop
  | lock (out : Target) {shared} :
      Advance thread (.lock out) none shared (.test out) (some thread) shared
  | count (out : Target) {owner shared} (below : shared.i < countTo) :
      Advance thread (.test out) owner shared (.sentence out) owner
        { shared with i := shared.i + 1 }
  | leave (out : Target) {owner shared} (reached : ¬ shared.i < countTo) :
      Advance thread (.test out) owner shared (.unlock out) owner shared
  | sentence (out : Target) {owner shared} :
      Advance thread (.sentence out) owner shared (.number out) owner
        (write out "Inside Sum function...\n" shared)
  | number (out : Target) {owner shared} :
      Advance thread (.number out) owner shared (.test out) owner
        (write out ("i = " ++ toString shared.i ++ "\n") shared)
  | unlock (out : Target) {owner shared} :
      Advance thread (.unlock out) owner shared .done none shared

variable {state next final : State} {action : Action}

theorem run_cases {thread : Fin allThreads} (stepped : step state (.run thread) = some next) :
    ∃ point owner shared,
      Advance thread (state.threads.points thread) state.threads.mutex state.threads.shared
        point owner shared ∧
      next = { state with threads :=
        ⟨Function.update state.threads.points thread point, owner, shared⟩ } := by
  rcases Option.map_eq_some_iff.mp stepped with ⟨threads, ran, rfl⟩
  simp only [Program.step, program] at ran
  cases here : state.threads.points thread with
  | outside | done => simp [here, code] at ran
  | lock out =>
      simp only [here, code] at ran
      split at ran
      · rename_i free
        cases ran
        rw [Option.isNone_iff_eq_none.mp free]
        exact ⟨_, _, _, .lock out, rfl⟩
      · cases ran
  | test out =>
      simp only [here, code] at ran
      split at ran
      · rename_i below
        cases ran
        exact ⟨_, _, _, .count out below, rfl⟩
      · rename_i reached
        cases ran
        exact ⟨_, _, _, .leave out reached, rfl⟩
  | sentence out =>
      simp only [here, code] at ran
      cases ran
      exact ⟨_, _, _, .sentence out, rfl⟩
  | number out =>
      simp only [here, code] at ran
      cases ran
      exact ⟨_, _, _, .number out, rfl⟩
  | unlock out =>
      simp only [here, code] at ran
      cases ran
      exact ⟨_, _, _, .unlock out, rfl⟩

theorem owned_step (owned : Program.Owned Point.guarded state.threads)
    (stepped : step state action = some next) : Program.Owned Point.guarded next.threads := by
  cases action with
  | create =>
      simp only [step] at stepped
      split at stepped
      · rename_i inside
        split at stepped
        · rcases Option.map_eq_some_iff.mp stepped with ⟨threads, called, rfl⟩
          have calls : program.Releases Point.guarded state.threads
              (.call ⟨state.created, inside⟩ (target ⟨state.created, inside⟩)) := trivial
          exact owned.step guards calls called
        · cases stepped
      · cases stepped
  | run thread =>
      rcases Option.map_eq_some_iff.mp stepped with ⟨threads, ran, rfl⟩
      have releases : program.Releases Point.guarded state.threads
          (.run thread : Turn (Fin allThreads) Target) := by
        simp only [Program.Releases, program]
        cases here : state.threads.points thread <;> simp [code, Point.guarded]
      exact owned.step guards releases ran

theorem consistent_start : Consistent start where
  owned := Program.owned_init rfl _
  argument := by
    intro thread out found
    cases found
  fresh _ _ := rfl
  created _ _ := Nat.zero_le _
  joined := by
    intro thread earlier
    simp [start] at earlier
  bounded := Nat.zero_le _
  counted := by
    intro thread done
    cases done
  counting := by
    intro thread counting
    cases counting
  free _ := rfl
  progress := by
    intro thread held
    cases held

/-- `main` creates the next thread. -/
theorem Consistent.create (consistent : Consistent state)
    (stepped : step state .create = some next) : Consistent next := by
  have owned := owned_step consistent.owned stepped
  simp only [step] at stepped
  split at stepped
  · rename_i inside
    split at stepped
    · rename_i joined
      have outside := consistent.fresh ⟨state.created, inside⟩ le_rfl
      simp only [Program.step, program, outside, code, Option.map_some,
        Option.some.injEq] at stepped
      subst stepped
      have others : ∀ (point : Point) (other : Fin allThreads), other ≠ ⟨state.created, inside⟩ →
          (state.threads.goto ⟨state.created, inside⟩ point).points other =
            state.threads.points other :=
        fun point other apart => Function.update_of_ne apart _ _
      have here : ∀ point : Point,
          (state.threads.goto ⟨state.created, inside⟩ point).points ⟨state.created, inside⟩ =
            point :=
        fun point => Function.update_self _ _ _
      constructor
      · exact owned
      · intro thread out found
        by_cases same : thread = ⟨state.created, inside⟩
        · subst same
          simp only [here, Point.argument, Option.some.injEq] at found
          exact found.symm
        · simp only [others _ thread same] at found
          exact consistent.argument thread out found
      · intro thread later
        have apart : thread ≠ ⟨state.created, inside⟩ := by
          rintro rfl
          exact absurd later (Nat.not_succ_le_self _)
        simp only [others _ thread apart]
        exact consistent.fresh thread (Nat.le_of_succ_le later)
      · intro thread found
        by_cases same : thread = ⟨state.created, inside⟩
        · subst same
          simp only [here] at found
          cases found
        · simp only [others _ thread same] at found
          have later := consistent.created thread found
          have apart : thread.val ≠ state.created := fun equal => same (Fin.ext equal)
          simp only
          omega
      · intro thread earlier
        have done := joined thread earlier
        have apart : thread ≠ ⟨state.created, inside⟩ := by
          rintro rfl
          rw [outside] at done
          cases done
        simp only [others _ thread apart]
        exact done
      · exact consistent.bounded
      · intro thread done
        have apart : thread ≠ ⟨state.created, inside⟩ := by
          rintro rfl
          simp only [here] at done
          cases done
        simp only [others _ thread apart] at done
        exact consistent.counted thread done
      · intro thread counting other done
        have apart : thread ≠ ⟨state.created, inside⟩ := by
          rintro rfl
          simp only [here] at counting
          cases counting
        have apart' : other ≠ ⟨state.created, inside⟩ := by
          rintro rfl
          simp only [here] at done
          cases done
        simp only [others _ thread apart] at counting
        simp only [others _ other apart'] at done
        exact consistent.counting thread counting other done
      · exact consistent.free
      · intro thread held
        have apart : thread ≠ ⟨state.created, inside⟩ := by
          rintro rfl
          have guarded := (consistent.owned _).mpr held
          rw [outside] at guarded
          cases guarded
        simp only [others _ thread apart]
        exact consistent.progress thread held
    · cases stepped
  · cases stepped

/-- While a thread that has been created counts, it is one of the first two. -/
theorem Consistent.first (consistent : Consistent state) {thread : Fin allThreads}
    (busy : state.threads.points thread ≠ .outside) (below : state.threads.shared.i < countTo) :
    target thread = .out 0 := by
  have created : thread.val < state.created := by
    by_contra later
    exact busy (consistent.fresh thread (Nat.le_of_not_lt later))
  have group : thread.val / maxCores = 0 := by
    by_contra positive
    have zero : (0 : Nat) < allThreads := by decide
    have first : (⟨0, zero⟩ : Fin allThreads).val / maxCores < (state.created - 1) / maxCores := by
      simp only [maxCores] at positive ⊢
      omega
    have reached := consistent.counted _ (consistent.joined _ first)
    omega
  rw [target, group]
  rfl

/-- A thread that moves has been created and has not returned, and it keeps its argument. -/
theorem Advance.argument {thread : Fin allThreads} {old point : Point}
    {mutex owner : Option (Fin allThreads)} {shared after : Shared}
    (advance : Advance thread old mutex shared point owner after) :
    old ≠ .outside ∧ old ≠ .done ∧ point ≠ .outside ∧
      ∀ out, point.argument = some out → old.argument = some out := by
  cases advance <;> simp [Point.argument]

/-- What one step of a thread does to the count and to the files. -/
theorem Consistent.counts (consistent : Consistent state) {thread : Fin allThreads} {point : Point}
    {owner : Option (Fin allThreads)} {after : Shared}
    (advance : Advance thread (state.threads.points thread) state.threads.mutex
      state.threads.shared point owner after) :
    state.threads.shared.i ≤ after.i ∧ after.i ≤ countTo ∧
      (point = .done → after.i = countTo) ∧ (owner = none → after.written = lines after.i) ∧
      (owner = some thread → Progress after point) ∧
      ∀ other, other ≠ thread → owner ≠ some other := by
  have bounded := consistent.bounded
  have free := consistent.free
  have holder := consistent.owned thread
  have progress := consistent.progress thread
  have first := @Consistent.first state consistent thread
  have argument := consistent.argument thread
  generalize state.threads.points thread = old at advance holder progress first argument
  generalize state.threads.mutex = mutex at advance free holder progress
  generalize state.threads.shared = shared at advance bounded free progress first
  cases advance with
  | lock out =>
      refine ⟨le_rfl, bounded, nofun, nofun, fun _ => free rfl, ?_⟩
      intro other apart held
      exact apart (Option.some.inj held).symm
  | count out below =>
      have held := holder.mp rfl
      have same := argument out rfl
      refine ⟨Nat.le_succ _, below, nofun, ?_, ?_, ?_⟩
      · rw [held]
        nofun
      · intro _
        exact ⟨same.trans (first (by simp) below), _, rfl, progress held⟩
      · intro other apart also
        exact apart (Option.some.inj (also.symm.trans held))
  | leave out reached =>
      have held := holder.mp rfl
      have full := Nat.le_antisymm bounded (Nat.le_of_not_lt reached)
      refine ⟨le_rfl, bounded, nofun, ?_, ?_, ?_⟩
      · rw [held]
        nofun
      · intro _
        exact ⟨full, full ▸ progress held⟩
      · intro other apart also
        exact apart (Option.some.inj (also.symm.trans held))
  | sentence out =>
      have held := holder.mp rfl
      refine ⟨le_rfl, bounded, nofun, ?_, ?_, ?_⟩
      · rw [held]
        nofun
      · intro _
        rcases progress held with ⟨same, i, count, written⟩
        refine ⟨same, i, count, ?_⟩
        rw [write, written, same]
      · intro other apart also
        exact apart (Option.some.inj (also.symm.trans held))
  | number out =>
      have held := holder.mp rfl
      refine ⟨le_rfl, bounded, nofun, ?_, ?_, ?_⟩
      · rw [held]
        nofun
      · intro _
        rcases progress held with ⟨same, i, count, written⟩
        simp only [Progress, write, count, lines, written, same, List.append_assoc,
          List.cons_append, List.nil_append]
      · intro other apart also
        exact apart (Option.some.inj (also.symm.trans held))
  | unlock out =>
      have held := holder.mp rfl
      rcases progress held with ⟨full, written⟩
      exact ⟨le_rfl, bounded, fun _ => full, fun _ => full.symm ▸ written, nofun, nofun⟩

/-- No thread has returned while another one counts. -/
theorem Consistent.counting_step (consistent : Consistent state) {thread : Fin allThreads}
    {point : Point} {owner : Option (Fin allThreads)} {after : Shared}
    (advance : Advance thread (state.threads.points thread) state.threads.mutex
      state.threads.shared point owner after) :
    (point.counting = true → ∀ other, state.threads.points other ≠ .done) ∧
      (point = .done → ∀ other, other ≠ thread →
        (state.threads.points other).counting = false) := by
  have holder := consistent.owned thread
  have counting := consistent.counting thread
  have counted := consistent.counted
  have owners : ∀ other, other ≠ thread → state.threads.mutex = some thread →
      (state.threads.points other).counting = false := by
    intro other apart held
    rw [Bool.eq_false_iff]
    intro now
    have inside : (state.threads.points other).guarded = true := by
      cases here : state.threads.points other <;> simp_all [Point.counting, Point.guarded]
    rw [consistent.owned other, held] at inside
    exact apart (Option.some.inj inside).symm
  generalize state.threads.points thread = old at advance holder counting
  generalize state.threads.mutex = mutex at advance holder owners
  generalize state.threads.shared = shared at advance counted
  constructor
  · intro now other done
    cases advance with
    | count out below => exact absurd below (Nat.not_lt.mpr (counted other done).ge)
    | sentence out => exact counting rfl other done
    | _ => cases now
  · intro returned other apart
    cases advance with
    | unlock out => exact owners other apart (holder.mp rfl)
    | _ => cases returned

/-- A thread takes a step. -/
theorem Consistent.run {thread : Fin allThreads} (consistent : Consistent state)
    (stepped : step state (.run thread) = some next) : Consistent next := by
  have owned := owned_step consistent.owned stepped
  rcases run_cases stepped with ⟨point, owner, after, advance, rfl⟩
  rcases advance.argument with ⟨busy, unfinished, behind, argument⟩
  rcases consistent.counts advance with ⟨grows, bounded, counted, free, progress, only⟩
  have others : ∀ other, other ≠ thread →
      Function.update state.threads.points thread point other = state.threads.points other :=
    fun other apart => Function.update_of_ne apart _ _
  have here : Function.update state.threads.points thread point thread = point :=
    Function.update_self _ _ _
  constructor
  · exact owned
  · intro other out found
    by_cases same : other = thread
    · subst same
      simp only [here] at found
      exact consistent.argument other out (argument out found)
    · simp only [others other same] at found
      exact consistent.argument other out found
  · intro other later
    have apart : other ≠ thread := by
      rintro rfl
      exact busy (consistent.fresh other later)
    simp only [others other apart]
    exact consistent.fresh other later
  · intro other found
    by_cases same : other = thread
    · subst same
      simp only [here] at found
      exact absurd found behind
    · simp only [others other same] at found
      exact consistent.created other found
  · intro other earlier
    have done := consistent.joined other earlier
    have apart : other ≠ thread := by
      rintro rfl
      exact unfinished done
    simp only [others other apart]
    exact done
  · exact bounded
  · intro other done
    by_cases same : other = thread
    · subst same
      simp only [here] at done
      exact counted done
    · simp only [others other same] at done
      exact Nat.le_antisymm bounded ((consistent.counted other done) ▸ grows)
  · intro first counting second done
    rcases consistent.counting_step advance with ⟨starts, ends⟩
    by_cases same : first = thread
    · subst same
      simp only [here] at counting
      by_cases same' : second = first
      · subst same'
        simp only [here] at done
        rw [done] at counting
        cases counting
      · simp only [others second same'] at done
        exact starts counting second done
    · simp only [others first same] at counting
      by_cases same' : second = thread
      · subst same'
        simp only [here] at done
        rw [ends done first same] at counting
        cases counting
      · simp only [others second same'] at done
        exact consistent.counting first counting second done
  · exact free
  · intro other held
    by_cases same : other = thread
    · subst same
      simp only [here]
      exact progress held
    · exact absurd held (only other same)

theorem Consistent.step (consistent : Consistent state) (stepped : step state action = some next) :
    Consistent next := by
  cases action with
  | create => exact consistent.create stepped
  | run thread => exact consistent.run stepped

theorem run_consistent {actions : List Action}
    (ran : exec Counting.step start actions = some state) : Consistent state :=
  exec_invariant consistent_start (fun _ _ _ stepped consistent => consistent.step stepped) ran

/-! ## The files -/

theorem lines_prefix {i j : Nat} (le : i ≤ j) : lines i <+: lines j := by
  induction le with
  | refl => exact List.prefix_refl _
  | step _ ih => exact ih.trans (List.prefix_append _ _)

/-- What has been written is the beginning of the numbers in the first file. -/
theorem Consistent.written (consistent : Consistent state) :
    state.threads.shared.written <+: lines countTo := by
  have bounded := consistent.bounded
  have whole := lines_prefix bounded
  cases held : state.threads.mutex with
  | none =>
      rw [consistent.free held]
      exact whole
  | some thread =>
      have progress := consistent.progress thread held
      have inside := (consistent.owned thread).mpr held
      cases here : state.threads.points thread with
      | test out =>
          rw [here] at progress
          have written : state.threads.shared.written = lines state.threads.shared.i := progress
          rw [written]
          exact whole
      | sentence out =>
          rw [here] at progress
          rcases progress with ⟨_, i, count, written⟩
          rw [written]
          exact lines_prefix (by omega)
      | number out =>
          rw [here] at progress
          rcases progress with ⟨_, i, count, written⟩
          rw [written]
          rw [count] at whole
          refine List.IsPrefix.trans ?_ whole
          rw [lines, List.prefix_append_right_inj]
          exact ⟨_, rfl⟩
      | unlock out =>
          rw [here] at progress
          rw [progress.2]
      | outside | lock out | done =>
          rw [here] at inside
          cases inside

theorem lines_out (i : Nat) : ∀ entry ∈ lines i, entry.1 = .out 0 := by
  induction i with
  | zero =>
      intro entry member
      cases member
  | succ i ih =>
      intro entry member
      rcases List.mem_append.mp member with earlier | last
      · exact ih entry earlier
      · simp only [List.mem_cons, List.not_mem_nil, or_false] at last
        rcases last with rfl | rfl <;> rfl

/-- When a thread has returned, all numbers have been written. -/
theorem Consistent.whole (consistent : Consistent state) {thread : Fin allThreads}
    (done : state.threads.points thread = .done) :
    state.threads.shared.written = lines countTo := by
  have full := consistent.counted thread done
  cases held : state.threads.mutex with
  | none => rw [consistent.free held, full]
  | some holder =>
      have progress := consistent.progress holder held
      have inside := (consistent.owned holder).mpr held
      have quiet : (state.threads.points holder).counting = false := by
        rw [Bool.eq_false_iff]
        intro counting
        exact consistent.counting holder counting thread done
      cases here : state.threads.points holder with
      | test out =>
          rw [here] at progress
          exact full ▸ progress
      | unlock out =>
          rw [here] at progress
          exact progress.2
      | _ => simp [here, Point.guarded, Point.counting] at inside quiet

/-- As long as not all threads have returned there is a next step. -/
theorem Consistent.exists_step (consistent : Consistent state) :
    (∀ thread, state.threads.points thread = .done) ∨
      ∃ action next, Counting.step state action = some next := by
  by_cases all : ∀ thread, state.threads.points thread = .done
  · exact Or.inl all
  right
  by_cases running : ∃ thread next, Counting.step state (.run thread) = some next
  · rcases running with ⟨thread, next, stepped⟩
    exact ⟨_, next, stepped⟩
  -- otherwise `main` can create the next thread
  have idle : ∀ thread, state.threads.points thread = .outside ∨
      state.threads.points thread = .done := by
    intro thread
    by_contra busy
    refine running ?_
    cases held : state.threads.mutex with
    | some holder =>
        have inside := (consistent.owned holder).mpr held
        refine ⟨holder, ?_⟩
        cases here : state.threads.points holder with
        | test out =>
            by_cases below : state.threads.shared.i < countTo <;>
              simp [Counting.step, Program.step, program, here, code, below]
        | sentence out | number out | unlock out =>
            simp [Counting.step, Program.step, program, here, code]
        | _ => simp [here, Point.guarded] at inside
    | none =>
        have free := consistent.owned thread
        rw [held] at free
        refine ⟨thread, ?_⟩
        cases here : state.threads.points thread with
        | lock out => simp [Counting.step, Program.step, program, here, code, held]
        | outside | done => simp [here] at busy
        | _ => simp [here, Point.guarded] at free
  rw [not_forall] at all
  rcases all with ⟨thread, unfinished⟩
  have outside := (idle thread).resolve_right unfinished
  have inside : state.created < allThreads :=
    Nat.lt_of_le_of_lt (consistent.created thread outside) thread.isLt
  have joined : ∀ other : Fin allThreads, other.val / maxCores < state.created / maxCores →
      state.threads.points other = .done := by
    intro other earlier
    refine (idle other).resolve_left ?_
    intro fresh
    have later := consistent.created other fresh
    exact absurd (Nat.div_le_div_right later) (Nat.not_le.mpr earlier)
  refine ⟨.create, ?_⟩
  have fresh := consistent.fresh ⟨state.created, inside⟩ le_rfl
  rw [Counting.step, dif_pos inside, if_pos joined]
  simp [Program.step, program, fresh, code]

/-- In every interleaving the threads write to the first file only, whatever they were given:
a beginning of the numbers from 1 to 30, and all of them as soon as one thread has returned.
As long as not all threads have returned there is a next step. -/
theorem only_first_file (actions : List Action) (state : State)
    (ran : exec Counting.step start actions = some state) :
    state.threads.shared.written <+: lines countTo ∧
    (∀ entry ∈ state.threads.shared.written, entry.1 = .out 0) ∧
    ((∃ thread, state.threads.points thread = .done) →
      state.threads.shared.written = lines countTo) ∧
    ((∀ thread, state.threads.points thread = .done) ∨
      ∃ action next, Counting.step state action = some next) := by
  have consistent := run_consistent ran
  refine ⟨consistent.written, ?_, ?_, consistent.exists_step⟩
  · intro entry member
    exact lines_out countTo entry (consistent.written.subset member)
  · rintro ⟨thread, done⟩
    exact consistent.whole done

theorem allThreads_pos : 0 < allThreads := by decide

/-- The first thread counts to one. -/
def firstNumber : List Action :=
  .create :: List.replicate 4 (.run ⟨0, allThreads_pos⟩)

theorem only_first_file_firstNumber :
    ∃ state, exec Counting.step start firstNumber = some state ∧
      state.threads.shared.written <+: lines countTo :=
  ⟨_, rfl, (only_first_file firstNumber _ rfl).1⟩

end ComputerSystems.Threads.Counting
