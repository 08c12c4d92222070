import ComputerSystems.ThreadedServer.Core
import Mathlib.Data.List.Nodup

/-!
# Threads and their connections

A thread that reads `client_sock` before `main` accepts another connection works on the
socket of its own connection, and every connection that `main` does not refuse has one
thread.
-/

namespace ComputerSystems.ThreadedServer

open ComputerSystems.Transition

/-- Every thread works on the socket of the connection it was created for, and every
accepted connection, but for one that is still at the guards, has exactly one thread. -/
structure OneHandler (state : State) : Prop where
  own : ∀ thread ∈ state.threads, ∀ clientSock, thread.phase = .working clientSock →
    state.owner clientSock = some thread.connection
  one : ∀ connection < state.connections,
    (state.point = .checking → connection + 1 < state.connections) →
    (state.threads.map Thread.connection).count connection = 1

/-- A step that keeps the threads with their connections: a thread reads its argument
while its connection is the last one accepted, and a connection gets past the guards
with a thread. -/
def Timely (state : State) : Action → Prop
  | .readArgument i => ∀ thread, state.threads[i]? = some thread → state.point ≠ .left →
      thread.phase = .ready → thread.connection + 1 = state.connections
  | .pass guards => state.point = .checking → admission guards = .serve true
  | _ => True

/-- The number of connections that are past the guards. -/
def State.admitted (state : State) : Nat :=
  if state.point = .checking then state.connections - 1 else state.connections

/-- What timely steps keep: the threads are those of the admitted connections, in their
order, and the socket of a connection stays open until its thread is done with it. -/
structure Orderly (state : State) : Prop where
  threads : state.threads.map Thread.connection = List.range state.admitted
  own : ∀ thread ∈ state.threads, ∀ clientSock, thread.phase = .working clientSock →
    state.owner clientSock = some thread.connection
  checking : state.point = .checking → 0 < state.connections ∧
    state.owner state.clientSock = some (state.connections - 1)
  ready : ∀ thread ∈ state.threads, thread.phase = .ready →
    thread.connection + 1 = state.connections →
    state.owner state.clientSock = some thread.connection
  current : ∀ connection, state.owner state.clientSock = some connection →
    connection + 1 = state.connections

variable {state next : State}

theorem State.admitted_of_checking (checking : state.point = .checking) :
    state.admitted = state.connections - 1 :=
  if_pos checking

theorem State.admitted_of_not_checking (past : state.point ≠ .checking) :
    state.admitted = state.connections :=
  if_neg past

theorem orderly_start (junk : Nat) : Orderly (start junk) where
  threads := rfl
  own := nofun
  checking := nofun
  ready := nofun
  current := nofun

theorem Orderly.oneHandler (orderly : Orderly state) : OneHandler state where
  own := orderly.own
  one := by
    intro connection bound past
    have member : connection ∈ List.range state.admitted := by
      rw [List.mem_range, State.admitted]
      split
      · rename_i checking
        have before := past checking
        omega
      · exact bound
    rw [orderly.threads]
    exact List.count_eq_one_of_mem List.nodup_range member

theorem Orderly.connection_lt (orderly : Orderly state) {thread : Thread}
    (member : thread ∈ state.threads) : thread.connection < state.admitted := by
  have found := List.mem_map_of_mem (f := Thread.connection) member
  rw [orderly.threads] at found
  exact List.mem_range.mp found

/-- A connection has one thread. -/
theorem eq_of_connection_eq {threads : List Thread} {n : Nat}
    (numbered : threads.map Thread.connection = List.range n) {first second : Thread}
    (left : first ∈ threads) (right : second ∈ threads)
    (same : first.connection = second.connection) : first = second := by
  have nodup : (threads.map Thread.connection).Nodup := by
    rw [numbered]
    exact List.nodup_range
  exact List.inj_on_of_nodup_map nodup left right same

/-! ## Steps of `main` -/

theorem Orderly.accept {clientSock : Nat} (orderly : Orderly state)
    (stepped : step state (.accept clientSock) = some next) : Orderly next := by
  rw [step] at stepped
  split at stepped
  · rename_i enabled
    rcases enabled with ⟨accepting, unused⟩
    cases stepped
    have admitted : state.admitted = state.connections :=
      State.admitted_of_not_checking (by rw [accepting]; nofun)
    have opened : Function.update state.owner clientSock (some state.connections) clientSock =
        some state.connections := Function.update_self ..
    constructor
    · rw [State.admitted_of_checking rfl, Nat.add_sub_cancel, ← admitted]
      exact orderly.threads
    · intro thread member other working
      have before := orderly.own thread member other working
      have distinct : other ≠ clientSock := by
        rintro rfl
        cases unused.symm.trans before
      rw [← before]
      exact Function.update_of_ne distinct ..
    · exact fun _ => ⟨Nat.succ_pos _, opened⟩
    · intro thread member _ last
      have earlier := orderly.connection_lt member
      rw [admitted] at earlier
      dsimp only at last
      omega
    · intro connection owned
      cases opened.symm.trans owned
      rfl
  · cases stepped

/-- A connection that gets past the guards gets its thread. -/
theorem Orderly.pass {guards : Guards} (orderly : Orderly state)
    (timely : Timely state (.pass guards)) (stepped : step state (.pass guards) = some next) :
    Orderly next := by
  rw [step] at stepped
  split at stepped
  · rename_i checking
    rw [timely checking] at stepped
    cases stepped
    rcases orderly.checking checking with ⟨positive, owned⟩
    have admitted := State.admitted_of_checking checking
    have behind : state.connections = state.admitted + 1 := by omega
    have threads : (pass state (.serve true)).threads =
        state.threads ++ [⟨state.connections - 1, .ready⟩] := rfl
    have past : (pass state (.serve true)).point ≠ .checking := nofun
    constructor
    · rw [threads, State.admitted_of_not_checking past, List.map_append, orderly.threads,
        ← admitted, List.map_singleton, ← List.range_succ]
      exact congrArg List.range behind.symm
    · intro thread member clientSock working
      rw [threads] at member
      rcases List.mem_append.mp member with member | member
      · exact orderly.own thread member clientSock working
      · cases List.mem_singleton.mp member
        cases working
    · exact fun here => absurd here past
    · intro thread _ _ last
      have latest : thread.connection + 1 = state.connections := last
      have held : state.owner state.clientSock = some thread.connection := by
        rw [owned, ← latest, Nat.add_sub_cancel]
      exact held
    · exact orderly.current
  · cases stepped

/-- Where `main` goes on without a connection at the guards nothing else changes. -/
theorem Orderly.goto (orderly : Orderly state) {point : Point}
    (before : state.point ≠ .checking) (behind : point ≠ .checking) :
    Orderly { state with point } where
  threads := by
    rw [State.admitted_of_not_checking behind, ← State.admitted_of_not_checking before]
    exact orderly.threads
  own := orderly.own
  checking := fun here => absurd here behind
  ready := orderly.ready
  current := orderly.current

/-! ## Steps of a thread -/

/-- A thread that takes a step stays the thread of its connection. -/
theorem map_connection_set {i : Nat} {thread : Thread} (here : state.threads[i]? = some thread)
    (phase : Phase) :
    (state.threads.set i { thread with phase }).map Thread.connection =
      state.threads.map Thread.connection := by
  rcases List.getElem?_eq_some_iff.mp here with ⟨bound, rfl⟩
  have boundMap : i < (state.threads.map Thread.connection).length := by rwa [List.length_map]
  have same : state.threads[i].connection = (state.threads.map Thread.connection)[i] :=
    (List.getElem_map Thread.connection).symm
  rw [List.map_set, same, List.set_getElem_self]

theorem Orderly.readArgument {i : Nat} (orderly : Orderly state)
    (timely : Timely state (.readArgument i)) (stepped : step state (.readArgument i) = some next) :
    Orderly next := by
  rw [step] at stepped
  split at stepped
  · cases stepped
  · rename_i running
    split at stepped
    · rename_i connection here
      cases stepped
      have last := timely _ here running rfl
      constructor
      · exact (map_connection_set here (.working state.clientSock)).trans orderly.threads
      · intro thread member clientSock working
        rcases List.mem_or_eq_of_mem_set member with member | rfl
        · exact orderly.own thread member clientSock working
        · cases working
          exact orderly.ready ⟨connection, .ready⟩ (List.mem_of_getElem? here) rfl last
      · exact orderly.checking
      · intro thread member ready latest
        rcases List.mem_or_eq_of_mem_set member with member | rfl
        · exact orderly.ready thread member ready latest
        · cases ready
      · exact orderly.current
    · cases stepped

theorem Orderly.finish {i : Nat} (orderly : Orderly state)
    (stepped : step state (.finish i) = some next) : Orderly next := by
  rw [step] at stepped
  split at stepped
  · cases stepped
  · split at stepped
    · rename_i connection clientSock here
      cases stepped
      have member := List.mem_of_getElem? here
      have owned := orderly.own _ member clientSock rfl
      have threads := (map_connection_set here .done).trans orderly.threads
      have done : Thread.mk connection .done ∈ state.threads.set i ⟨connection, .done⟩ :=
        List.mem_set (List.getElem?_eq_some_iff.mp here).1 _
      -- A second thread of the connection would be the one that is done.
      have alone : ∀ thread ∈ state.threads.set i ⟨connection, .done⟩,
          thread.connection = connection → thread.phase = .done := by
        intro thread other same
        rw [eq_of_connection_eq threads other done same]
      constructor
      · exact threads
      · intro thread other sock working
        rcases List.mem_or_eq_of_mem_set other with before | rfl
        · have stays := orderly.own thread before sock working
          have distinct : sock ≠ clientSock := by
            rintro rfl
            have same := Option.some.inj (stays.symm.trans owned)
            cases working.symm.trans (alone thread other same)
          rw [← stays]
          exact Function.update_of_ne distinct ..
        · cases working
      · intro checking
        rcases orderly.checking checking with ⟨positive, last⟩
        have distinct : state.clientSock ≠ clientSock := by
          rintro rfl
          have same := Option.some.inj (owned.symm.trans last)
          have earlier : connection < state.admitted := orderly.connection_lt member
          have here : state.point = .checking := checking
          rw [State.admitted_of_checking here] at earlier
          dsimp only at same
          omega
        exact ⟨positive, (Function.update_of_ne distinct ..).trans last⟩
      · intro thread other ready latest
        rcases List.mem_or_eq_of_mem_set other with before | rfl
        · have stays := orderly.ready thread before ready latest
          have distinct : state.clientSock ≠ clientSock := by
            rintro rfl
            have same := Option.some.inj (stays.symm.trans owned)
            cases ready.symm.trans (alone thread other same)
          exact (Function.update_of_ne distinct ..).trans stays
        · cases ready
      · intro latest found
        refine orderly.current latest ?_
        by_cases same : state.clientSock = clientSock
        · rw [same] at found
          cases (Function.update_self ..).symm.trans found
        · exact (Function.update_of_ne same ..).symm.trans found
    · cases stepped

/-- Timely steps keep the order. -/
theorem Orderly.keep {action : Action} (orderly : Orderly state) (timely : Timely state action)
    (stepped : step state action = some next) : Orderly next := by
  cases action with
  | accept clientSock => exact orderly.accept stepped
  | acceptFails =>
      rw [step] at stepped
      split at stepped
      · rename_i accepting
        cases stepped
        exact orderly.goto (by rw [accepting]; nofun) nofun
      · cases stepped
  | pass guards => exact orderly.pass timely stepped
  | serve goesOn =>
      rw [step] at stepped
      split at stepped
      · rename_i serving
        cases stepped
        refine orderly.goto (by rw [serving]; nofun) ?_
        cases goesOn <;> nofun
      · cases stepped
  | readArgument i => exact orderly.readArgument timely stepped
  | finish i => exact orderly.finish stepped

/-- A connection that is refused or gets no thread leaves the threads as they are. -/
theorem pass_of_untimely {outcome : Admission} (untimely : outcome ≠ .serve true) :
    (pass state outcome).point ≠ .checking ∧
      (pass state outcome).connections = state.connections ∧
      (pass state outcome).threads = state.threads := by
  cases outcome with
  | refuse => exact ⟨nofun, rfl, rfl⟩
  | leave => exact ⟨nofun, rfl, rfl⟩
  | serve threadCreated =>
      cases threadCreated with
      | true => exact absurd rfl untimely
      | false => exact ⟨nofun, rfl, rfl⟩

/-- Any other step breaks it. -/
theorem Orderly.timely {action : Action} (orderly : Orderly state)
    (kept : ∀ next, step state action = some next → OneHandler next) : Timely state action := by
  cases action with
  | accept clientSock => exact trivial
  | acceptFails => exact trivial
  | serve goesOn => exact trivial
  | finish i => exact trivial
  | readArgument i =>
      rintro ⟨connection, phase⟩ here running rfl
      have stepped : step state (.readArgument i) = some { state with
          threads := state.threads.set i ⟨connection, .working state.clientSock⟩ } := by
        rw [step, if_neg running, here]
      have reads := List.mem_set (List.getElem?_eq_some_iff.mp here).1
        (Thread.mk connection (.working state.clientSock))
      exact orderly.current connection ((kept _ stepped).own _ reads state.clientSock rfl)
  | pass guards =>
      intro checking
      have admitted := State.admitted_of_checking checking
      rcases orderly.checking checking with ⟨positive, _⟩
      have missing : (state.threads.map Thread.connection).count (state.connections - 1) ≠ 1 := by
        rw [orderly.threads, admitted, List.count_eq_zero_of_not_mem]
        · exact Nat.zero_ne_one
        · rw [List.mem_range]
          omega
      by_contra untimely
      rcases @pass_of_untimely state _ untimely with ⟨past, connections, threads⟩
      have one := (kept _ (if_pos checking)).one (state.connections - 1) (by omega)
        fun here => absurd here past
      rw [threads] at one
      exact missing one

/-- In all states of a run the threads work on their own connections and every accepted
connection has one, exactly when all of its steps are timely. -/
theorem oneHandler_iff (junk : Nat) (actions : List Action) :
    (∀ past state, past <+: actions → exec step (start junk) past = some state →
      OneHandler state) ↔
      EveryStep step Timely (start junk) actions :=
  always_iff_everyStep Orderly (orderly_start junk) (fun _ orderly => orderly.oneHandler)
    (fun _ _ _ timely stepped orderly => orderly.keep timely stepped)
    fun _ _ orderly kept => orderly.timely kept

/-- Guards that let a connection pass. -/
def passing : Guards := ⟨true, true, true, true, true, true, true⟩

/-- A run in which the first thread reads its argument after the second `accept`. -/
def lateThread : List Action :=
  [.accept 4, .pass passing, .serve true, .accept 5, .readArgument 0]

/-- The first thread then works on the socket of the second connection. -/
theorem not_oneHandler_lateThread :
    ¬ ∀ (junk : Nat) (actions past : List Action) (state : State), past <+: actions →
      exec step (start junk) past = some state → OneHandler state := by
  intro always
  have handlers := always 0 lateThread lateThread _ (List.prefix_refl _) rfl
  have own := handlers.own ⟨0, .working 5⟩ List.mem_cons_self 5 rfl
  exact absurd own (by decide)

end ComputerSystems.ThreadedServer
