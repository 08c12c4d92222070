import ComputerSystems.Transition.Run
import Mathlib.Logic.Function.Basic

/-!
# The threaded server

The accept loop of `PracticumIIV3/server.c` and the threads that it creates, as far as
connections, descriptors and the variable `client_sock` go. Every thread gets the
address of that one variable, and reads it in its first step.
-/

namespace ComputerSystems.ThreadedServer

/-- Where `main` is: in `accept`, at the guards before it creates a thread, behind the
creation with a request of its own to serve, or returned. -/
inductive Point
  | accepting
  | checking
  | serving
  | left
  deriving DecidableEq

/-- Where a thread is: before its first step, with the descriptor it has read, or
returned. -/
inductive Phase
  | ready
  | working (clientSock : Nat)
  | done
  deriving DecidableEq

/-- A `client_handler` thread and the connection it was created for. -/
structure Thread where
  connection : Nat
  phase : Phase

/-- Connections are numbered in the order in which they are accepted; `owner` gives the
connection of each open descriptor. -/
structure State where
  point : Point
  clientSock : Nat
  connections : Nat
  owner : Nat → Option Nat
  threads : List Thread

/-- `main` before its first `accept`; `client_sock` holds junk. -/
def start (junk : Nat) : State where
  point := .accepting
  clientSock := junk
  connections := 0
  owner := fun _ => none
  threads := []

/-- What `main` meets at its guards, in their order. -/
structure Guards where
  usbMutexLocked : Bool
  devicesAvailable : Bool
  fdMutexLocked : Bool
  devicesOpened : Bool
  written : Bool
  socketMutexLocked : Bool
  threadCreated : Bool

/-- How `main` gets past its guards. -/
inductive Admission
  | refuse
  | leave
  | serve (threadCreated : Bool)
  deriving DecidableEq

/-- The guards. A refused connection is closed. `pthread_create` and `pthread_detach`
return positive numbers when they fail, so that their tests for negative ones let `main`
go on. -/
def admission (guards : Guards) : Admission :=
  if !guards.usbMutexLocked then .refuse
  else if !guards.devicesAvailable then .refuse
  else if !guards.fdMutexLocked then .refuse
  else if !guards.devicesOpened then .leave
  else if !guards.written then .leave
  else if !guards.socketMutexLocked then .refuse
  else .serve guards.threadCreated

/-- What `main` does with a connection at its guards. -/
def pass (state : State) : Admission → State
  | .refuse =>
      { state with
        point := .accepting
        owner := Function.update state.owner state.clientSock none }
  | .leave => { state with point := .left }
  | .serve threadCreated =>
      { state with
        point := .serving
        threads := if threadCreated then state.threads ++ [⟨state.connections - 1, .ready⟩]
          else state.threads }

/-- A step of `main` or of one of the threads, which are numbered in the order in which
they are created. -/
inductive Action
  | accept (clientSock : Nat)
  | acceptFails
  | pass (guards : Guards)
  | serve (goesOn : Bool)
  | readArgument (thread : Nat)
  | finish (thread : Nat)

/-- The steps. `accept` returns a descriptor that is not open. Serving its own request
`main` goes on or returns; when it has returned, no thread takes a step. A thread that
returns has closed its socket. -/
def step (state : State) : Action → Option State
  | .accept clientSock =>
      if state.point = .accepting ∧ state.owner clientSock = none then
        some { state with
          point := .checking
          clientSock
          connections := state.connections + 1
          owner := Function.update state.owner clientSock (some state.connections) }
      else none
  | .acceptFails => if state.point = .accepting then some { state with point := .left } else none
  | .pass guards =>
      if state.point = .checking then some (pass state (admission guards)) else none
  | .serve goesOn =>
      if state.point = .serving then
        some { state with point := if goesOn then .accepting else .left }
      else none
  | .readArgument thread =>
      if state.point = .left then none
      else
        match state.threads[thread]? with
        | some ⟨connection, .ready⟩ =>
            some { state with
              threads := state.threads.set thread ⟨connection, .working state.clientSock⟩ }
        | _ => none
  | .finish thread =>
      if state.point = .left then none
      else
        match state.threads[thread]? with
        | some ⟨connection, .working clientSock⟩ =>
            some { state with
              owner := Function.update state.owner clientSock none
              threads := state.threads.set thread ⟨connection, .done⟩ }
        | _ => none

end ComputerSystems.ThreadedServer
