import ComputerSystems.FileTransfer.Upload

/-!
# The handshake of an upload

The request of a `PUT` starts with `P`, so the server answers it with the response of
`perform_put_command` or not at all. That response starts with `F`, and the client goes
on only after `READY`.
-/

namespace ComputerSystems.FileTransfer.Upload

open ComputerSystems.Text ComputerSystems.Transition

/-- The letter `P`, with which a request starts. -/
def letterP : UInt8 := 80

/-- The letter `F`, with which a response starts. -/
def letterF : UInt8 := 70

/-- Before the request nothing is under way. -/
structure Unasked (state : State) : Prop where
  toServer : state.toServer = []
  toClient : state.toClient = []
  copies : state.remoteFiles = none
  server : state.server = .accepting ∨ state.server = .receiving ∨ state.server = .exited

/-- While the client waits for a response: the request has not been read, or nothing but
the response to a `PUT` comes back; as long as nothing comes back nothing is copied. -/
structure Asked (state : State) : Prop where
  request : state.server = .accepting ∨ state.server = .receiving →
    state.toServer.head? = some letterP
  response : ∀ c ∈ state.toClient.head?, c = letterF
  copies : state.toClient = [] → state.remoteFiles = none

/-- What holds between two steps: the client gets past its check only when the server
has ended without writing a copy. -/
def Safe (state : State) : Prop :=
  match state.client with
  | .starting => Unasked state
  | .waiting _ => Asked state
  | .sending _ | .sent => state.server = .exited ∧ state.remoteFiles = none
  | .failed => True

variable {setup : Setup} {state next : State}

theorem safe_start (setup : Setup) : Safe (start setup) :=
  { toServer := rfl, toClient := rfl, copies := rfl, server := Or.inl rfl }

/-- A step of the server has to keep what holds of a client that has not passed its
check. -/
theorem Safe.serverStep (safe : Safe state) (live : state.server ≠ .exited)
    (same : next.client = state.client)
    (unasked : state.client.closed = false → Unasked state → Unasked next)
    (asked : state.client.closed = false → Asked state → Asked next) : Safe next := by
  unfold Safe at safe ⊢
  rw [same]
  cases phase : state.client with
  | starting =>
      rw [phase] at safe
      exact unasked (by rw [phase]; rfl) safe
  | waiting file =>
      rw [phase] at safe
      exact asked (by rw [phase]; rfl) safe
  | sending rest =>
      rw [phase] at safe
      exact absurd safe.1 live
  | sent =>
      rw [phase] at safe
      exact absurd safe.1 live
  | failed => exact trivial

/-! ### The steps of the client -/

theorem Safe.sendRequest (safe : Safe state) (stepped : sendRequest setup state = some next) :
    Safe next := by
  unfold Upload.sendRequest at stepped
  split at stepped
  · rename_i starting
    rw [Safe, starting] at safe
    split at stepped
    · cases stepped
      exact trivial
    · cases stepped
      constructor
      · intro _
        dsimp only
        rw [safe.toServer]
        rfl
      · dsimp only
        rw [safe.toClient]
        nofun
      · exact fun _ => safe.copies
  · cases stepped

/-- What starts like the response to a `PUT` is not `READY`. -/
theorem not_ready {response : List UInt8} (first : response.head? = some letterF) :
    cString response 0 ≠ ascii "READY" := by
  rcases response with _ | ⟨c, rest⟩
  · cases first
  · cases first
    intro ready
    have heads : some letterF = some 82 := congrArg List.head? ready
    exact absurd heads (by decide)

theorem Safe.receiveResponse {n : Nat} (safe : Safe state)
    (stepped : receiveResponse setup state n = some next) : Safe next := by
  unfold Upload.receiveResponse at stepped
  split at stepped
  · rename_i file waiting
    rw [Safe, waiting] at safe
    split at stepped
    · rename_i returns
      dsimp only at stepped
      split at stepped
      · rename_i ready
        cases stepped
        rcases returns with ⟨positive, _, arrived⟩ | ⟨_, closed, nothing⟩
        · rcases received : state.toClient with _ | ⟨c, rest⟩
          · rw [received, List.length_nil] at arrived
            omega
          · have first := safe.response c (by rw [received]; rfl)
            refine absurd ready (not_ready ?_)
            rw [received, first, List.head?_append, List.head?_take, if_neg positive.ne']
            rfl
        · exact ⟨of_decide_eq_true closed, safe.copies nothing⟩
      · cases stepped
        exact trivial
    · cases stepped
  · cases stepped

theorem Safe.sendPiece (safe : Safe state) (stepped : sendPiece state = some next) :
    Safe next := by
  unfold Upload.sendPiece at stepped
  split at stepped
  · rename_i rest sending
    rw [Safe, sending] at safe
    split at stepped
    · cases stepped
      exact safe
    · cases stepped
      exact safe
  · cases stepped

/-! ### The steps of the server -/

/-- The command of a request that starts with `P` starts with it. -/
theorem command_head {buffer : MessageBuffer} {text command : List UInt8}
    (short : text.length < bufferSize) (first : text.head? = some letterP)
    (found : (extract (buffer.receive text short)).string
      (extract (buffer.receive text short)).command = some command) :
    command.head? = some letterP := by
  have words := extract_words (buffer.receive text short)
  injection words with words _
  rcases text with _ | ⟨c, rest⟩
  · cases first
  · cases first
    have string : cString (buffer.receive (letterP :: rest) short).bytes 0 =
        letterP :: (rest ++ buffer.bytes.drop (rest.length + 1)).takeWhile inString := rfl
    rcases exists_first_word (p := inWord) (a := letterP) (by decide)
      ((rest ++ buffer.bytes.drop (rest.length + 1)).takeWhile inString) with ⟨word, others, split⟩
    rw [found, string, spaced, split] at words
    cases words
    rfl

theorem not_answered {command : List UInt8} (first : command.head? = some letterP) :
    answered command = false := by
  unfold answered
  have other : ∀ name : List UInt8, name.head? ≠ some letterP →
      decide (command = name) = false := by
    intro name different
    refine decide_eq_false ?_
    rintro rfl
    exact different first
  rw [other _ (by decide), other _ (by decide), other _ (by decide), other _ (by decide)]
  rfl

/-- What serving a request can change: the server goes on or ends, and it sends something
only in answer to another command than `PUT`. -/
structure Served (state next : State) (n : Nat) : Prop where
  receiving : state.server = .receiving
  returns : mayReturn state.toServer state.client.closed bufferSize n
  client : next.client = state.client
  remoteFiles : next.remoteFiles = state.remoteFiles
  behind : ¬ (next.server = .accepting ∨ next.server = .receiving)
  toClient : next.toClient = state.toClient ∨
    ∃ short command,
      (extract (state.clientMessage.receive (state.toServer.take n) short)).string
        (extract (state.clientMessage.receive (state.toServer.take n) short)).command =
          some command ∧
      answered command = true

theorem receiveRequest_cases {n : Nat} {answers : Answers} {reply : List UInt8}
    (stepped : receiveRequest state n answers reply = some next) : Served state next n := by
  unfold receiveRequest at stepped
  split at stepped
  · rename_i receiving
    split at stepped
    · rename_i returns
      split at stepped
      · rename_i short
        dsimp only at stepped
        split at stepped
        · cases stepped
          exact ⟨receiving, returns, rfl, rfl, by simp, Or.inl rfl⟩
        · rename_i command found
          split at stepped
          · split at stepped
            · cases stepped
              exact ⟨receiving, returns, rfl, rfl, by simp, Or.inl rfl⟩
            · cases stepped
              exact ⟨receiving, returns, rfl, rfl, by simp, Or.inl rfl⟩
            · cases stepped
              exact ⟨receiving, returns, rfl, rfl, by simp, Or.inl rfl⟩
          · cases stepped
            refine ⟨receiving, returns, rfl, rfl, ?_, ?_⟩
            · dsimp only
              split <;> simp
            · cases answer : answered command with
              | false => exact Or.inl (by rw [if_neg Bool.false_ne_true, List.append_nil])
              | true => exact Or.inr ⟨short, command, found, answer⟩
      · cases stepped
    · cases stepped
  · cases stepped

theorem Safe.receiveRequest {n : Nat} {answers : Answers} {reply : List UInt8} (safe : Safe state)
    (stepped : receiveRequest state n answers reply = some next) : Safe next := by
  have served := receiveRequest_cases stepped
  refine safe.serverStep (by rw [served.receiving]; nofun) served.client ?_ ?_
  · intro isOpen unasked
    rcases served.returns with ⟨positive, _, arrived⟩ | ⟨_, closed, _⟩
    · rw [unasked.toServer, List.length_nil] at arrived
      omega
    · cases isOpen.symm.trans closed
  · intro isOpen asked
    have request := asked.request (Or.inr served.receiving)
    have silent : next.toClient = state.toClient := by
      rcases served.toClient with same | ⟨short, command, found, answer⟩
      · exact same
      · rcases served.returns with ⟨positive, _, _⟩ | ⟨_, closed, _⟩
        · have first : (state.toServer.take n).head? = some letterP := by
            rw [List.head?_take, if_neg positive.ne', request]
          cases (not_answered (command_head short first found)).symm.trans answer
        · cases isOpen.symm.trans closed
    constructor
    · exact fun before => absurd before served.behind
    · rw [silent]
      exact asked.response
    · rw [silent, served.remoteFiles]
      exact asked.copies

theorem exists_createdResponse (path : List UInt8) :
    ∃ rest, createdResponse path = letterF :: rest := by
  have front : ascii "File " = [letterF, 105, 108, 101, 32] := by decide
  rw [createdResponse, front]
  exact ⟨_, rfl⟩

theorem Safe.receiveSize {n : Nat} {junk : Vector UInt8 4} (safe : Safe state)
    (stepped : receiveSize state n junk = some next) : Safe next := by
  unfold Upload.receiveSize at stepped
  split at stepped
  · rename_i remoteFilePath localFile sizing
    split at stepped
    · cases stepped
      refine safe.serverStep (by rw [sizing]; nofun) rfl ?_ ?_
      · intro _ unasked
        rcases unasked.server with accepting | receiving | exited
        · cases sizing.symm.trans accepting
        · cases sizing.symm.trans receiving
        · cases sizing.symm.trans exited
      · intro _ asked
        rcases exists_createdResponse (cString state.clientMessage.bytes remoteFilePath) with
          ⟨rest, response⟩
        constructor
        · rintro (accepting | receiving)
          · cases accepting
          · cases receiving
        · dsimp only
          rw [response]
          intro c first
          rcases back : state.toClient with _ | ⟨d, others⟩
          · rw [back] at first
            exact (Option.some.inj first).symm
          · rw [back] at first
            exact asked.response c (by rw [back]; exact first)
        · dsimp only
          rw [response]
          intro nothing
          exact absurd (List.append_eq_nil_iff.mp nothing).2 (List.cons_ne_nil _ _)
    · cases stepped
  · cases stepped

theorem not_exited_of_idle (idle : state.server = .accepting ∨ state.server = .away) :
    state.server ≠ .exited := by
  rcases idle with accepting | away
  · rw [accepting]
    nofun
  · rw [away]
    nofun

/-- Every step of the system keeps it. -/
theorem Safe.step (safe : Safe state) {action : Action}
    (stepped : step setup state action = some next) : Safe next := by
  rw [Upload.step.eq_def] at stepped
  cases action with
  | sendRequest => exact safe.sendRequest stepped
  | receiveResponse n => exact safe.receiveResponse stepped
  | sendPiece => exact safe.sendPiece stepped
  | breakOff =>
      cases stepped
      exact trivial
  | serveOther clientMessage =>
      dsimp only at stepped
      split at stepped
      · rename_i idle
        cases stepped
        refine safe.serverStep (not_exited_of_idle idle) rfl ?_ ?_
        · exact fun _ unasked => { unasked with }
        · exact fun _ asked => { asked with }
      · cases stepped
  | accept =>
      dsimp only at stepped
      split at stepped
      · rename_i accepting
        cases stepped
        refine safe.serverStep (by rw [accepting]; nofun) rfl ?_ ?_
        · intro _ unasked
          exact { unasked with server := Or.inr (Or.inl rfl) }
        · intro _ asked
          exact { asked with request := fun _ => asked.request (Or.inl accepting) }
      · cases stepped
  | receiveRequest n answers reply => exact safe.receiveRequest stepped
  | receiveSize n junk => exact safe.receiveSize stepped
  | exit =>
      dsimp only at stepped
      split at stepped
      · rename_i idle
        cases stepped
        refine safe.serverStep (not_exited_of_idle idle) rfl ?_ ?_
        · exact fun _ unasked => { unasked with server := Or.inr (Or.inr rfl) }
        · intro _ asked
          refine { asked with request := ?_ }
          rintro (accepting | receiving)
          · cases accepting
          · cases receiving
      · cases stepped

theorem safe_run {actions : List Action}
    (ran : exec (step setup) (start setup) actions = some state) : Safe state :=
  exec_invariant (safe_start setup) (fun _ _ _ stepped safe => safe.step stepped) ran

theorem Safe.not_completed (safe : Safe state) : ¬ Completed setup state := by
  rintro ⟨sent, file, _, copies⟩
  unfold Safe at safe
  rw [sent] at safe
  rw [safe.2] at copies
  cases copies

/-- No order of steps completes a `PUT`, whatever the file, the arguments and the junk in
the buffers are. -/
theorem putCompletes_never (setup : Setup) : ¬ PutCompletes setup := by
  rintro ⟨actions, state, ran, completed⟩
  exact (safe_run ran).not_completed completed

/-- A `PUT` of the file `notes` of one byte. -/
def putNotes : Setup where
  remoteFilePath := ascii "notes"
  localFilePath := none
  files := fun _ => some [65]
  response := Vector.replicate bufferSize 0
  clientMessage := cleared

/-- The `PUT` of a file of one byte is not completed. -/
theorem not_putCompletes_notes : ¬ ∀ setup : Setup, PutCompletes setup := by
  intro always
  rcases always putNotes with ⟨actions, state, ran, completed⟩
  exact (safe_run ran).not_completed completed

/-! ## The deadlock -/

/-- The client waits for `READY`, the server for the file size, and nothing is under
way. -/
structure Deadlocked (state : State) : Prop where
  client : ∃ file, state.client = .waiting file
  server : ∃ remoteFilePath localFile, state.server = .sizing remoteFilePath localFile
  toServer : state.toServer = []
  toClient : state.toClient = []

/-- Nothing can be received where nothing has been sent and the other side is open. -/
theorem not_mayReturn_nil {asked n : Nat} : ¬ mayReturn [] false asked n := by
  rintro (⟨positive, _, arrived⟩ | ⟨_, closed, _⟩)
  · rw [List.length_nil] at arrived
    omega
  · cases closed

/-- Neither program has a step there: only a client that gives up gets out of it. -/
theorem Deadlocked.only_breakOff (deadlocked : Deadlocked state) {action : Action}
    (stepped : step setup state action = some next) : action = .breakOff := by
  rcases deadlocked with ⟨⟨file, waiting⟩, ⟨remoteFilePath, localFile, sizing⟩, sent, received⟩
  have noResponse : ∀ n, ¬ mayReturn state.toClient (state.server = .exited) bufferSize n := by
    intro n
    rw [sizing, received]
    exact not_mayReturn_nil
  have noSize : ∀ n, ¬ mayReturn state.toServer state.client.closed 4 n := by
    intro n
    rw [waiting, sent]
    exact not_mayReturn_nil
  cases action with
  | breakOff => rfl
  | sendRequest =>
      rw [step, sendRequest, waiting] at stepped
      cases stepped
  | receiveResponse n =>
      rw [step, receiveResponse, waiting] at stepped
      dsimp only at stepped
      rw [if_neg (noResponse n)] at stepped
      cases stepped
  | sendPiece =>
      rw [step, sendPiece, waiting] at stepped
      cases stepped
  | serveOther clientMessage =>
      rw [step, sizing, if_neg (by simp)] at stepped
      cases stepped
  | accept =>
      rw [step, sizing, if_neg nofun] at stepped
      cases stepped
  | receiveRequest n answers reply =>
      rw [step, receiveRequest, sizing] at stepped
      cases stepped
  | receiveSize n junk =>
      rw [step, receiveSize, sizing] at stepped
      dsimp only at stepped
      rw [if_neg (noSize n)] at stepped
      cases stepped
  | exit =>
      rw [step, sizing, if_neg (by simp)] at stepped
      cases stepped

/-- The `PUT` of `notes` gets there when the server finds a file of the name `1`. -/
theorem putNotes_deadlocks : ∃ actions state,
    exec (step putNotes) (start putNotes) actions = some state ∧ Deadlocked state := by
  let actions : List Action :=
    [.sendRequest, .accept, .receiveRequest 9 ⟨fun _ => some [66], true, true⟩ []]
  have reached : (exec (step putNotes) (start putNotes) actions).map (fun state =>
      (state.client, state.server, state.toServer, state.toClient)) =
        some (.waiting [65], .sizing 4 [66], [], []) := by
    decide +kernel
  rcases Option.map_eq_some_iff.mp reached with ⟨state, ran, same⟩
  simp only [Prod.mk.injEq] at same
  rcases same with ⟨client, server, toServer, toClient⟩
  exact ⟨actions, state, ran, ⟨_, client⟩, ⟨_, _, server⟩, toServer, toClient⟩

end ComputerSystems.FileTransfer.Upload
