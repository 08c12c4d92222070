import ComputerSystems.FileTransfer.Download
import Mathlib.Algebra.Group.Int.Defs
import Mathlib.Algebra.Group.Nat.Defs

/-!
# Uploading a file

The client of a `PUT` and the server as one system, with the bytes that are under way
in both directions. The client waits for `READY` before it sends the file; the server
waits for the size of the file before it sends anything.
-/

namespace ComputerSystems.FileTransfer.Upload

open ComputerSystems.Text ComputerSystems.Loop ComputerSystems.Transition

/-! ## The two programs -/

/-- The arguments of the client behind the command, the files it can read, what its
response buffer holds, and the message buffer of the server. -/
structure Setup where
  remoteFilePath : List UInt8
  localFilePath : Option (List UInt8)
  files : List UInt8 → Option (List UInt8)
  response : Vector UInt8 bufferSize
  clientMessage : MessageBuffer

/-- The local path and the remote path that the client goes on with. -/
def Setup.paths (setup : Setup) : List UInt8 × List UInt8 :=
  match setup.localFilePath with
  | none => (setup.remoteFilePath, ascii "PUT")
  | some _ => (setup.remoteFilePath, ascii "PUT")

/-- An `int` in text. -/
def decimal (n : Int) : List UInt8 :=
  ascii (toString n)

/-- The request for a file: the command, the remote path and the file size, which is an
`int`. -/
def Setup.request (setup : Setup) (file : List UInt8) : List UInt8 :=
  ascii "PUT" ++ space :: (setup.paths.2 ++ space :: decimal (Int.bmod file.length (2 ^ 32)))

/-- Where the client is. -/
inductive Client
  | starting
  | waiting (file : List UInt8)
  | sending (rest : List UInt8)
  | sent
  | failed
  deriving DecidableEq

/-- The client has closed its socket, or ended. -/
def Client.closed : Client → Bool
  | .sent | .failed => true
  | _ => false

/-- Where the server is: before the connection of the client, in the `recv` of the
request, in the `recv` of the file size, behind the request, or ended. -/
inductive Server
  | accepting
  | receiving
  | sizing (remoteFilePath : Nat) (localFile : List UInt8)
  | away
  | exited
  deriving DecidableEq

/-- Both programs, the bytes under way, and the two copies once they are written. -/
structure State where
  client : Client
  server : Server
  clientMessage : MessageBuffer
  toServer : List UInt8
  toClient : List UInt8
  remoteFiles : Option (List UInt8 × List UInt8)

/-- The client is connected, and the server is in its accept loop. -/
def start (setup : Setup) : State where
  client := .starting
  server := .accepting
  clientMessage := setup.clientMessage
  toServer := []
  toClient := []
  remoteFiles := none

/-- A `recv` that asks for some bytes can return a number: at most what has arrived, and
zero when the other side has closed the connection and everything has been read. -/
def mayReturn (stream : List UInt8) (closed : Bool) (asked n : Nat) : Prop :=
  0 < n ∧ n ≤ asked ∧ n ≤ stream.length ∨ n = 0 ∧ closed = true ∧ stream = []

instance (stream : List UInt8) (closed : Bool) (asked n : Nat) :
    Decidable (mayReturn stream closed asked n) :=
  inferInstanceAs (Decidable
    (0 < n ∧ n ≤ asked ∧ n ≤ stream.length ∨ n = 0 ∧ closed = true ∧ stream = []))

/-! ## Steps of the client -/

/-- The client opens the file and sends its request. -/
def sendRequest (setup : Setup) (state : State) : Option State :=
  match state.client with
  | .starting =>
      match setup.files setup.paths.1 with
      | none => some { state with client := .failed }
      | some file =>
          some { state with
            client := .waiting file
            toServer := state.toServer ++ setup.request file }
  | _ => none

/-- The client receives a response and compares it with `READY`. -/
def receiveResponse (setup : Setup) (state : State) (n : Nat) : Option State :=
  match state.client with
  | .waiting file =>
      if mayReturn state.toClient (state.server = .exited) bufferSize n then
        let response := state.toClient.take n ++ setup.response.toList.drop n
        let state := { state with toClient := state.toClient.drop n }
        if cString response 0 = ascii "READY" then some { state with client := .sending file }
        else some { state with client := .failed }
      else none
  | _ => none

/-- The client sends the next piece of the file, or closes its socket behind the last
one. -/
def sendPiece (state : State) : Option State :=
  match state.client with
  | .sending rest =>
      match transferBody (rest, state.toServer) with
      | .next (rest, toServer) => some { state with client := .sending rest, toServer }
      | _ => some { state with client := .sent }
  | _ => none

/-! ## Steps of the server -/

/-- The commands that are answered at once. -/
def answered (command : List UInt8) : Bool :=
  command = ascii "GET" || command = ascii "INFO" || command = ascii "MD" || command = ascii "RM"

/-- The server receives a request and serves it up to the next `recv`. An answer to
another command than `PUT` is `reply`. -/
def receiveRequest (state : State) (n : Nat) (answers : Answers) (reply : List UInt8) :
    Option State :=
  match state.server with
  | .receiving =>
      if mayReturn state.toServer state.client.closed bufferSize n then
        if short : (state.toServer.take n).length < bufferSize then
          let extracted := extract (state.clientMessage.receive (state.toServer.take n) short)
          let state := { state with
            clientMessage := extracted.buffer
            toServer := state.toServer.drop n }
          match extracted.string extracted.command with
          | none => some { state with server := .exited }
          | some command =>
              if command = ascii "PUT" then
                match openFiles extracted.buffer extracted.remoteFilePath
                    extracted.localFilePath answers with
                | .crashed => some { state with server := .exited }
                | .returned buffer => some { state with server := .away, clientMessage := buffer }
                | .waiting buffer remoteFilePath localFile =>
                    some { state with
                      server := .sizing remoteFilePath localFile
                      clientMessage := buffer }
              else
                some { state with
                  server := if (dispatch extracted answers).isSome then .away else .exited
                  toClient := state.toClient ++ if answered command then reply else [] }
        else none
      else none
  | _ => none

/-- The value of an `int`, the least significant byte first. -/
def intValue (bytes : List UInt8) : Int :=
  Int.bmod (bytes.foldr (fun byte rest => byte.toNat + 256 * rest) 0 : Nat) (2 ^ 32)

/-- One pass of the copy loop. The bytes received are not counted. -/
def copyBody (expectedFileSize : Int) (files : List UInt8 × List UInt8) :
    Iteration (List UInt8 × List UInt8) :=
  let totalBytesReceived : Int := 0
  if totalBytesReceived < expectedFileSize then transferBody files else .exit

/-- What the copy loop writes. -/
def copied (expectedFileSize : Int) (localFile : List UInt8) : List UInt8 :=
  if 0 < expectedFileSize then localFile else []

theorem copied_completes (expectedFileSize : Int) (localFile : List UInt8) :
    Completes (fun fuel => (loop (copyBody expectedFileSize) fuel (localFile, [])).map Prod.snd)
      (copied expectedFileSize localFile) := by
  by_cases positive : 0 < expectedFileSize
  · have same : copyBody expectedFileSize = transferBody := funext fun _ => if_pos positive
    rw [same, copied, if_pos positive]
    exact sendFile_completes localFile
  · have done : copyBody expectedFileSize (localFile, []) = .exit := if_neg positive
    rw [copied, if_neg positive]
    exact (loop_exit done).map Prod.snd

/-- The server receives the file size into an `int` that holds junk, writes the copies
and sends its response. -/
def receiveSize (state : State) (n : Nat) (junk : Vector UInt8 4) : Option State :=
  match state.server with
  | .sizing remoteFilePath localFile =>
      if mayReturn state.toServer state.client.closed 4 n then
        let expectedFileSize := intValue (state.toServer.take n ++ junk.toList.drop n)
        let copy := copied expectedFileSize localFile
        some { state with
          server := .away
          toServer := state.toServer.drop n
          toClient := state.toClient ++
            createdResponse (cString state.clientMessage.bytes remoteFilePath)
          remoteFiles := some (copy, copy) }
      else none
  | _ => none

/-! ## The system -/

/-- Who takes the next step, and what the system answers there. -/
inductive Action
  | sendRequest
  | receiveResponse (n : Nat)
  | sendPiece
  | breakOff
  | serveOther (clientMessage : MessageBuffer)
  | accept
  | receiveRequest (n : Nat) (answers : Answers) (reply : List UInt8)
  | receiveSize (n : Nat) (junk : Vector UInt8 4)
  | exit

/-- A step of the system. Between two connections the server can serve others, which
changes its buffer, or end. -/
def step (setup : Setup) (state : State) : Action → Option State
  | .sendRequest => sendRequest setup state
  | .receiveResponse n => receiveResponse setup state n
  | .sendPiece => sendPiece state
  | .breakOff => some { state with client := .failed }
  | .serveOther clientMessage =>
      if state.server = .accepting ∨ state.server = .away then some { state with clientMessage }
      else none
  | .accept =>
      if state.server = .accepting then some { state with server := .receiving } else none
  | .receiveRequest n answers reply => receiveRequest state n answers reply
  | .receiveSize n junk => receiveSize state n junk
  | .exit =>
      if state.server = .accepting ∨ state.server = .away then some { state with server := .exited }
      else none

/-- The client has sent its file, and the server holds two copies of it. -/
def Completed (setup : Setup) (state : State) : Prop :=
  state.client = .sent ∧ ∃ file, setup.files setup.paths.1 = some file ∧
    state.remoteFiles = some (file, file)

/-- Some order of steps completes the `PUT`. -/
def PutCompletes (setup : Setup) : Prop :=
  ∃ actions state, exec (step setup) (start setup) actions = some state ∧ Completed setup state

end ComputerSystems.FileTransfer.Upload
