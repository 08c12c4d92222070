import ComputerSystems.FileTransfer.Messages
import ComputerSystems.Transition.Run

/-!
# The file server

The accept loop of `PracticumII/server.c` and what it does to its receive buffer.
The buffer is cleared once, before the loop; each request is stored at its start and
cut by `strtok`, and `PUT` stores the names of the two copies in it.
-/

namespace ComputerSystems.FileTransfer

open ComputerSystems.Text

/-- `BUFFER_SIZE`, which is also the size of `client_message`. -/
def bufferSize : Nat := 8196

/-- `client_message`. -/
abbrev MessageBuffer := Buffer bufferSize

/-- `client_message` when the accept loop is entered. -/
def cleared : MessageBuffer := Buffer.cleared bufferSize (by decide)

/-- What the system answers while a request is served: the files that can be read, by
their path, and which other calls succeed. -/
structure Answers where
  files : List UInt8 → Option (List UInt8)
  sends : Bool
  remoteFilesOpen : Bool

/-- A request: its message and the answers of the system. -/
structure Request where
  message : Message bufferSize
  answers : Answers

/-- The character that separates the parts of a path. -/
def slash : UInt8 := 47

/-- The longest path that can be opened, with its NUL. -/
def pathMax : Nat := 4096

/-- Where `perform_put_command` is before its `recv`. -/
inductive PutPoint
  | crashed
  | returned (buffer : MessageBuffer)
  | waiting (buffer : MessageBuffer) (remoteFilePath : Nat) (localFile : List UInt8)

/-- The remote files of `perform_put_command`. Both names are built in the buffer. -/
def createRemoteFiles (buffer : MessageBuffer) (remoteFilePath : Nat) (localFile : List UInt8)
    (remoteFilesOpen : Bool) : PutPoint :=
  let names := (buffer.strcat remoteFilePath (ascii "1")).bind fun buffer =>
    buffer.strcat remoteFilePath (ascii "2")
  match names with
  | none => .crashed
  | some buffer =>
      if remoteFilesOpen = true ∧ (cString buffer.bytes remoteFilePath).length < pathMax then
        .waiting buffer remoteFilePath localFile
      else .returned buffer

/-- `perform_put_command` up to its `recv`. -/
def openFiles (buffer : MessageBuffer) (remoteFilePath localFilePath : Option Nat)
    (answers : Answers) : PutPoint :=
  match localFilePath.or remoteFilePath with
  -- `fopen` of a NULL path fails and opens no file.
  | none => .returned buffer
  | some localFilePath =>
      match answers.files (cString buffer.bytes localFilePath) with
      | none => .returned buffer
      | some localFile =>
          match remoteFilePath with
          | some remoteFilePath =>
              createRemoteFiles buffer remoteFilePath localFile answers.remoteFilesOpen
          | none =>
              match strrchr buffer.bytes localFilePath slash with
              | none => .returned buffer
              | some fileName =>
                  createRemoteFiles buffer (fileName + 1) localFile answers.remoteFilesOpen

/-- The response of `perform_put_command`. -/
def createdResponse (remoteFilePath : List UInt8) : List UInt8 :=
  ascii "File " ++ (remoteFilePath ++ ascii " created successfully on both USB devices\n")

/-- `perform_put_command`, as far as it changes the message buffer. The copies and the
response that follow the `recv` leave it alone. -/
def performPutCommand (buffer : MessageBuffer) (remoteFilePath localFilePath : Option Nat)
    (answers : Answers) : Option MessageBuffer :=
  match openFiles buffer remoteFilePath localFilePath answers with
  | .crashed => none
  | .returned buffer => some buffer
  | .waiting buffer _ _ => some buffer

/-- Whether the file of a `GET` is opened and sent. -/
def fileSent (path : Option (List UInt8)) (answers : Answers) : Bool :=
  (path.bind answers.files).isSome && answers.sends

/-- What the loop does for the command it has extracted, as far as it changes the
message buffer. There is no result where the program ends: in the branches that return
and where a NULL pointer is read. -/
def dispatch (extracted : Extracted bufferSize) (answers : Answers) : Option MessageBuffer :=
  match extracted.string extracted.command with
  | none => none
  | some command =>
      if command = ascii "GET" then
        if fileSent (extracted.string extracted.remoteFilePath) answers then some extracted.buffer
        else none
      else if command = ascii "INFO" then some extracted.buffer
      else if command = ascii "MD" then none
      else if command = ascii "RM" then none
      else if command = ascii "PUT" then
        performPutCommand extracted.buffer extracted.remoteFilePath extracted.localFilePath answers
      else none

/-- What the loop extracts for a request. -/
def extracted (buffer : MessageBuffer) (request : Request) : Extracted bufferSize :=
  extractMessage buffer request.message

/-- One pass of the accept loop. -/
def step (buffer : MessageBuffer) (request : Request) : Option MessageBuffer :=
  dispatch (extracted buffer request) request.answers

/-- The response for a path that could be opened fits into its buffer. -/
theorem createdResponse_fits {path : List UInt8} (opened : path.length < pathMax) :
    (createdResponse path).length < bufferSize := by
  have front : (ascii "File ").length = 5 := by decide
  have back : (ascii " created successfully on both USB devices\n").length = 42 := by decide
  rw [createdResponse, List.length_append, List.length_append, front, back, bufferSize]
  rw [pathMax] at opened
  omega

end ComputerSystems.FileTransfer
