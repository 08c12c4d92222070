import ComputerSystems.Text.Strings

/-!
# Messages to the file servers

The servers receive every message into one array that they clear once, before their
loops, and cut it by three calls of `strtok`. So they find the words of the message
together with what earlier ones left behind its end.
-/

namespace ComputerSystems.FileTransfer

open ComputerSystems.Text

/-- A message that one `recv` delivers: shorter than the array and without a NUL. -/
structure Message (size : Nat) where
  text : List UInt8
  short : text.length < size
  plain : 0 ∉ text

/-- The pointers that the loop gets from `strtok`, and the array they point into. -/
structure Extracted (size : Nat) where
  command : Option Nat
  remoteFilePath : Option Nat
  localFilePath : Option Nat
  buffer : Buffer size

variable {size : Nat}

/-- The three calls of `strtok` in the loop. -/
def extract (buffer : Buffer size) : Extracted size :=
  let command := strtok buffer.bytes 0
  let remoteFilePath := strtok command.buffer command.saved
  let localFilePath := strtok remoteFilePath.buffer remoteFilePath.saved
  ⟨command.word, remoteFilePath.word, localFilePath.word, buffer.strtoks 3⟩

/-- The string at a pointer of the loop. -/
def Extracted.string (extracted : Extracted size) (pointer : Option Nat) : Option (List UInt8) :=
  pointer.map (cString extracted.buffer.bytes)

/-- The loop extracts the first three words of the string in its array. -/
theorem extract_words (buffer : Buffer size) :
    [(extract buffer).command, (extract buffer).remoteFilePath,
      (extract buffer).localFilePath].map (extract buffer).string =
      (List.range 3).map fun i => (spaced (cString buffer.bytes 0))[i]? := by
  have pointers : [(extract buffer).command, (extract buffer).remoteFilePath,
      (extract buffer).localFilePath] = (strtoks 3 buffer.bytes 0).1 := by
    simp only [strtoks, extract]
  have bytes : (extract buffer).buffer.bytes = (strtoks 3 buffer.bytes 0).2 := by
    simp only [extract, Buffer.strtoks]
  have string : (extract buffer).string = Option.map (cString (strtoks 3 buffer.bytes 0).2) := by
    funext pointer
    rw [Extracted.string, bytes]
  rw [pointers, string]
  exact (strtoks_words 3 buffer.bytes 0).2

/-- What the loop extracts for a message. -/
def extractMessage (buffer : Buffer size) (message : Message size) : Extracted size :=
  extract (buffer.receive message.text message.short)

/-- What earlier messages left in the array behind the end of a message. -/
def messageLeftover (buffer : Buffer size) (message : Message size) : List UInt8 :=
  cString buffer.bytes message.text.length

/-- The loop extracts the first three words of the message and what is left behind it. -/
theorem extractMessage_words (buffer : Buffer size) (message : Message size) :
    [(extractMessage buffer message).command, (extractMessage buffer message).remoteFilePath,
      (extractMessage buffer message).localFilePath].map (extractMessage buffer message).string =
      (List.range 3).map fun i =>
        (spaced (message.text ++ messageLeftover buffer message))[i]? := by
  have found := extract_words (buffer.receive message.text message.short)
  rw [buffer.cString_receive message.short message.plain] at found
  exact found

end ComputerSystems.FileTransfer
