import ComputerSystems.FileTransfer.Core
import ComputerSystems.Loop.While
import Mathlib.Data.List.TakeDrop

/-!
# Downloading a file

The server sends a file in pieces of the size of its buffer; the client collects what
arrives in one array of that size, stores a NUL in it and saves it. The NUL goes to
the index that the last `recv` returned, which is the first one.
-/

namespace ComputerSystems.FileTransfer

open ComputerSystems.Loop ComputerSystems.Transition

/-! ## The server -/

/-- One pass of a loop that reads a file and passes it on, on what is left of the file
and what has been passed on: `fread` fills a buffer, and `send` or `fwrite` takes what
it has read. -/
def transferBody : List UInt8 × List UInt8 → Iteration (List UInt8 × List UInt8)
  | (file, passed) =>
      let read := file.take bufferSize
      if read.length > 0 then .next (file.drop bufferSize, passed ++ read) else .exit

/-- The bytes that the server sends for a file, with some fuel. -/
def sendFile (content : List UInt8) (fuel : Nat) : Outcome (List UInt8) :=
  (loop transferBody fuel (content, [])).map Prod.snd

/-! ## The client -/

/-- The client in its receive loop, with the bytes that have not been delivered. -/
structure Client where
  fileData : List UInt8
  totalBytes : Nat
  stream : List UInt8

/-- The client before its loop. What `file_data` holds is junk. -/
def Client.start (junk : Vector UInt8 bufferSize) (stream : List UInt8) : Client where
  fileData := junk.toList
  totalBytes := 0
  stream := stream

/-- A `recv` into the rest of `file_data` that returns a positive number of bytes. -/
def receive (client : Client) (bytesReceived : Nat) : Option Client :=
  if 0 < bytesReceived ∧ bytesReceived ≤ bufferSize - client.totalBytes ∧
      bytesReceived ≤ client.stream.length then
    some {
      fileData := client.fileData.take client.totalBytes ++
        (client.stream.take bytesReceived ++
          client.fileData.drop (client.totalBytes + bytesReceived))
      totalBytes := client.totalBytes + bytesReceived
      stream := client.stream.drop bytesReceived }
  else none

/-- A `recv` returns zero when the connection has been closed behind the last byte, and
when it is asked for no bytes. -/
def Client.Finished (client : Client) : Prop :=
  client.stream = [] ∨ bufferSize - client.totalBytes = 0

/-- The file that the client writes, where the last `recv` returned `bytesReceived`. -/
def Client.saved (client : Client) (bytesReceived : Nat) : List UInt8 :=
  (client.fileData.set bytesReceived 0).take client.totalBytes

/-- A `GET` of a file with some content can end with the client saving some bytes. -/
def Saves (junk : Vector UInt8 bufferSize) (content saved : List UInt8) : Prop :=
  ∃ stream, Completes (sendFile content) stream ∧
    ∃ deliveries client, exec receive (Client.start junk stream) deliveries = some client ∧
      client.Finished ∧ client.saved 0 = saved

/-! ## What is saved -/

theorem transferBody_completes (file sent : List UInt8) :
    Completes (fun fuel => loop transferBody fuel (file, sent)) ([], sent ++ file) := by
  induction size : file.length using Nat.strong_induction_on generalizing file sent with
  | h bound ih =>
      rcases file with _ | ⟨byte, rest⟩
      · rw [List.append_nil]
        exact loop_exit rfl
      · have smaller : ((byte :: rest).drop bufferSize).length < bound := by
          rw [← size, List.length_drop, List.length_cons, bufferSize]
          omega
        have later := ih _ smaller ((byte :: rest).drop bufferSize)
          (sent ++ (byte :: rest).take bufferSize) rfl
        rw [List.append_assoc, List.take_append_drop] at later
        have sends : transferBody (byte :: rest, sent) = .next ((byte :: rest).drop bufferSize,
            sent ++ (byte :: rest).take bufferSize) := rfl
        exact loop_next sends later

/-- The server sends the whole file. -/
theorem sendFile_completes (content : List UInt8) : Completes (sendFile content) content :=
  (transferBody_completes content []).map Prod.snd

theorem sendFile_unique {content stream : List UInt8}
    (completes : Completes (sendFile content) stream) : stream = content :=
  ((loop_stable transferBody (content, [])).map Prod.snd).unique completes
    (sendFile_completes content)

/-- Between two calls of `recv` the array starts with the bytes that were delivered. -/
structure Received (content : List UInt8) (client : Client) : Prop where
  length_fileData : client.fileData.length = bufferSize
  bounded : client.totalBytes ≤ bufferSize
  available : client.totalBytes ≤ content.length
  delivered : client.fileData.take client.totalBytes = content.take client.totalBytes
  undelivered : client.stream = content.drop client.totalBytes

variable {content saved : List UInt8} {client next : Client} {junk : Vector UInt8 bufferSize}

theorem received_start (junk : Vector UInt8 bufferSize) (content : List UInt8) :
    Received content (Client.start junk content) where
  length_fileData := junk.length_toList
  bounded := Nat.zero_le _
  available := Nat.zero_le _
  delivered := rfl
  undelivered := rfl

theorem Received.receive (received : Received content client) {bytesReceived : Nat}
    (stepped : receive client bytesReceived = some next) : Received content next := by
  unfold FileTransfer.receive at stepped
  split at stepped
  · rename_i answer
    cases stepped
    rcases answer with ⟨_, room, arrived⟩
    have length := received.length_fileData
    have bounded := received.bounded
    have available := received.available
    rw [received.undelivered, List.length_drop] at arrived
    have front : (client.fileData.take client.totalBytes).length = client.totalBytes := by
      rw [List.length_take]
      omega
    constructor
    · dsimp only
      rw [List.length_append, List.length_append, front, List.length_take, List.length_drop,
        received.undelivered, List.length_drop, length]
      omega
    · dsimp only
      omega
    · dsimp only
      omega
    · dsimp only
      rw [← List.append_assoc, received.delivered, received.undelivered, ← List.take_add]
      refine List.take_left' ?_
      rw [List.length_take]
      omega
    · dsimp only
      rw [received.undelivered, List.drop_drop]
  · cases stepped

/-- A client that has left its loop saves the part of the file that fits, with a NUL in
front. -/
theorem Received.saved_eq (received : Received content client) (finished : client.Finished) :
    client.saved 0 = (content.take bufferSize).set 0 0 := by
  have whole : content.take client.totalBytes = content.take bufferSize := by
    have bounded := received.bounded
    have available := received.available
    rcases finished with exhausted | full
    · rw [received.undelivered, List.drop_eq_nil_iff] at exhausted
      rw [List.take_of_length_le exhausted, List.take_of_length_le (by omega)]
    · congr 1
      omega
  rw [Client.saved, List.take_set, received.delivered, whole]

/-- One piece of everything that fits lets the client leave its loop. -/
theorem exists_finished (junk : Vector UInt8 bufferSize) (content : List UInt8) :
    ∃ deliveries client, exec receive (Client.start junk content) deliveries = some client ∧
      client.Finished := by
  have piece : ∀ bytesReceived, 0 < bytesReceived → bytesReceived ≤ bufferSize →
      bytesReceived ≤ content.length →
      ∃ client, exec receive (Client.start junk content) [bytesReceived] = some client ∧
        client.totalBytes = 0 + bytesReceived ∧ client.stream = content.drop bytesReceived := by
    intro bytesReceived positive room arrived
    have received : receive (Client.start junk content) bytesReceived = some _ :=
      if_pos ⟨positive, room, arrived⟩
    exact ⟨_, by rw [exec, received]; rfl, rfl, rfl⟩
  rcases Nat.eq_zero_or_pos content.length with empty | positive
  · exact ⟨[], _, rfl, Or.inl (List.length_eq_zero_iff.mp empty)⟩
  · rcases Nat.le_total content.length bufferSize with short | long
    · rcases piece content.length positive short le_rfl with ⟨client, ran, _, stream⟩
      refine ⟨[content.length], client, ran, Or.inl ?_⟩
      rw [stream, List.drop_length]
    · rcases piece bufferSize (by decide) le_rfl long with ⟨client, ran, total, _⟩
      refine ⟨[bufferSize], client, ran, Or.inr ?_⟩
      rw [total, Nat.zero_add, Nat.sub_self]

/-- What the client saves is the part of the file that fits, with a NUL in front. -/
theorem saves_iff : Saves junk content saved ↔ saved = (content.take bufferSize).set 0 0 := by
  have run : ∀ deliveries client,
      exec receive (Client.start junk content) deliveries = some client →
      client.Finished → client.saved 0 = (content.take bufferSize).set 0 0 := by
    intro deliveries client ran finished
    have received := exec_invariant (received_start junk content)
      (fun _ _ _ stepped received => received.receive stepped) ran
    exact received.saved_eq finished
  constructor
  · rintro ⟨stream, completes, deliveries, client, ran, finished, rfl⟩
    cases sendFile_unique completes
    exact run deliveries client ran finished
  · rintro rfl
    rcases exists_finished junk content with ⟨deliveries, client, ran, finished⟩
    exact ⟨content, sendFile_completes content, deliveries, client, ran, finished,
      run deliveries client ran finished⟩

/-- Whatever pieces the bytes arrive in, the client saves the file that the server
reads. -/
def GetIntegrity (junk : Vector UInt8 bufferSize) (content : List UInt8) : Prop :=
  ∀ saved, Saves junk content saved → saved = content

theorem getIntegrity_iff_eq :
    GetIntegrity junk content ↔ (content.take bufferSize).set 0 0 = content := by
  constructor
  · intro integrity
    exact integrity _ (saves_iff.mpr rfl)
  · intro same saved saves
    rw [saves_iff.mp saves, same]

/-- The saved file is the remote one exactly for an empty file and for a file of at most
8196 bytes that starts with a NUL. -/
theorem getIntegrity_iff (junk : Vector UInt8 bufferSize) (content : List UInt8) :
    GetIntegrity junk content ↔
      content = [] ∨ content.head? = some 0 ∧ content.length ≤ 8196 := by
  rw [getIntegrity_iff_eq]
  rcases content with _ | ⟨byte, rest⟩
  · exact iff_of_true rfl (Or.inl rfl)
  · have fits : (byte :: rest).take bufferSize = byte :: rest.take 8195 := rfl
    rw [fits, List.set_cons_zero, List.cons.injEq, List.take_eq_self_iff rest]
    simp only [List.cons_ne_nil, false_or, List.head?_cons, Option.some.injEq, List.length_cons]
    constructor
    · rintro ⟨first, short⟩
      exact ⟨first.symm, by omega⟩
    · rintro ⟨first, short⟩
      exact ⟨first.symm, by omega⟩

/-- A file of the single byte `A` is saved as a NUL. -/
theorem not_getIntegrity_single :
    ¬ ∀ (junk : Vector UInt8 bufferSize) (content : List UInt8), GetIntegrity junk content := by
  intro integrity
  have same := getIntegrity_iff_eq.mp (integrity (Vector.replicate bufferSize 0) [65])
  revert same
  decide

end ComputerSystems.FileTransfer
