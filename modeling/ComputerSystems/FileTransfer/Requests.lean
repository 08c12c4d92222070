import ComputerSystems.FileTransfer.Core

/-!
# The words of a request

What `strtok` finds are the words of the message together with what earlier requests
left behind its end.
-/

namespace ComputerSystems.FileTransfer

open ComputerSystems.Text ComputerSystems.Transition

/-- The words of the message of a request. -/
def messageWords (request : Request) : List (List UInt8) :=
  spaced request.message.text

/-- The loop extracts the first three words of the message. -/
structure TokensOfMessage (buffer : MessageBuffer) (request : Request) : Prop where
  command : (extracted buffer request).string (extracted buffer request).command =
    (messageWords request)[0]?
  remoteFilePath : (extracted buffer request).string (extracted buffer request).remoteFilePath =
    (messageWords request)[1]?
  localFilePath : (extracted buffer request).string (extracted buffer request).localFilePath =
    (messageWords request)[2]?

/-- What earlier requests left in the buffer behind the end of a message. -/
def leftover (buffer : MessageBuffer) (request : Request) : List UInt8 :=
  messageLeftover buffer request.message

/-- The leftover bytes do not reach the first three words: there are spaces only, or
the message has more words, or it has three and the leftover does not go on with the
last one. -/
def Unspoiled (buffer : MessageBuffer) (request : Request) : Prop :=
  (∀ c ∈ leftover buffer request, inWord c = false) ∨ 3 < (messageWords request).length ∨
    (messageWords request).length = 3 ∧ Apart inWord request.message.text (leftover buffer request)

/-- The words that the loop finds. -/
def foundWords (buffer : MessageBuffer) (request : Request) : List (List UInt8) :=
  spaced (request.message.text ++ leftover buffer request)

/-- The pointers of the loop are those of three calls of `strtok`. -/
theorem extracted_eq (buffer : MessageBuffer) (request : Request) :
    [(extracted buffer request).command, (extracted buffer request).remoteFilePath,
      (extracted buffer request).localFilePath].map (extracted buffer request).string =
      (List.range 3).map fun i => (foundWords buffer request)[i]? := by
  exact extractMessage_words buffer request.message

/-- Two lists have the same elements at the first places exactly when they start with
the same elements. -/
theorem map_getElem?_range_eq_iff {α : Type*} {n : Nat} {first second : List α} :
    ((List.range n).map fun i => first[i]?) = ((List.range n).map fun i => second[i]?) ↔
      first.take n = second.take n := by
  rw [List.map_inj_left, List.ext_getElem?_iff]
  refine forall_congr' fun i => ?_
  rw [List.mem_range, List.getElem?_take, List.getElem?_take]
  by_cases bound : i < n
  · simp only [bound, if_true, forall_const]
  · simp only [bound, if_false, false_imp_iff]

theorem tokensOfMessage_iff_words (buffer : MessageBuffer) (request : Request) :
    TokensOfMessage buffer request ↔
      ((List.range 3).map fun i => (foundWords buffer request)[i]?) =
        (List.range 3).map fun i => (messageWords request)[i]? := by
  rw [← extracted_eq]
  constructor
  · rintro ⟨command, remoteFilePath, localFilePath⟩
    change [_, _, _] = [_, _, _]
    rw [command, remoteFilePath, localFilePath]
  · intro same
    injection same with command same
    injection same with remoteFilePath same
    injection same with localFilePath _
    exact ⟨command, remoteFilePath, localFilePath⟩

theorem tokensOfMessage_iff (buffer : MessageBuffer) (request : Request) :
    TokensOfMessage buffer request ↔ Unspoiled buffer request := by
  rw [tokensOfMessage_iff_words, map_getElem?_range_eq_iff]
  exact take_words_append_iff

/-- In a run of the accept loop every request is parsed as its own message exactly when
at every request the buffer behind the message leaves its first three words alone. -/
theorem tokensOfMessage_everyStep_iff (requests : List Request) :
    EveryStep step TokensOfMessage cleared requests ↔
      EveryStep step Unspoiled cleared requests :=
  everyStep_iff (fun _ => True) trivial (fun buffer request _ => tokensOfMessage_iff buffer request)
    fun _ _ _ _ _ _ => trivial

/-- A request for which every system call succeeds. -/
def asciiRequest (text : String) (short : (ascii text).length < bufferSize)
    (plain : 0 ∉ ascii text) : Request where
  message := ⟨ascii text, short, plain⟩
  answers := ⟨fun _ => some [], true, true⟩

/-- `INFO` keeps the server in its loop, with the buffer that `strtok` leaves. -/
theorem step_info {buffer : MessageBuffer} {request : Request}
    (info : (extracted buffer request).string (extracted buffer request).command =
      some (ascii "INFO")) :
    step buffer request = some (extracted buffer request).buffer := by
  have other : ascii "INFO" ≠ ascii "GET" := by decide
  rw [step, dispatch, info]
  dsimp only
  rw [if_neg other, if_pos rfl]

/-- After `INFO abcdef` the request `INFO xy` is taken for the path `xycdef`. -/
theorem not_tokensOfMessage_after_longer :
    ¬ ∀ requests : List Request, EveryStep step TokensOfMessage cleared requests := by
  intro always
  let long := asciiRequest "INFO abcdef" (by decide) (by decide)
  let shorter := asciiRequest "INFO xy" (by decide) (by decide)
  have served := @step_info cleared long (by decide +kernel)
  have tokens := ((always [long, shorter]).2 _ served).1
  exact absurd tokens.remoteFilePath (by decide +kernel)

end ComputerSystems.FileTransfer
