import ComputerSystems.FileTransfer.Messages
import ComputerSystems.Transition.Run

/-!
# The responses to `MD` and `RM`

The accept loop of `PracticumIITest/server.c`, as far as it answers `MD` and `RM`. Two arrays
outlive the requests. The message is received at the start of the one and cut there. The
response is printed into the other: `MD` prints from its start, `RM` behind the string that
is already there.
-/

namespace ComputerSystems.FileTransfer.Responses

open ComputerSystems.Text ComputerSystems.Transition

/-- `BUFSIZ`, the size of `client_message`. -/
def bufsiz : Nat := 8192

/-- `BUFFER_SIZE`. -/
def bufferSize : Nat := 8196

/-- `response`. -/
abbrev Response := Buffer bufferSize

/-- `response` filled with NUL. -/
def cleared : Response := Buffer.cleared bufferSize (by decide)

/-- The arrays of the loop. -/
structure State where
  clientMessage : Buffer bufsiz
  response : Response

/-- The arrays when the loop is entered, both filled with NUL. -/
def start : State := ⟨Buffer.cleared bufsiz (by decide), cleared⟩

/-- What `stat` says of a path that it finds. -/
inductive FileType
  | regular
  | directory
  | other

/-- What the calls of a request meet: whether `mkdir` succeeds, what `stat` finds, and
whether `unlink` or `rmdir` succeeds. -/
structure Answers where
  created : Bool
  stat : Option FileType
  deleted : Bool

/-- The commands that are answered. -/
inductive Command
  | md
  | rm

/-- The word that stands for a command. -/
def Command.text : Command → List UInt8
  | .md => ascii "MD"
  | .rm => ascii "RM"

/-- A request to make or to remove: its message, of which the words are the command, the
path and others that are not used, and what its own calls meet. -/
structure Request where
  message : Message bufsiz
  command : Command
  remoteFilePath : List UInt8
  others : List (List UInt8)
  words : spaced message.text = command.text :: remoteFilePath :: others
  answers : Answers

/-- A request to remove. -/
def Request.removes (request : Request) : Bool :=
  match request.command with
  | .md => false
  | .rm => true

/-- The text that the loop sends. -/
def text (response : Response) : List UInt8 :=
  cString response.bytes 0

/-- `sprintf` to `response + strlen(response)`. -/
def printBehind (response : Response) (string : List UInt8) : Option Response :=
  response.sprintf (text response).length string

/-- The branch of `MD`. There is no result where a string goes beyond the array. -/
def makeDirectory (response : Response) (command remoteFilePath : List UInt8) (created : Bool) :
    Option Response :=
  (response.sprintf 0 (command ++ ascii " " ++ remoteFilePath)).bind fun response =>
    if created then printBehind response (ascii "Directory created successfully\n")
    else printBehind response (ascii "Error creating directory\n")

/-- The branch of `RM`. -/
def remove (response : Response) (stat : Option FileType) (deleted : Bool) : Option Response :=
  match stat with
  | none => printBehind response (ascii "Error getting file or directory information\n")
  | some .regular =>
      if deleted then printBehind response (ascii "File deleted successfully\n")
      else printBehind response (ascii "Error deleting file\n")
  | some .directory =>
      if deleted then printBehind response (ascii "Directory deleted successfully\n")
      else printBehind response (ascii "Error deleting directory\n")
  | some .other => printBehind response (ascii "Unknown file type\n")

/-- One pass of the loop. The other commands are left out, and so is a missing path, which
no request leads to. -/
def respond (state : State) (request : Request) : Option State :=
  let extracted := extractMessage state.clientMessage request.message
  let answers := request.answers
  let response :=
    match extracted.string extracted.command, extracted.string extracted.remoteFilePath with
    | some command, some remoteFilePath =>
        if command = ascii "MD" then
          makeDirectory state.response command remoteFilePath answers.created
        else if command = ascii "RM" then remove state.response answers.stat answers.deleted
        else none
    | _, _ => none
  response.map fun response => ⟨extracted.buffer, response⟩

/-! ## The text of a request -/

/-- What the loop prints last for a request. -/
def outcome : Command → Answers → List UInt8
  | .md, ⟨true, _, _⟩ => ascii "Directory created successfully\n"
  | .md, ⟨false, _, _⟩ => ascii "Error creating directory\n"
  | .rm, ⟨_, none, _⟩ => ascii "Error getting file or directory information\n"
  | .rm, ⟨_, some .regular, true⟩ => ascii "File deleted successfully\n"
  | .rm, ⟨_, some .regular, false⟩ => ascii "Error deleting file\n"
  | .rm, ⟨_, some .directory, true⟩ => ascii "Directory deleted successfully\n"
  | .rm, ⟨_, some .directory, false⟩ => ascii "Error deleting directory\n"
  | .rm, ⟨_, some .other, _⟩ => ascii "Unknown file type\n"

/-- What is printed for a command, when its path is taken to be this one. -/
def printed : Command → List UInt8 → Answers → List UInt8
  | .md, path, answers => ascii "MD " ++ path ++ outcome .md answers
  | .rm, _, answers => outcome .rm answers

/-- The text that a request gets from cleared arrays. -/
def ownText (request : Request) : List UInt8 :=
  printed request.command request.remoteFilePath request.answers

/-- What earlier requests left behind the message of a request. -/
def leftover (state : State) (request : Request) : List UInt8 :=
  messageLeftover state.clientMessage request.message

/-- The path that the loop finds. -/
def foundPath (state : State) (request : Request) : List UInt8 :=
  ((spaced (request.message.text ++ leftover state request))[1]?).getD []

/-- The text that a request leads to. -/
def nextText (state : State) (request : Request) : List UInt8 :=
  (if request.removes then text state.response else []) ++
    printed request.command (foundPath state request) request.answers

variable {state after : State} {response : Response} {request : Request}
  {requests : List Request}

theorem outcome_plain (command : Command) (answers : Answers) : 0 ∉ outcome command answers := by
  unfold outcome
  split <;> decide

theorem printed_ne_nil (command : Command) (path : List UInt8) (answers : Answers) :
    printed command path answers ≠ [] := by
  have nonempty : outcome command answers ≠ [] := by
    unfold outcome
    split <;> decide
  cases command with
  | md => exact List.append_ne_nil_of_right_ne_nil _ nonempty
  | rm => exact nonempty

/-! ## The words of a request -/

/-- The loop finds the command of the request, and a path. -/
theorem found_words (state : State) (request : Request) :
    ∃ others, spaced (request.message.text ++ leftover state request) =
      request.command.text :: foundPath state request :: others := by
  rcases exists_words_append (leftover state request) request.words with
    ⟨path, others, found⟩
  refine ⟨others, ?_⟩
  rw [foundPath, spaced, found]
  rfl

/-- The leftover bytes do not reach the path: there are spaces only, or the message has more
words, or the leftover does not go on with the path. -/
def Unspoiled (state : State) (request : Request) : Prop :=
  (∀ c ∈ leftover state request, inWord c = false) ∨ request.others ≠ [] ∨
    Apart inWord request.message.text (leftover state request)

theorem foundPath_eq_iff :
    foundPath state request = request.remoteFilePath ↔ Unspoiled state request := by
  rcases found_words state request with ⟨others, found⟩
  have front : foundPath state request = request.remoteFilePath ↔
      (spaced (request.message.text ++ leftover state request)).take 2 =
        (spaced request.message.text).take 2 := by
    rw [found, request.words]
    simp
  have length : (words inWord request.message.text).length = request.others.length + 2 := by
    have split := congrArg List.length request.words
    rwa [List.length_cons, List.length_cons] at split
  rw [front, spaced, spaced, take_words_append_iff, length, Unspoiled,
    ← List.length_pos_iff]
  refine or_congr_right ?_
  by_cases more : 0 < request.others.length
  · exact iff_of_true (Or.inl (by omega)) (Or.inl more)
  · rw [or_iff_right (by omega), or_iff_right more]
    exact and_iff_right (by omega)

/-- Nothing is left behind the first message. -/
theorem leftover_start (request : Request) : leftover start request = [] := by
  rw [leftover, messageLeftover, start, Buffer.cleared, cString]
  dsimp only
  rw [List.drop_replicate]
  exact takeWhile_of_nul (by cases bufsiz - request.message.text.length <;> rfl)

theorem unspoiled_start (request : Request) : Unspoiled start request := by
  rw [Unspoiled, leftover_start]
  exact Or.inl fun _ member => absurd member List.not_mem_nil

/-! ## The array -/

theorem length_text_lt (response : Response) : (text response).length < bufferSize := by
  rcases response with ⟨bytes, length, nul⟩
  by_contra long
  have whole : bytes.takeWhile inString = bytes := by
    refine (List.takeWhile_prefix inString).eq_of_length_le ?_
    rw [length]
    exact Nat.le_of_not_lt long
  have member := List.mem_of_getElem? nul
  rw [← whole] at member
  exact absurd (List.mem_takeWhile_imp member) (by decide)

/-- `sprintf` at a position has a result where the string fits into the array. -/
theorem sprintf_isSome_iff {position : Nat} {string : List UInt8} :
    (response.sprintf position string).isSome ↔ position + string.length < bufferSize := by
  rw [← Option.isSome_map, Buffer.map_bytes_sprintf, Text.sprintf, response.ends.1]
  split
  · rename_i fits
    exact iff_of_true rfl fits
  · rename_i long
    exact iff_of_false nofun long

/-- What `sprintf` leaves behind the first part of the string that is there. -/
theorem text_sprintf {position : Nat} {string : List UInt8} {after : Response}
    (printed : response.sprintf position string = some after)
    (inside : position ≤ (text response).length) (plain : 0 ∉ string) :
    text after = (text response).take position ++ string := by
  have stored : Text.sprintf response.bytes position string = some after.bytes := by
    rw [← Buffer.map_bytes_sprintf, printed]
    rfl
  have front : response.bytes.take position = (text response).take position := by
    rw [text] at inside ⊢
    rw [← take_length_cString response.bytes, List.take_take, Nat.min_eq_left inside]
  have noNul : 0 ∉ (text response).take position :=
    fun member => nul_notMem_cString _ _ (List.mem_of_mem_take member)
  rw [text, cString_sprintf stored (front ▸ noNul) plain, front]

theorem text_printBehind {string : List UInt8} {after : Response}
    (stored : printBehind response string = some after) (plain : 0 ∉ string) :
    text after = text response ++ string := by
  rw [text_sprintf stored (Nat.le_refl _) plain, List.take_length]

/-! ## One request -/

/-- The branch for a command. -/
def branch (response : Response) (command : Command) (path : List UInt8) (answers : Answers) :
    Option Response :=
  match command with
  | .md => makeDirectory response (ascii "MD") path answers.created
  | .rm => remove response answers.stat answers.deleted

theorem respond_eq (state : State) (request : Request) :
    respond state request =
      (branch state.response request.command (foundPath state request) request.answers).map
        fun response =>
          ⟨(extractMessage state.clientMessage request.message).buffer, response⟩ := by
  have other : ascii "RM" ≠ ascii "MD" := by decide
  rcases found_words state request with ⟨others, found⟩
  have extracted := extractMessage_words state.clientMessage request.message
  rw [← leftover, found] at extracted
  injection extracted with command extracted
  injection extracted with remoteFilePath _
  rw [respond, command, remoteFilePath]
  cases called : request.command with
  | md => exact congrArg _ (if_pos rfl)
  | rm =>
      refine congrArg _ ?_
      exact (if_neg other).trans (if_pos rfl)

theorem makeDirectory_eq (path : List UInt8) (answers : Answers) :
    makeDirectory response (ascii "MD") path answers.created =
      (response.sprintf 0 (ascii "MD " ++ path)).bind fun response =>
        printBehind response (outcome .md answers) := by
  rcases answers with ⟨_ | _, _, _⟩ <;> rfl

theorem remove_eq (answers : Answers) :
    remove response answers.stat answers.deleted =
      printBehind response (outcome .rm answers) := by
  rcases answers with ⟨_, _ | ⟨_ | _ | _⟩, _ | _⟩ <;> rfl

theorem foundPath_plain (state : State) (request : Request) : 0 ∉ foundPath state request := by
  rcases found_words state request with ⟨others, found⟩
  have extracted := extractMessage_words state.clientMessage request.message
  rw [← leftover, found] at extracted
  injection extracted with _ extracted
  injection extracted with remoteFilePath _
  rcases Option.map_eq_some_iff.mp remoteFilePath with ⟨position, _, string⟩
  rw [← string]
  exact nul_notMem_cString _ _

/-- The start of the response to `MD`. -/
theorem text_start {path : List UInt8} {after : Response} (plain : 0 ∉ path)
    (stored : response.sprintf 0 (ascii "MD " ++ path) = some after) :
    text after = ascii "MD " ++ path := by
  have command : 0 ∉ ascii "MD " := by decide
  have both : 0 ∉ ascii "MD " ++ path :=
    fun member => (List.mem_append.mp member).elim command plain
  rw [text_sprintf stored (Nat.zero_le _) both, List.take_zero, List.nil_append]

/-- The text of a response is that of the request with the path that the loop finds, behind
the earlier text where the request removes. -/
theorem text_respond (answered : respond state request = some after) :
    text after.response = nextText state request := by
  have plain := foundPath_plain state request
  rw [respond_eq] at answered
  rcases Option.map_eq_some_iff.mp answered with ⟨response, served, rfl⟩
  unfold nextText Request.removes
  cases called : request.command with
  | md =>
      rw [called, branch, makeDirectory_eq] at served
      rcases Option.bind_eq_some_iff.mp served with ⟨started, stored, finished⟩
      rw [text_printBehind finished (outcome_plain _ _), text_start plain stored]
      rfl
  | rm =>
      rw [called, branch, remove_eq] at served
      exact text_printBehind served (outcome_plain _ _)

/-- There is a response where its text fits into the array. -/
theorem respond_isSome_iff :
    (respond state request).isSome ↔ (nextText state request).length < bufferSize := by
  have plain := foundPath_plain state request
  rw [respond_eq, Option.isSome_map]
  unfold nextText Request.removes
  cases called : request.command with
  | md =>
      have length : ([] ++ printed .md (foundPath state request) request.answers).length =
          (ascii "MD " ++ foundPath state request).length +
            (outcome .md request.answers).length := by
        rw [List.nil_append, printed, List.length_append]
      rw [branch, makeDirectory_eq, if_neg Bool.false_ne_true, length]
      cases stored : state.response.sprintf 0 (ascii "MD " ++ foundPath state request) with
      | none =>
          have long := sprintf_isSome_iff.not.mp (Option.not_isSome_iff_eq_none.mpr stored)
          exact iff_of_false nofun (by omega)
      | some started =>
          rw [Option.bind_some, printBehind, sprintf_isSome_iff, text_start plain stored]
  | rm =>
      rw [branch, remove_eq, if_pos rfl, List.length_append, printBehind, sprintf_isSome_iff]
      rfl

theorem nextText_ne_nil (state : State) (request : Request) : nextText state request ≠ [] :=
  List.append_ne_nil_of_right_ne_nil _ (printed_ne_nil _ _ _)

theorem text_respond_ne_nil (answered : respond state request = some after) :
    text after.response ≠ [] := by
  rw [text_respond answered]
  exact nextText_ne_nil state request

/-! ## Own texts -/

/-- The path of a request is so short that its own text fits into the array. -/
def Request.Short (request : Request) : Prop :=
  (ownText request).length < bufferSize

/-- The request gets a response that fits into the array, with a given text. -/
def Answered (determined : Request → List UInt8) (state : State) (request : Request) : Prop :=
  ∃ after, respond state request = some after ∧ text after.response = determined request

theorem answered_iff {determined : Request → List UInt8} :
    Answered determined state request ↔
      nextText state request = determined request ∧
        (determined request).length < bufferSize := by
  constructor
  · rintro ⟨after, answered, own⟩
    have fits := length_text_lt after.response
    rw [own] at fits
    exact ⟨(text_respond answered).symm.trans own, fits⟩
  · rintro ⟨own, fits⟩
    rw [← own, ← respond_isSome_iff] at fits
    rcases Option.isSome_iff_exists.mp fits with ⟨after, answered⟩
    exact ⟨after, answered, (text_respond answered).trans own⟩

/-- A request gets its own text when it starts the text afresh and its path is found, or
when it removes and no text is there yet. -/
theorem nextText_eq_ownText_iff :
    nextText state request = ownText request ↔
      if request.removes then text state.response = [] else Unspoiled state request := by
  rw [← foundPath_eq_iff]
  unfold nextText ownText Request.removes
  cases request.command with
  | md =>
      simp only [Bool.false_eq_true, if_false, List.nil_append, printed]
      rw [List.append_cancel_right_eq, List.append_cancel_left_eq]
  | rm =>
      simp only [if_true, printed]
      rw [List.append_left_eq_self]

/-- The first request gets its own text if it is short. -/
theorem answered_start (request : Request) : Answered ownText start request ↔ request.Short := by
  rw [answered_iff, Request.Short, nextText_eq_ownText_iff]
  refine and_iff_right ?_
  split
  · rfl
  · exact unspoiled_start request

/-- A later request gets its own text if it is short, does not remove, and its path is
found. -/
theorem answered_later (later : text state.response ≠ []) :
    Answered ownText state request ↔
      (request.Short ∧ request.removes = false) ∧ Unspoiled state request := by
  rw [answered_iff, nextText_eq_ownText_iff, ← Request.Short]
  cases request.removes with
  | false => simp [and_comm]
  | true => simp [later]

theorem Answered.isSome {determined : Request → List UInt8}
    (answered : Answered determined state request) : (respond state request).isSome := by
  rcases answered with ⟨after, done, _⟩
  exact Option.isSome_iff_exists.mpr ⟨after, done⟩

/-! ## Sequences of requests -/

/-- Every request of a sequence gets a response that fits into the array, with a text that
the request alone determines. -/
def Isolated (determined : Request → List UInt8) (requests : List Request) : Prop :=
  ∀ past request rest, requests = past ++ request :: rest →
    ∃ state, exec respond start (past ++ [request]) = some state ∧
      text state.response = determined request

theorem isolated_iff_everyStep (determined : Request → List UInt8) :
    Isolated determined requests ↔
      EveryStep respond (Answered determined) start requests := by
  rw [everyStep_iff_reached fun _ _ answered => answered.isSome]
  refine forall_congr' fun past => forall_congr' fun request => forall_congr' fun rest =>
    imp_congr_right fun _ => ?_
  constructor
  · rintro ⟨after, ran, own⟩
    rw [exec_snoc] at ran
    rcases Option.bind_eq_some_iff.mp ran with ⟨state, earlier, answered⟩
    exact ⟨state, earlier, after, answered, own⟩
  · rintro ⟨state, earlier, after, answered, own⟩
    exact ⟨after, by rw [exec_snoc, earlier, Option.bind_some, answered], own⟩

/-- What has to hold of the requests behind the first one. -/
theorem answered_everyStep_iff (later : text state.response ≠ []) :
    EveryStep respond (Answered ownText) state requests ↔
      (∀ request ∈ requests, request.Short ∧ request.removes = false) ∧
        EveryStep respond Unspoiled state requests := by
  have fits : ∀ state request, (request.Short ∧ request.removes = false) →
      Unspoiled state request → (respond state request).isSome := by
    rintro state request ⟨short, creates⟩ unspoiled
    have own : nextText state request = ownText request := by
      rw [nextText_eq_ownText_iff, creates, if_neg Bool.false_ne_true]
      exact unspoiled
    rw [respond_isSome_iff, own]
    exact short
  rw [← everyStep_and_iff fits]
  exact everyStep_iff (fun state => text state.response ≠ []) later
    (fun _ _ later => answered_later later)
    fun _ _ _ _ answered _ => text_respond_ne_nil answered

/-- The requests of a sequence are isolated exactly when their paths are short, none behind
the first one removes, and at each of them the bytes that are left behind the message do
not reach its path. -/
theorem isolated_iff (requests : List Request) :
    Isolated ownText requests ↔
      (∀ request ∈ requests, request.Short) ∧
        (∀ request ∈ requests.tail, request.removes = false) ∧
        EveryStep respond Unspoiled start requests := by
  rw [isolated_iff_everyStep]
  cases requests with
  | nil => simp [EveryStep]
  | cons first others =>
      rw [List.tail_cons, List.forall_mem_cons]
      constructor
      · rintro ⟨here, later⟩
        rcases here with ⟨next, answered, own⟩
        have rest := (answered_everyStep_iff (text_respond_ne_nil answered)).mp
          (later next answered)
        refine ⟨⟨(answered_start first).mp ⟨next, answered, own⟩,
          fun request member => (rest.1 request member).1⟩,
          fun request member => (rest.1 request member).2, unspoiled_start first, ?_⟩
        intro after also
        cases answered.symm.trans also
        exact rest.2
      · rintro ⟨⟨short, shorts⟩, creates, _, later⟩
        refine ⟨(answered_start first).mpr short, fun next answered => ?_⟩
        rw [answered_everyStep_iff (text_respond_ne_nil answered)]
        exact ⟨fun request member => ⟨shorts request member, creates request member⟩,
          later next answered⟩

/-- The same removal again and again outgrows the array. -/
theorem exec_replicate_eq_none {n : Nat} (removes : request.removes = true)
    (many : bufferSize ≤ n * (ownText request).length) :
    exec respond start (List.replicate n request) = none := by
  have length : ∀ k state, exec respond start (List.replicate k request) = some state →
      (text state.response).length = k * (ownText request).length := by
    intro k
    induction k with
    | zero =>
        intro state ran
        cases ran
        rw [Nat.zero_mul]
        rfl
    | succ k ih =>
        intro state ran
        rw [List.replicate_succ', exec_snoc] at ran
        rcases Option.bind_eq_some_iff.mp ran with ⟨before, earlier, answered⟩
        have own : printed request.command (foundPath before request) request.answers =
            ownText request := by
          unfold ownText
          unfold Request.removes at removes
          cases called : request.command with
          | md => rw [called] at removes; cases removes
          | rm => rfl
        rw [text_respond answered, nextText, if_pos removes, List.length_append, ih _ earlier,
          own, Nat.succ_mul]
  rw [← Option.not_isSome_iff_eq_none]
  intro some
  rcases Option.isSome_iff_exists.mp some with ⟨state, ran⟩
  have outgrown := length n state ran
  have fits := length_text_lt state.response
  omega

/-- To make the directory `d`, with success. -/
def makeD : Request where
  message := ⟨ascii "MD d", by decide, by decide⟩
  command := .md
  remoteFilePath := ascii "d"
  others := []
  words := by decide +kernel
  answers := ⟨true, none, true⟩

/-- To remove the directory `d`, with success. -/
def removeD : Request where
  message := ⟨ascii "RM d", by decide, by decide⟩
  command := .rm
  remoteFilePath := ascii "d"
  others := []
  words := by decide +kernel
  answers := ⟨true, some .directory, true⟩

/-- The response to a removal of a directory that was made before goes on with the
response to its making. -/
theorem not_isolated_make_remove :
    ¬ ∃ determined, ∀ requests : List Request, (∀ request ∈ requests, request.Short) →
      Isolated determined requests := by
  rintro ⟨determined, isolated⟩
  have shortMake : makeD.Short := by unfold Request.Short; decide
  have shortRemove : removeD.Short := by unfold Request.Short; decide
  have alone := isolated [removeD] (by simp [shortRemove])
  have behind := isolated [makeD, removeD] (by simp [shortMake, shortRemove])
  rw [isolated_iff_everyStep] at alone behind
  rcases behind with ⟨⟨state, made, _⟩, behind⟩
  have first := (answered_iff.mp alone.1).1
  have second := (answered_iff.mp (behind state made).1).1
  -- the text of the removal is the same, but a text stands in front of it
  rw [← first] at second
  have lengths := congrArg List.length second
  have nonempty := List.length_pos_iff.mpr (text_respond_ne_nil made)
  simp only [nextText, List.length_append] at lengths
  have same : (printed removeD.command (foundPath state removeD) removeD.answers) =
      printed removeD.command (foundPath start removeD) removeD.answers := rfl
  have empty : text start.response = [] := rfl
  rw [same, empty] at lengths
  simp [removeD, Request.removes] at lengths
  exact text_respond_ne_nil made lengths

/-- To make a directory, with success. -/
def makeLonger : Request where
  message := ⟨ascii "MD abcdef", by decide, by decide⟩
  command := .md
  remoteFilePath := ascii "abcdef"
  others := []
  words := by decide +kernel
  answers := ⟨true, none, true⟩

-- behind it, `MD d` is taken for the path `dbcdef`
example : (respond start makeLonger).map (fun state => foundPath state makeD) =
    some (ascii "dbcdef") := by
  decide +kernel

end ComputerSystems.FileTransfer.Responses
