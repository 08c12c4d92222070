import ComputerSystems.FileTransfer.Requests

/-!
# The file information of the client

For `INFO` the client of `PracticumII/fgets.c` sends no request: it looks the file up itself
and sends what it has found to the server. The server takes the first word of that for the
command.
-/

namespace ComputerSystems.FileTransfer

open ComputerSystems.Text ComputerSystems.Transition

/-- What `stat` tells of a file, and its modification time as `ctime` writes it. -/
structure FileInfo where
  size : Int
  owner : Int
  group : Int
  mode : Nat
  modified : List UInt8

/-- A number as `%ld` and `%d` write it. -/
def signed (n : Int) : List UInt8 := ascii (toString n)

/-- A number as `%o` writes it. -/
def octal (n : Nat) : List UInt8 := ascii (String.ofList (Nat.toDigits 8 n))

/-- What the client sends for `INFO` when the file exists. -/
def infoText (remoteFilePath : List UInt8) (fileInfo : FileInfo) : List UInt8 :=
  ascii "Filename: " ++ (remoteFilePath ++ ascii "\n") ++
    (ascii "Size: " ++ signed fileInfo.size ++ ascii " bytes\n") ++
    (ascii "Owner: " ++ signed fileInfo.owner ++ ascii "\n") ++
    (ascii "Group: " ++ signed fileInfo.group ++ ascii "\n") ++
    (ascii "Permissions: " ++ octal (fileInfo.mode % 512) ++ ascii "\n") ++
    (ascii "Last modified: " ++ fileInfo.modified)

/-- The letter `F`. -/
def letterOfFilename : UInt8 := 70

/-- A message that starts with a letter starts with the command that has this letter. -/
theorem command_of_head (buffer : MessageBuffer) (request : Request) {letter : UInt8}
    (first : request.message.text.head? = some letter) (inside : inWord letter = true) :
    ∃ word, (extracted buffer request).string (extracted buffer request).command =
      some (letter :: word) := by
  have found := extracted_eq buffer request
  rcases text : request.message.text with _ | ⟨c, rest⟩
  · rw [text] at first
    cases first
  · rw [text, List.head?_cons, Option.some_inj] at first
    subst first
    rcases exists_first_word inside (rest ++ leftover buffer request) with ⟨word, others, split⟩
    have words : foundWords buffer request = (c :: word) :: others := by
      rw [foundWords, text]
      exact split
    rw [words] at found
    injection found with command _
    exact ⟨word, command⟩

/-- No command of the server starts with `F`. -/
theorem step_of_letterOfFilename (buffer : MessageBuffer) {request : Request}
    (first : request.message.text.head? = some letterOfFilename) : step buffer request = none := by
  rcases command_of_head buffer request first (by decide) with ⟨word, command⟩
  have other : ∀ name : List UInt8, name.head? ≠ some letterOfFilename →
      letterOfFilename :: word ≠ name := by
    rintro name different rfl
    exact different rfl
  rw [step, dispatch, command]
  dsimp only
  rw [if_neg (other _ (by decide)), if_neg (other _ (by decide)), if_neg (other _ (by decide)),
    if_neg (other _ (by decide)), if_neg (other _ (by decide))]

/-- What the client sends for `INFO` ends the server, however much of it one `recv` delivers,
whatever the file and whatever the server was asked before: no run goes on behind it. -/
theorem info_ends_server {requests : List Request} {request : Request}
    (member : request ∈ requests) {remoteFilePath : List UInt8} {fileInfo : FileInfo} {n : Nat}
    (positive : 0 < n)
    (arrives : request.message.text = (infoText remoteFilePath fileInfo).take n) :
    exec step cleared requests = none := by
  have first : request.message.text.head? = some letterOfFilename := by
    rw [arrives, List.head?_take, if_neg positive.ne']
    rfl
  rcases List.append_of_mem member with ⟨past, later, rfl⟩
  rw [exec_append, Option.bind_eq_none_iff]
  intro buffer _
  rw [exec, step_of_letterOfFilename buffer first, Option.bind_none]

/-- The first nine bytes of the information on the file `a`. -/
theorem info_ends_server_filename :
    exec step cleared [asciiRequest "INFO a" (by decide) (by decide),
      asciiRequest "Filename:" (by decide) (by decide)] = none :=
  @info_ends_server _ (asciiRequest "Filename:" (by decide) (by decide))
    (List.mem_cons_of_mem _ (List.mem_cons_self)) (ascii "a") ⟨1, 0, 0, 420, []⟩ 9 (by decide) rfl

end ComputerSystems.FileTransfer
