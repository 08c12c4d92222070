import ComputerSystems.FileTransfer.Requests

/-!
# Runs of downloads

The client of `PracticumII/fgets.c` asks for a file with `GET` and its path. The accept loop
clears its buffer once, so a path goes on with what longer paths of earlier requests left
behind it.
-/

namespace ComputerSystems.FileTransfer

open ComputerSystems.Text ComputerSystems.Transition

/-! ## Single calls of strtok -/

section Strtok

variable {buffer word rest : List UInt8} {position : Nat}

theorem strspn_word (here : buffer.drop position = word ++ rest)
    (letters : ∀ c ∈ word, inToken c = true) (nonempty : word ≠ []) :
    strspn buffer position = 0 := by
  rw [strspn, here]
  cases word with
  | nil => exact absurd rfl nonempty
  | cons c word =>
      have letter := (Bool.and_eq_true_iff.mp (letters c List.mem_cons_self)).1
      rw [List.cons_append, List.takeWhile_cons_of_neg (by simp [letter])]
      rfl

theorem strcspn_word {c : UInt8} (here : buffer.drop position = word ++ c :: rest)
    (letters : ∀ c ∈ word, inToken c = true) (stops : inToken c = false) :
    strcspn buffer position = word.length := by
  rw [strcspn, wordAt, here, takeWhile_eq_of_append letters]
  rintro d ⟨⟩
  exact stops

theorem getD_behind {c : UInt8} (here : buffer.drop position = word ++ c :: rest) :
    buffer.getD (position + word.length) 0 = c := by
  rw [getD_eq_headD_drop, ← List.drop_drop, here, List.drop_left, List.headD_cons]

theorem getD_start (here : buffer.drop position = word ++ rest)
    (letters : ∀ c ∈ word, inToken c = true) (nonempty : word ≠ []) :
    buffer.getD position 0 ≠ 0 := by
  rw [getD_eq_headD_drop, here]
  cases word with
  | nil => exact absurd rfl nonempty
  | cons c word =>
      have letter := (Bool.and_eq_true_iff.mp (letters c List.mem_cons_self)).2
      rw [List.cons_append, List.headD_cons]
      exact bne_iff_ne.mp letter

/-- A word that a space ends. -/
theorem strtok_of_space (here : buffer.drop position = word ++ space :: rest)
    (letters : ∀ c ∈ word, inToken c = true) (nonempty : word ≠ []) :
    strtok buffer position =
      ⟨some position, buffer.set (position + word.length) 0, position + word.length + 1⟩ := by
  have started := getD_start here letters nonempty
  have ended : buffer.getD (position + word.length) 0 ≠ 0 := by
    rw [getD_behind here]
    decide
  simp only [strtok, strspn_word here letters nonempty, Nat.add_zero,
    strcspn_word here letters (by decide), if_neg started, if_neg ended]

/-- A word that ends the string. -/
theorem strtok_of_nul (here : buffer.drop position = word ++ 0 :: rest)
    (letters : ∀ c ∈ word, inToken c = true) (nonempty : word ≠ []) :
    strtok buffer position = ⟨some position, buffer, position + word.length⟩ := by
  have started := getD_start here letters nonempty
  simp only [strtok, strspn_word here letters nonempty, Nat.add_zero,
    strcspn_word here letters (by decide), if_neg started, getD_behind here, if_true]

/-- The end of the string. -/
theorem strtok_end (here : buffer.drop position = 0 :: rest) :
    strtok buffer position = ⟨none, buffer, position⟩ := by
  have blank : strspn buffer position = 0 := by
    rw [strspn, here]
    rfl
  have ended : buffer.getD position 0 = 0 := by
    rw [getD_eq_headD_drop, here, List.headD_cons]
  simp only [strtok, blank, Nat.add_zero, if_pos ended]

/-- The calls on a string of two words. -/
theorem strtoks_two {first second : List UInt8} (letters1 : ∀ c ∈ first, inToken c = true)
    (nonempty1 : first ≠ []) (letters2 : ∀ c ∈ second, inToken c = true)
    (nonempty2 : second ≠ []) (rest : List UInt8) :
    strtoks 3 (first ++ space :: (second ++ 0 :: rest)) 0 =
      ([some 0, some (first.length + 1), none], first ++ 0 :: (second ++ 0 :: rest)) := by
  have cut : (first ++ space :: (second ++ 0 :: rest)).set first.length 0 =
      first ++ 0 :: (second ++ 0 :: rest) := by
    rw [List.set_append_right _ _ le_rfl, Nat.sub_self, List.set_cons_zero]
  have behind : (first ++ 0 :: (second ++ 0 :: rest)).drop (first.length + 1) =
      second ++ 0 :: rest := by
    rw [← List.drop_drop, List.drop_left, List.drop_one, List.tail_cons]
  have ending : (first ++ 0 :: (second ++ 0 :: rest)).drop (first.length + 1 + second.length) =
      0 :: rest := by
    rw [← List.drop_drop, behind, List.drop_left]
  simp only [strtoks, strtok_of_space List.drop_zero letters1 nonempty1, Nat.zero_add, cut,
    strtok_of_nul behind letters2 nonempty2, strtok_end ending]

theorem cString_word (here : buffer.drop position = word ++ 0 :: rest)
    (letters : ∀ c ∈ word, inToken c = true) : cString buffer position = word := by
  rw [cString, here]
  apply takeWhile_eq_of_append
  · exact fun c member => (Bool.and_eq_true_iff.mp (letters c member)).2
  · rintro c ⟨⟩
    rfl

end Strtok

/-! ## The buffer between two requests -/

/-- The path of a `GET`. -/
structure GetPath where
  path : List UInt8
  letters : ∀ c ∈ path, inToken c = true
  nonempty : path ≠ []
  short : path.length + 4 < bufferSize

/-- The request of the client. -/
def getText (path : List UInt8) : List UInt8 := ascii "GET" ++ space :: path

theorem letters_get : ∀ c ∈ ascii "GET", inToken c = true := List.all_eq_true.mp rfl

theorem length_getText (path : List UInt8) : (getText path).length = path.length + 4 := by
  rw [getText, List.length_append, List.length_cons]
  have command : (ascii "GET").length = 3 := by decide
  omega

/-- A `GET` and the answers of the system. -/
def GetPath.request (path : GetPath) (answers : Answers) : Request where
  message :=
    { text := getText path.path
      short := by
        rw [length_getText]
        exact path.short
      plain := by
        rw [getText, List.mem_append, List.mem_cons]
        rintro (command | blank | member)
        · exact absurd command (by decide)
        · exact absurd blank (by decide)
        · exact absurd (path.letters 0 member) (by decide) }
  answers

/-- A path goes on with what an earlier string leaves behind its end. -/
def overlay (path before : List UInt8) : List UInt8 := path ++ before.drop path.length

/-- What the buffer holds behind the command of a `GET`, where the last of some paths was
received last. -/
def opened (paths : List GetPath) : List UInt8 :=
  paths.foldl (fun before path => overlay path.path before) []

/-- The string behind the command in the buffer, and nothing behind it. -/
structure Holds (string : List UInt8) (buffer : MessageBuffer) : Prop where
  bytes : ∃ front : List UInt8, front.length = 4 ∧
    buffer.bytes = front ++ (string ++ List.replicate (bufferSize - 4 - string.length) 0)
  letters : ∀ c ∈ string, inToken c = true
  fits : string.length + 4 < bufferSize

theorem cleared_holds : Holds [] cleared where
  bytes := by
    refine ⟨List.replicate 4 0, List.length_replicate, ?_⟩
    rw [List.nil_append, ← List.replicate_add]
    rfl
  letters := by
    intro c member
    cases member
  fits := by decide

theorem length_overlay (path before : List UInt8) :
    (overlay path before).length = max path.length before.length := by
  rw [overlay, List.length_append, List.length_drop]
  omega

section Received

variable {string : List UInt8} {buffer : MessageBuffer}

theorem Holds.overlay (holds : Holds string buffer) (path : GetPath) :
    (∀ c ∈ overlay path.path string, inToken c = true) ∧
      (overlay path.path string).length + 4 < bufferSize := by
  constructor
  · intro c member
    rcases List.mem_append.mp member with here | behind
    · exact path.letters c here
    · exact holds.letters c (List.mem_of_mem_drop behind)
  · rw [length_overlay]
    have first := path.short
    have second := holds.fits
    omega

/-- The buffer when a `GET` has arrived. -/
theorem Holds.receive (holds : Holds string buffer) (path : GetPath) (answers : Answers) :
    (buffer.receive (path.request answers).message.text
        (path.request answers).message.short).bytes =
      getText (FileTransfer.overlay path.path string) ++
        List.replicate (bufferSize - 4 - (FileTransfer.overlay path.path string).length) 0 := by
  rcases holds.bytes with ⟨front, length, bytes⟩
  have text : (path.request answers).message.text = getText path.path := rfl
  have zeros :
      List.replicate (bufferSize - 4 - string.length - (path.path.length - string.length)) 0 =
        List.replicate (bufferSize - 4 - (FileTransfer.overlay path.path string).length)
          (0 : UInt8) := by
    rw [length_overlay]
    congr 1
    omega
  have behind : buffer.bytes.drop (path.path.length + 4) =
      string.drop path.path.length ++
        List.replicate (bufferSize - 4 - (FileTransfer.overlay path.path string).length) 0 := by
    rw [bytes, Nat.add_comm, ← List.drop_drop, List.drop_left' length, List.drop_append,
      List.drop_replicate, zeros]
  rw [Buffer.receive]
  dsimp only
  rw [text, length_getText, behind, getText, getText, FileTransfer.overlay]
  simp only [List.append_assoc, List.cons_append]

/-- What the loop extracts when a `GET` has arrived, and the buffer it leaves. -/
theorem Holds.extracted (holds : Holds string buffer) (path : GetPath) (answers : Answers) :
    let found := FileTransfer.extracted buffer (path.request answers)
    found.string found.command = some (ascii "GET") ∧
      found.string found.remoteFilePath = some (FileTransfer.overlay path.path string) ∧
      Holds (FileTransfer.overlay path.path string) found.buffer := by
  have received := holds.receive path answers
  rcases holds.overlay path with ⟨letters, fits⟩
  have nonempty : FileTransfer.overlay path.path string ≠ [] :=
    List.append_ne_nil_of_left_ne_nil path.nonempty _
  generalize FileTransfer.overlay path.path string = now at *
  obtain ⟨zeros, more⟩ : ∃ zeros, bufferSize - 4 - now.length = zeros + 1 :=
    Nat.exists_eq_succ_of_ne_zero (by omega)
  rw [more, List.replicate_succ, getText, List.append_assoc, List.cons_append] at received
  dsimp only
  rw [FileTransfer.extracted, extractMessage]
  generalize buffer.receive (path.request answers).message.text
    (path.request answers).message.short = message at received
  have calls := @strtoks_two (ascii "GET") now letters_get (by decide) letters nonempty
    (List.replicate zeros 0)
  rw [← received] at calls
  have pointers : [(extract message).command, (extract message).remoteFilePath,
      (extract message).localFilePath] = [some 0, some 4, none] := by
    have found := congrArg Prod.fst calls
    simp only [strtoks] at found
    simp only [extract, found]
    rfl
  have bytes : (extract message).buffer.bytes =
      ascii "GET" ++ 0 :: (now ++ 0 :: List.replicate zeros 0) := congrArg Prod.snd calls
  injection pointers with command pointers
  injection pointers with remoteFilePath _
  refine ⟨?_, ?_, ⟨⟨ascii "GET" ++ [0], by decide, ?_⟩, letters, fits⟩⟩
  · rw [Extracted.string, command, Option.map_some, bytes, cString_word List.drop_zero letters_get]
  · have behind : (ascii "GET" ++ 0 :: (now ++ 0 :: List.replicate zeros 0)).drop 4 =
        now ++ 0 :: List.replicate zeros 0 := rfl
    rw [Extracted.string, remoteFilePath, Option.map_some, bytes, cString_word behind letters]
  · rw [bytes, more, List.replicate_succ]
    simp

end Received

/-! ## Runs -/

theorem opened_snoc (paths : List GetPath) (path : GetPath) :
    opened (paths ++ [path]) = overlay path.path (opened paths) := by
  rw [opened, List.foldl_append, ← opened, List.foldl_cons, List.foldl_nil]

theorem length_opened_le_iff {n : Nat} {paths : List GetPath} :
    (opened paths).length ≤ n ↔ ∀ path ∈ paths, path.path.length ≤ n := by
  induction paths using List.reverseRecOn with
  | nil => simp [opened]
  | append_singleton paths path ih =>
      rw [opened_snoc, length_overlay, Nat.max_le, ih, and_comm]
      simp [or_imp, forall_and]

theorem overlay_eq_iff {path before : List UInt8} :
    overlay path before = path ↔ before.length ≤ path.length := by
  rw [overlay, List.append_right_eq_self, List.drop_eq_nil_iff]

theorem step_get {buffer : MessageBuffer} {request : Request}
    (get : (extracted buffer request).string (extracted buffer request).command =
      some (ascii "GET")) :
    step buffer request =
      if fileSent ((extracted buffer request).string (extracted buffer request).remoteFilePath)
        request.answers then some (extracted buffer request).buffer else none := by
  rw [step, dispatch, get]
  dsimp only
  rw [if_pos rfl]

/-- What the buffer holds after a run of `GET`s. -/
theorem exec_holds {past : List (GetPath × Answers)} {buffer : MessageBuffer}
    (served : exec step cleared (past.map fun get => get.1.request get.2) = some buffer) :
    Holds (opened (past.map Prod.fst)) buffer := by
  induction past using List.reverseRecOn generalizing buffer with
  | nil =>
      rw [List.map_nil, exec_nil, Option.some_inj] at served
      rw [← served]
      exact cleared_holds
  | append_singleton past get ih =>
      rw [List.map_append, List.map_singleton, exec_snoc, Option.bind_eq_some_iff] at served
      rcases served with ⟨before, ran, stepped⟩
      rcases (ih ran).extracted get.1 get.2 with ⟨command, _, holds⟩
      rw [step_get command, Option.ite_none_right_eq_some, Option.some_inj] at stepped
      rw [List.map_append, List.map_singleton, opened_snoc, ← stepped.2]
      exact holds

/-- After a run of `GET`s the server opens the path of the next one exactly when no path
asked for before was longer; otherwise it opens a path that goes on with the rest of an
earlier one. -/
theorem get_opens_iff {past : List (GetPath × Answers)} {buffer : MessageBuffer}
    (served : exec step cleared (past.map fun get => get.1.request get.2) = some buffer)
    (path : GetPath) (answers : Answers) :
    (extracted buffer (path.request answers)).string
        (extracted buffer (path.request answers)).remoteFilePath =
          some (overlay path.path (opened (past.map Prod.fst))) ∧
      ((extracted buffer (path.request answers)).string
          (extracted buffer (path.request answers)).remoteFilePath = some path.path ↔
        ∀ get ∈ past, get.1.path.length ≤ path.path.length) := by
  have found := ((exec_holds served).extracted path answers).2.1
  refine ⟨found, ?_⟩
  rw [found, Option.some_inj, overlay_eq_iff, length_opened_le_iff, List.forall_mem_map]

/-- The paths `ab` and `c`. -/
def pathAb : GetPath := ⟨ascii "ab", List.all_eq_true.mp rfl, by decide, by decide⟩

def pathC : GetPath := ⟨ascii "c", List.all_eq_true.mp rfl, by decide, by decide⟩

/-- After `GET ab` the request `GET c` opens `cb`. -/
theorem get_opens_iff_after_longer :
    ∃ buffer, exec step cleared [pathAb.request ⟨fun _ => some [], true, true⟩] = some buffer ∧
      (extracted buffer (pathC.request ⟨fun _ => none, true, true⟩)).string
        (extracted buffer (pathC.request ⟨fun _ => none, true, true⟩)).remoteFilePath =
          some (ascii "cb") := by
  have found := (cleared_holds.extracted pathAb ⟨fun _ => some [], true, true⟩)
  have served : exec step cleared [pathAb.request ⟨fun _ => some [], true, true⟩] =
      some (extracted cleared (pathAb.request ⟨fun _ => some [], true, true⟩)).buffer := by
    rw [exec, step_get found.1, found.2.1]
    rfl
  exact ⟨_, served, (@get_opens_iff [(pathAb, ⟨fun _ => some [], true, true⟩)] _ served pathC
    ⟨fun _ => none, true, true⟩).1⟩

end ComputerSystems.FileTransfer
