import ComputerSystems.Text.Words

/-!
# Strings in a buffer

A string of C is what stands in a buffer from a position to the next NUL. The
functions of `string.h` on such strings read and store bytes of the buffer:
`strtok` ends each word by a NUL and gives its position.
-/

namespace ComputerSystems.Text

/-- A byte that does not end a string. -/
def inString (c : UInt8) : Bool := c != 0

/-- The string at a position of a buffer. -/
def cString (buffer : List UInt8) (position : Nat) : List UInt8 :=
  (buffer.drop position).takeWhile inString

/-- The character that separates the words. -/
def space : UInt8 := 32

/-- A byte that does not end a word. -/
def inWord (c : UInt8) : Bool := c != space

/-- A byte at which `strtok` does not stop. -/
def inToken (c : UInt8) : Bool := inWord c && inString c

/-- The number of spaces at a position. -/
def strspn (buffer : List UInt8) (position : Nat) : Nat :=
  ((buffer.drop position).takeWhile fun c => !inWord c).length

/-- The word at a position, up to a space or the end of the string. -/
def wordAt (buffer : List UInt8) (position : Nat) : List UInt8 :=
  (buffer.drop position).takeWhile inToken

/-- The number of bytes at a position before a space or the end of the string. -/
def strcspn (buffer : List UInt8) (position : Nat) : Nat :=
  (wordAt buffer position).length

/-- What `strtok` leaves behind: the position of the word, if there is one, the
buffer, and the position at which the next call starts. -/
structure Token where
  word : Option Nat
  buffer : List UInt8
  saved : Nat

/-- A call of `strtok` with `" "` that starts at a position of the buffer. -/
def strtok (buffer : List UInt8) (position : Nat) : Token :=
  let start := position + strspn buffer position
  let ending := start + strcspn buffer start
  if buffer.getD start 0 = 0 then ⟨none, buffer, start⟩
  else if buffer.getD ending 0 = 0 then ⟨some start, buffer, ending⟩
  else ⟨some start, buffer.set ending 0, ending + 1⟩

/-- One call of `strtok` after another: the words found, and the buffer at the
end. -/
def strtoks : Nat → List UInt8 → Nat → List (Option Nat) × List UInt8
  | 0, buffer, _ => ([], buffer)
  | n + 1, buffer, position =>
      let token := strtok buffer position
      let later := strtoks n token.buffer token.saved
      (token.word :: later.1, later.2)

/-- `strrchr`: the position of the last such character of a string. -/
def strrchr (buffer : List UInt8) (position : Nat) (c : UInt8) : Option Nat :=
  let string := cString buffer position
  (string.reverse.findIdx? fun d => d = c).map fun back => position + (string.length - 1 - back)

/-- `strcat`: a string is stored behind the string at a position, with its NUL. There
is no result where that goes beyond the buffer. -/
def strcat (buffer : List UInt8) (position : Nat) (string : List UInt8) : Option (List UInt8) :=
  let ending := position + (cString buffer position).length
  if ending + string.length < buffer.length then
    some (buffer.take ending ++ (string ++ 0 :: buffer.drop (ending + string.length + 1)))
  else none

/-- `sprintf` to a position: a string is stored there, with its NUL. There is no result
where that goes beyond the buffer. -/
def sprintf (buffer : List UInt8) (position : Nat) (string : List UInt8) : Option (List UInt8) :=
  if position + string.length < buffer.length then
    some (buffer.take position ++ (string ++ 0 :: buffer.drop (position + string.length + 1)))
  else none

/-- The bytes of a text of ASCII characters. -/
def ascii (text : String) : List UInt8 :=
  text.toList.map fun c => c.toNat.toUInt8

/-- The words of a string. -/
def spaced (text : List UInt8) : List (List UInt8) :=
  words inWord text

variable {buffer later : List UInt8} {position start : Nat}

theorem takeWhile_eq_of_append {α : Type*} {p : α → Bool} {front back : List α}
    (inside : ∀ a ∈ front, p a = true) (outside : ∀ a ∈ back.head?, p a = false) :
    (front ++ back).takeWhile p = front := by
  rw [List.takeWhile_append_of_pos inside]
  cases back with
  | nil => rw [List.takeWhile_nil, List.append_nil]
  | cons a rest =>
      rw [List.takeWhile_cons_of_neg (Bool.eq_false_iff.mp (outside a rfl)), List.append_nil]

theorem drop_length_takeWhile {α : Type*} (p : α → Bool) (text : List α) (n : Nat) :
    text.drop (n + ((text.drop n).takeWhile p).length) = (text.drop n).dropWhile p := by
  rw [← List.drop_drop]
  generalize text.drop n = rest
  have split := List.takeWhile_append_dropWhile (p := p) (l := rest)
  calc rest.drop (rest.takeWhile p).length
      = (rest.takeWhile p ++ rest.dropWhile p).drop (rest.takeWhile p).length := by rw [split]
    _ = rest.dropWhile p := List.drop_left

theorem head?_dropWhile {α : Type*} {p : α → Bool} {text : List α} {a : α}
    (here : (text.dropWhile p).head? = some a) : p a = false := by
  have stopped := List.head?_dropWhile_not p text
  rwa [here] at stopped

/-- The longest run at the start of a list depends on the elements up to its end
only. -/
theorem takeWhile_congr {α : Type*} {p : α → Bool} {text other : List α}
    (same : ∀ i ≤ (text.takeWhile p).length, other[i]? = text[i]?) :
    other.takeWhile p = text.takeWhile p := by
  induction text generalizing other with
  | nil =>
      have empty := same 0 (Nat.zero_le _)
      rw [List.getElem?_nil, List.getElem?_eq_none_iff, Nat.le_zero, List.length_eq_zero_iff]
        at empty
      rw [empty]
  | cons a rest ih =>
      have first := same 0 (Nat.zero_le _)
      rw [List.getElem?_cons_zero] at first
      rcases other with _ | ⟨b, others⟩
      · cases first
      · cases Option.some.inj first
        cases inside : p a with
        | false => rw [List.takeWhile_cons, List.takeWhile_cons, inside]; rfl
        | true =>
            rw [List.takeWhile_cons_of_pos inside, List.takeWhile_cons_of_pos inside, ih]
            intro i bound
            have further := same (i + 1) (by
              rw [List.takeWhile_cons_of_pos inside, List.length_cons]
              omega)
            rwa [List.getElem?_cons_succ, List.getElem?_cons_succ] at further

/-- A string depends on the bytes up to its NUL only. -/
theorem cString_congr {bound : Nat} (same : ∀ i ≤ bound, later[i]? = buffer[i]?)
    (ends : start + (cString buffer start).length ≤ bound) :
    cString later start = cString buffer start := by
  refine takeWhile_congr ?_
  intro i bounded
  rw [List.getElem?_drop, List.getElem?_drop]
  exact same (start + i) ((Nat.add_le_add_left bounded start).trans ends)

theorem getD_eq_headD_drop (text : List UInt8) (i : Nat) :
    text.getD i 0 = (text.drop i).headD 0 := by
  rw [List.getD_eq_getElem?_getD, ← List.head?_drop, List.headD_eq_head?_getD]

theorem takeWhile_of_nul {text : List UInt8} (ended : text.headD 0 = 0) :
    text.takeWhile inString = [] := by
  cases text with
  | nil => rfl
  | cons c rest =>
      rw [List.headD_cons] at ended
      rw [ended]
      rfl

/-- The spaces before a string belong to no word. -/
theorem spaced_skip (buffer : List UInt8) (position : Nat) :
    spaced (cString buffer position) =
      spaced (cString buffer (position + strspn buffer position)) := by
  have split := List.takeWhile_append_dropWhile (p := fun c => !inWord c)
    (l := buffer.drop position)
  have rest := drop_length_takeWhile (fun c => !inWord c) buffer position
  have blank : ∀ c ∈ (buffer.drop position).takeWhile fun c => !inWord c, inWord c = false := by
    intro c member
    simpa using List.mem_takeWhile_imp (p := fun c => !inWord c) member
  rw [cString, cString, strspn, rest]
  conv_lhs => rw [← split]
  generalize (buffer.drop position).takeWhile (fun c => !inWord c) = spaces at blank
  generalize (buffer.drop position).dropWhile (fun c => !inWord c) = later
  rw [List.takeWhile_append_of_pos, spaced, words_append, words_of_breaks blank, List.nil_append]
  · rfl
  · intro c here _ _ both
    exact absurd both.1 (Bool.eq_false_iff.mp (blank c (List.mem_of_mem_getLast? here)))
  · intro c member
    have here := blank c member
    rw [inWord, bne_eq_false_iff_eq] at here
    rw [here]
    rfl

/-- Behind the spaces, what does not end the string starts a word. -/
theorem inToken_skip (nonempty : buffer.getD (position + strspn buffer position) 0 ≠ 0) :
    inToken (buffer.getD (position + strspn buffer position) 0) = true := by
  rw [List.getD_eq_getElem?_getD] at nonempty ⊢
  cases here : buffer[position + strspn buffer position]? with
  | none =>
      rw [here] at nonempty
      exact absurd rfl nonempty
  | some c =>
      rw [here] at nonempty
      rw [← List.head?_drop, strspn, drop_length_takeWhile] at here
      have stopped := head?_dropWhile here
      exact Bool.and_eq_true_iff.mpr ⟨Bool.not_eq_false' .. ▸ stopped, bne_iff_ne.mpr nonempty⟩

/-- A word and what stands behind it. -/
theorem drop_eq_wordAt_append (buffer : List UInt8) (start : Nat) :
    buffer.drop start = wordAt buffer start ++ buffer.drop (start + strcspn buffer start) := by
  rw [strcspn, wordAt, drop_length_takeWhile]
  exact List.takeWhile_append_dropWhile.symm

theorem of_mem_wordAt {c : UInt8} (member : c ∈ wordAt buffer start) :
    inWord c = true ∧ inString c = true :=
  Bool.and_eq_true_iff.mp (List.mem_takeWhile_imp (p := inToken) member)

theorem inToken_behind {c : UInt8} (here : buffer[start + strcspn buffer start]? = some c) :
    inToken c = false := by
  rw [← List.head?_drop, strcspn, wordAt, drop_length_takeWhile] at here
  exact head?_dropWhile here

/-- A string that does not end with a word goes on behind a space. -/
theorem drop_of_cut (nonempty : buffer.getD (start + strcspn buffer start) 0 ≠ 0) :
    buffer.drop (start + strcspn buffer start) =
      space :: buffer.drop (start + strcspn buffer start + 1) := by
  cases here : buffer[start + strcspn buffer start]? with
  | none =>
      rw [List.getD_eq_getElem?_getD, here] at nonempty
      exact absurd rfl nonempty
  | some c =>
      rw [List.getD_eq_getElem?_getD, here, Option.getD_some] at nonempty
      have outside := inToken_behind here
      rw [inToken, Bool.and_eq_false_iff, inWord, inString, bne_eq_false_iff_eq,
        bne_eq_false_iff_eq] at outside
      rcases List.getElem?_eq_some_iff.mp here with ⟨bound, value⟩
      rw [List.drop_eq_getElem_cons bound, value, outside.resolve_right nonempty]

section Word

variable (started : inToken (buffer.getD start 0) = true)

include started

theorem wordAt_ne_nil : wordAt buffer start ≠ [] := by
  rw [getD_eq_headD_drop] at started
  rw [wordAt]
  cases rest : buffer.drop start with
  | nil =>
      rw [rest] at started
      cases started
  | cons c others =>
      rw [rest, List.headD_cons] at started
      rw [List.takeWhile_cons_of_pos started]
      exact List.cons_ne_nil _ _

theorem lt_behind : start < start + strcspn buffer start :=
  Nat.lt_add_of_pos_right (List.length_pos_iff.mpr (wordAt_ne_nil started))

/-- A string that starts with a word is that word and the words behind it. -/
theorem spaced_of_word :
    spaced (cString buffer start) =
      wordAt buffer start :: spaced (cString buffer (start + strcspn buffer start)) := by
  rw [cString, drop_eq_wordAt_append, List.takeWhile_append_of_pos, spaced, words_append,
    words_of_letters, List.singleton_append]
  · rfl
  · exact fun c member => (of_mem_wordAt member).1
  · exact wordAt_ne_nil started
  · intro _ _ c here both
    rw [Option.mem_def, List.head?_takeWhile, Option.filter_eq_some_iff, List.head?_drop] at here
    rcases here with ⟨first, inside⟩
    exact absurd (Bool.and_eq_true_iff.mpr ⟨both.2, inside⟩)
      (Bool.eq_false_iff.mp (inToken_behind first))
  · exact fun c member => (of_mem_wordAt member).2

end Word

/-- What a call of `strtok` gives: the bytes up to where it starts stay, and it finds
the first word of the string and leaves the others behind. -/
structure Splits (buffer : List UInt8) (position : Nat) (token : Token) : Prop where
  onward : position ≤ token.saved
  kept : ∀ i ≤ position, token.buffer[i]? = buffer[i]?
  found : ∀ start, token.word = some start →
    start + (cString token.buffer start).length ≤ token.saved
  words : token.word.map (cString token.buffer) = (spaced (cString buffer position)).head?
  rest : spaced (cString token.buffer token.saved) = (spaced (cString buffer position)).tail

section Splits

variable (onward : position ≤ start)
  (behind : spaced (cString buffer position) = spaced (cString buffer start))

include onward behind

/-- There is no word before the NUL. -/
theorem splits_none (nul : buffer.getD start 0 = 0) :
    Splits buffer position ⟨none, buffer, start⟩ := by
  have no_words : spaced (cString buffer start) = [] := by
    rw [getD_eq_headD_drop] at nul
    rw [cString, takeWhile_of_nul nul]
    exact words_nil
  constructor
  · exact onward
  · exact fun _ _ => rfl
  · intro _ found
    cases found
  · rw [behind, no_words]
    rfl
  · rw [behind, no_words]
    rfl

/-- The word ends with the string. -/
theorem splits_last (started : inToken (buffer.getD start 0) = true)
    (last : buffer.getD (start + strcspn buffer start) 0 = 0) :
    Splits buffer position ⟨some start, buffer, start + strcspn buffer start⟩ := by
  have whole : cString buffer start = wordAt buffer start := by
    rw [getD_eq_headD_drop] at last
    rw [cString, drop_eq_wordAt_append, List.takeWhile_append_of_pos, takeWhile_of_nul last,
      List.append_nil]
    exact fun c member => (of_mem_wordAt member).2
  rw [spaced_of_word started] at behind
  constructor
  · exact onward.trans (Nat.le_add_right _ _)
  · exact fun _ _ => rfl
  · intro _ found
    cases found
    rw [whole]
    rfl
  · rw [behind, Option.map_some, whole, List.head?_cons]
  · rw [behind, List.tail_cons]

/-- The word ends at a space, which becomes a NUL. -/
theorem splits_cut (started : inToken (buffer.getD start 0) = true)
    (more : buffer.getD (start + strcspn buffer start) 0 ≠ 0) :
    Splits buffer position ⟨some start, buffer.set (start + strcspn buffer start) 0,
      start + strcspn buffer start + 1⟩ := by
  have further := lt_behind started
  have ended := drop_of_cut more
  have whole : cString (buffer.set (start + strcspn buffer start) 0) start =
      wordAt buffer start := by
    rw [cString, List.drop_set, if_neg (Nat.not_lt.mpr further.le), drop_eq_wordAt_append, ended,
      Nat.add_sub_cancel_left, strcspn, List.set_append_right _ _ le_rfl, Nat.sub_self,
      List.set_cons_zero]
    exact takeWhile_eq_of_append (fun c member => (of_mem_wordAt member).2) (by simp [inString])
  rw [spaced_of_word started] at behind
  constructor
  · dsimp only
    omega
  · exact fun i bound => List.getElem?_set_ne (by omega)
  · intro _ found
    cases found
    rw [whole]
    exact Nat.le_succ _
  · rw [behind, Option.map_some, whole, List.head?_cons]
  · rw [behind, List.tail_cons]
    dsimp only
    rw [cString, cString, List.drop_set_of_lt (Nat.lt_succ_self _), ended,
      List.takeWhile_cons_of_pos rfl, spaced, spaced, words_cons_break rfl]

end Splits

theorem strtok_splits (buffer : List UInt8) (position : Nat) :
    Splits buffer position (strtok buffer position) := by
  have behind := spaced_skip buffer position
  have started := @inToken_skip buffer position
  have onward := Nat.le_add_right position (strspn buffer position)
  unfold strtok
  dsimp only
  split
  · rename_i nul
    exact splits_none onward behind nul
  · rename_i word
    split
    · rename_i last
      exact splits_last onward behind (started word) last
    · rename_i more
      exact splits_cut onward behind (started word) more

/-- The calls find the first words of the string, and the bytes up to where the first
call starts stay. -/
theorem strtoks_words (n : Nat) (buffer : List UInt8) (position : Nat) :
    (∀ i ≤ position, (strtoks n buffer position).2[i]? = buffer[i]?) ∧
      (strtoks n buffer position).1.map (Option.map (cString (strtoks n buffer position).2)) =
        (List.range n).map fun i => (spaced (cString buffer position))[i]? := by
  induction n generalizing buffer position with
  | zero => exact ⟨fun _ _ => rfl, rfl⟩
  | succ n ih =>
      have splits := strtok_splits buffer position
      rcases ih (strtok buffer position).buffer (strtok buffer position).saved with ⟨kept, later⟩
      constructor
      · intro i bound
        rw [strtoks, kept i (bound.trans splits.onward), splits.kept i bound]
      · have first : (strtok buffer position).word.map
            (cString (strtoks n (strtok buffer position).buffer (strtok buffer position).saved).2) =
              (spaced (cString buffer position))[0]? := by
          rw [← List.head?_eq_getElem?, ← splits.words]
          refine Option.map_congr fun start here => ?_
          exact cString_congr kept (splits.found start here)
        rw [strtoks, List.map_cons, later, splits.rest, List.range_succ_eq_map, List.map_cons,
          List.map_map, first]
        congr 1
        refine List.map_congr_left fun i _ => ?_
        rw [List.getElem?_tail]
        rfl

theorem strtok_buffer (buffer : List UInt8) (position : Nat) :
    (strtok buffer position).buffer = buffer ∨
      ∃ i, (strtok buffer position).buffer = buffer.set i 0 := by
  unfold strtok
  dsimp only
  split
  · exact Or.inl rfl
  · split
    · exact Or.inl rfl
    · exact Or.inr ⟨_, rfl⟩

/-- What the stores of single NULs keep is kept by the calls. -/
theorem strtoks_keeps {holds : List UInt8 → Prop}
    (keeps : ∀ buffer i, holds buffer → holds (buffer.set i 0)) (n : Nat) (position : Nat)
    (initially : holds buffer) : holds (strtoks n buffer position).2 := by
  induction n generalizing buffer position with
  | zero => exact initially
  | succ n ih =>
      refine ih _ ?_
      rcases strtok_buffer buffer position with same | ⟨i, stored⟩
      · rw [same]
        exact initially
      · rw [stored]
        exact keeps buffer i initially

/-! ## Buffers of a fixed size -/

/-- The bytes fill a buffer of a size, and the last one is NUL, so that every position
in it holds a string. -/
def Terminated (size : Nat) (bytes : List UInt8) : Prop :=
  bytes.length = size ∧ bytes[size - 1]? = some 0

theorem Terminated.set_nul {size : Nat} {bytes : List UInt8} (ends : Terminated size bytes)
    (i : Nat) : Terminated size (bytes.set i 0) := by
  constructor
  · rw [List.length_set, ends.1]
  · rw [List.getElem?_set]
    split
    · rename_i last
      have bound := (List.getElem?_eq_some_iff.mp ends.2).1
      rw [if_pos (by omega)]
    · exact ends.2

theorem Terminated.sprintf {size position : Nat} {bytes string result : List UInt8}
    (ends : Terminated size bytes) (stored : sprintf bytes position string = some result) :
    Terminated size result := by
  unfold Text.sprintf at stored
  split at stored
  · rename_i fits
    cases stored
    rw [ends.1] at fits
    have front : (bytes.take position).length = position := by
      rw [List.length_take, ends.1]
      omega
    constructor
    · rw [List.length_append, List.length_append, List.length_cons, front, List.length_drop, ends.1]
      omega
    · rw [List.getElem?_append_right (by omega), List.getElem?_append_right (by omega), front]
      rcases Nat.eq_zero_or_pos (size - 1 - position - string.length) with here | further
      · rw [here, List.getElem?_cons_zero]
      · rw [List.getElem?_cons, if_neg further.ne', List.getElem?_drop, ← ends.2]
        congr 1
        omega
  · cases stored

/-- `strcat` prints to the end of a string. -/
theorem strcat_eq_sprintf (buffer : List UInt8) (position : Nat) (string : List UInt8) :
    strcat buffer position string =
      sprintf buffer (position + (cString buffer position).length) string :=
  rfl

theorem Terminated.strcat {size position : Nat} {bytes string result : List UInt8}
    (ends : Terminated size bytes) (stored : strcat bytes position string = some result) :
    Terminated size result := by
  rw [strcat_eq_sprintf] at stored
  exact ends.sprintf stored

/-- What is printed behind bytes without a NUL goes on with them. -/
theorem cString_sprintf {bytes string result : List UInt8} {position : Nat}
    (stored : sprintf bytes position string = some result) (front : 0 ∉ bytes.take position)
    (plain : 0 ∉ string) : cString result 0 = bytes.take position ++ string := by
  unfold sprintf at stored
  split at stored
  · cases stored
    rw [cString, List.drop_zero, ← List.append_assoc]
    refine takeWhile_eq_of_append ?_ ?_
    · intro c member
      refine bne_iff_ne.mpr ?_
      rintro rfl
      exact (List.mem_append.mp member).elim front plain
    · rintro c ⟨⟩
      rfl
  · cases stored

/-- The string at the start of a buffer is what stands there before the first NUL. -/
theorem take_length_cString (bytes : List UInt8) :
    bytes.take (cString bytes 0).length = cString bytes 0 := by
  rw [cString, List.drop_zero]
  exact (List.prefix_iff_eq_take.mp (List.takeWhile_prefix inString)).symm

theorem nul_notMem_cString (bytes : List UInt8) (position : Nat) :
    0 ∉ cString bytes position := by
  intro member
  exact absurd (List.mem_takeWhile_imp member) (by decide)

/-- A buffer whose last byte is NUL. -/
structure Buffer (size : Nat) where
  bytes : List UInt8
  ends : Terminated size bytes

namespace Buffer

variable {size : Nat}

/-- A buffer after `memset` to NUL. -/
def cleared (size : Nat) (positive : 0 < size) : Buffer size where
  bytes := List.replicate size 0
  ends := by
    constructor
    · exact List.length_replicate
    · rw [List.getElem?_replicate, if_pos (Nat.sub_lt positive Nat.one_pos)]

/-- What arrives is stored at the start; the bytes behind it stay. -/
def receive (buffer : Buffer size) (text : List UInt8) (short : text.length < size) :
    Buffer size where
  bytes := text ++ buffer.bytes.drop text.length
  ends := by
    constructor
    · rw [List.length_append, List.length_drop, buffer.ends.1]
      omega
    · rw [List.getElem?_append_right (by omega), List.getElem?_drop,
        Nat.add_sub_cancel' (by omega)]
      exact buffer.ends.2

/-- The buffer that calls of `strtok` leave. -/
def strtoks (buffer : Buffer size) (n : Nat) : Buffer size where
  bytes := (Text.strtoks n buffer.bytes 0).2
  ends := strtoks_keeps (fun _ i ends => ends.set_nul i) n 0 buffer.ends

/-- `strcat` on a buffer. -/
def strcat (buffer : Buffer size) (position : Nat) (string : List UInt8) :
    Option (Buffer size) :=
  match stored : Text.strcat buffer.bytes position string with
  | none => none
  | some bytes => some ⟨bytes, buffer.ends.strcat stored⟩

/-- `sprintf` to a position of a buffer. -/
def sprintf (buffer : Buffer size) (position : Nat) (string : List UInt8) :
    Option (Buffer size) :=
  match stored : Text.sprintf buffer.bytes position string with
  | none => none
  | some bytes => some ⟨bytes, buffer.ends.sprintf stored⟩

/-- What `sprintf` leaves is what it stores in the bytes. -/
theorem map_bytes_sprintf (buffer : Buffer size) (position : Nat) (string : List UInt8) :
    (buffer.sprintf position string).map Buffer.bytes =
      Text.sprintf buffer.bytes position string := by
  unfold Buffer.sprintf
  split
  · rename_i missing
    exact missing.symm
  · rename_i bytes stored
    exact stored.symm

/-- The string that arrives goes on with what an earlier one left behind its end. -/
theorem cString_receive (buffer : Buffer size) {text : List UInt8} (short : text.length < size)
    (plain : 0 ∉ text) :
    cString (buffer.receive text short).bytes 0 = text ++ cString buffer.bytes text.length := by
  rw [cString, List.drop_zero, receive, List.takeWhile_append_of_pos]
  · rfl
  · intro c member
    exact bne_iff_ne.mpr fun nul => plain (nul ▸ member)

end Buffer

end ComputerSystems.Text
