import ComputerSystems.Loop.While
import ComputerSystems.Text.Lines
import ComputerSystems.VirtualMemory.PageTable

/-!
# The addresses of an input file

The reading loop of `main` takes one address from each string that `fgets` returns. The
buffer holds nine characters, so a line of more than eight digits is read in pieces,
each of which is translated as an address of its own.
-/

namespace ComputerSystems.VirtualMemory

open ComputerSystems.Loop
open ComputerSystems.Text

/-- `MAX_ADDR_LEN`. -/
def maxAddrLen : Nat := 10

/-- What is left of the input file, the state of the simulator, and the values of
`virtual_addr` that have been translated. -/
structure Reading where
  file : List UInt8
  state : State
  translated : List (BitVec 32)

/-- One pass of the reading loop of `main`. -/
def readingBody (algoChoice : Char) (store : BackingStore) (reading : Reading) :
    Iteration Reading :=
  match fgets maxAddrLen reading.file with
  | none => .exit
  | some (addressReadBuffer, file) =>
      let virtualAddr := atoi addressReadBuffer
      match mainStep algoChoice store reading.state virtualAddr with
      | none => .crash
      | some state => .next ⟨file, state, reading.translated ++ [virtualAddr]⟩

/-- The reading loop of `main` on an input file. -/
def readFile (algoChoice : Char) (store : BackingStore) (fresh : FreshMemory) (file : List UInt8)
    (fuel : Nat) : Outcome Reading :=
  loop (readingBody algoChoice store) fuel ⟨file, bootState fresh, []⟩

/-- A line with a number that fits in an `int`. -/
structure Line where
  digits : List UInt8
  nonempty : digits ≠ []
  decimal : ∀ c ∈ digits, isdigit c = true
  fits : decimalValue digits < 2 ^ 31

/-- The integer of a line. -/
def Line.value (line : Line) : BitVec 32 :=
  BitVec.ofNat 32 (decimalValue line.digits)

/-- The file of some lines. -/
def inputFile (lines : List Line) : List UInt8 :=
  lines.flatMap fun line => line.digits ++ [newline]

/-- The loop ends, and it has translated the integer of every line, in order. -/
def TranslatesLines (algoChoice : Char) (store : BackingStore) (fresh : FreshMemory)
    (lines : List Line) : Prop :=
  ∃ final, Completes (readFile algoChoice store fresh (inputFile lines)) final ∧
    final.translated = lines.map Line.value

/-- The addresses that the loop reads from a file. -/
def addresses (file : List UInt8) : List (BitVec 32) :=
  match _read : fgets maxAddrLen file with
  | none => []
  | some (addressReadBuffer, rest) => atoi addressReadBuffer :: addresses rest
termination_by file.length
decreasing_by exact fgets_length ‹_›

variable {algoChoice : Char} {store : BackingStore} {fresh : FreshMemory} {reading : Reading}
  {digits rest file addressReadBuffer : List UInt8} {lines : List Line}

/-! ## The loop and the addresses of the file -/

theorem addresses_of_none (ended : fgets maxAddrLen file = none) : addresses file = [] := by
  rw [addresses]
  split
  · rfl
  · rename_i read
    rw [ended] at read
    cases read

theorem addresses_of_some (read : fgets maxAddrLen file = some (addressReadBuffer, rest)) :
    addresses file = atoi addressReadBuffer :: addresses rest := by
  rw [addresses]
  split
  · rename_i ended
    rw [read] at ended
    cases ended
  · rename_i also
    rw [read] at also
    cases also
    rfl

/-- The loop translates the addresses of its file. -/
theorem reading_completes (loaded : Loaded store reading.state) :
    ∃ final, Completes (fun fuel => loop (readingBody algoChoice store) fuel reading) final ∧
      final.translated = reading.translated ++ addresses reading.file := by
  induction size : reading.file.length using Nat.strong_induction_on generalizing reading with
  | h bound ih =>
      rcases read : fgets maxAddrLen reading.file with _ | ⟨addressReadBuffer, rest⟩
      · refine ⟨reading, loop_exit ?_, ?_⟩
        · rw [readingBody, read]
        · rw [addresses_of_none read, List.append_nil]
      · rcases exists_call algoChoice loaded (atoi addressReadBuffer) with ⟨_, _, next, call, _⟩
        have smaller : rest.length < bound := by
          rw [← size]
          exact fgets_length read
        let later : Reading := ⟨rest, next, reading.translated ++ [atoi addressReadBuffer]⟩
        rcases @ih _ smaller later (call.loaded.congr call.table) rfl with
          ⟨final, completes, translated⟩
        refine ⟨final, loop_next ?_ completes, ?_⟩
        · rw [readingBody, read]
          dsimp only
          rw [call.steps]
        · rw [translated, addresses_of_some read, List.append_assoc, List.singleton_append]

theorem translatesLines_iff_addresses :
    TranslatesLines algoChoice store fresh lines ↔
      addresses (inputFile lines) = lines.map Line.value := by
  rcases @reading_completes algoChoice store ⟨inputFile lines, bootState fresh, []⟩
    (bootState_loaded store fresh) with ⟨final, completes, translated⟩
  rw [List.nil_append] at translated
  rw [← translated]
  constructor
  · rintro ⟨_, also, values⟩
    rw [(loop_stable _ _).unique completes also]
    exact values
  · exact fun values => ⟨final, completes, values⟩

/-! ## Lines -/

theorem ne_newline_of_digit {c : UInt8} (digit : isdigit c = true) : c ≠ newline := by
  rintro rfl
  exact absurd digit (by decide)

/-- A line of at most eight digits gives one address. -/
theorem addresses_short (line : Line) (short : line.digits.length ≤ 8) (rest : List UInt8) :
    addresses (line.digits ++ newline :: rest) = line.value :: addresses rest := by
  have plain : ∀ c ∈ line.digits, c ≠ newline :=
    fun c member => ne_newline_of_digit (line.decimal c member)
  have read : fgets maxAddrLen (line.digits ++ newline :: rest) =
      some (line.digits ++ [newline], rest) :=
    fgets_line plain (by rw [maxAddrLen]; omega)
  rw [addresses_of_some read, atoi_digits line.nonempty line.decimal (by decide), Line.value]

/-- A line gives an address for every nine digits, and one more. -/
theorem length_addresses (decimal : ∀ c ∈ digits, isdigit c = true) (rest : List UInt8) :
    (addresses (digits ++ newline :: rest)).length =
      digits.length / 9 + 1 + (addresses rest).length := by
  induction size : digits.length using Nat.strong_induction_on generalizing digits with
  | h bound ih =>
      have plain : ∀ c ∈ digits, c ≠ newline :=
        fun c member => ne_newline_of_digit (decimal c member)
      by_cases short : digits.length ≤ 8
      · have read : fgets maxAddrLen (digits ++ newline :: rest) =
            some (digits ++ [newline], rest) := fgets_line plain (by rw [maxAddrLen]; omega)
        rw [addresses_of_some read, List.length_cons]
        omega
      · have read : fgets maxAddrLen (digits ++ newline :: rest) =
            some (digits.take (maxAddrLen - 1), digits.drop (maxAddrLen - 1) ++ newline :: rest) :=
          fgets_piece (by decide) plain (by rw [maxAddrLen]; omega)
        have cut : (digits.drop (maxAddrLen - 1)).length = bound - 9 := by
          rw [List.length_drop, size]
          rfl
        have later := ih (bound - 9) (by omega)
          (fun c member => decimal c (List.mem_of_mem_drop member)) cut
        rw [addresses_of_some read, List.length_cons, later]
        omega

theorem inputFile_cons (line : Line) (lines : List Line) :
    inputFile (line :: lines) = line.digits ++ newline :: inputFile lines := by
  rw [inputFile, List.flatMap_cons, List.append_assoc, List.singleton_append]
  rfl

/-- There are at least as many addresses as lines, and more when a line is long. -/
theorem length_le_addresses (lines : List Line) :
    lines.length ≤ (addresses (inputFile lines)).length ∧
      ((addresses (inputFile lines)).length ≤ lines.length →
        ∀ line ∈ lines, line.digits.length ≤ 8) := by
  induction lines with
  | nil => exact ⟨Nat.zero_le _, fun _ => nofun⟩
  | cons line lines ih =>
      rcases ih with ⟨least, short⟩
      have length := length_addresses line.decimal (inputFile lines)
      rw [inputFile_cons, List.length_cons]
      refine ⟨by omega, fun most => List.forall_mem_cons.mpr ⟨by omega, short (by omega)⟩⟩

/-- The loop translates the integer of every line exactly when no line has more than eight
digits. -/
theorem translatesLines_iff (algoChoice : Char) (store : BackingStore) (fresh : FreshMemory)
    (lines : List Line) :
    TranslatesLines algoChoice store fresh lines ↔
      ∀ line ∈ lines, line.digits.length ≤ 8 := by
  rw [translatesLines_iff_addresses]
  constructor
  · intro values
    apply (length_le_addresses lines).2
    rw [values, List.length_map]
  · intro short
    induction lines with
    | nil => exact addresses_of_none (fgets_nil _)
    | cons line lines ih =>
        rcases List.forall_mem_cons.mp short with ⟨here, later⟩
        rw [inputFile_cons, addresses_short line here, ih later, List.map_cons]

/-- The line 123456789 is read in two pieces. -/
theorem not_translatesLines_nine_digits :
    ¬ ∀ algoChoice store fresh lines, TranslatesLines algoChoice store fresh lines := by
  intro always
  let line : Line :=
    ⟨[49, 50, 51, 52, 53, 54, 55, 56, 57], nofun, by decide +kernel, by decide +kernel⟩
  have values := translatesLines_iff_addresses.mp
    (always '1' (fun _ => 0#8) FreshMemory.zero [line])
  have short := (length_le_addresses [line]).2 (by rw [values, List.length_map])
  exact absurd (short line List.mem_cons_self) (by decide)

end ComputerSystems.VirtualMemory
