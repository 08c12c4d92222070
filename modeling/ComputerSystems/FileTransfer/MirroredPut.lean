import ComputerSystems.FileTransfer.Core
import ComputerSystems.Loop.While
import Mathlib.Logic.Function.Basic

/-!
# A file on two devices

The `PUT` of the client of `PracticumIIV3`. It opens two devices, asks the server, and
copies the local file to both; a device that takes less than it is given is opened anew.
The test for the first device assigns NULL instead of comparing with it, so the client
always gives up before it asks.
-/

namespace ComputerSystems.FileTransfer.MirroredPut

open ComputerSystems.Loop ComputerSystems.Text

/-- `/dev/sdb1` and `/dev/sdc1`. -/
inductive Device
  | sdb1
  | sdc1
  deriving DecidableEq

/-- The size of `file_data`. -/
def fileDataSize : Nat := 8196

/-- What the devices hold. -/
abbrev Contents := Device → List UInt8

/-- What the calls of the client meet: the devices that can be opened, the local file if it
can be opened, whether the request is sent, the response if one is received, the number
of bytes that each `fwrite` to the second device can take until it is opened anew and
after that, whether it can be opened anew, and whether the server answers in the end. -/
structure Setup where
  opens : Device → Bool
  localFile : Option (List UInt8)
  sends : Bool
  response : Option (List UInt8)
  accepts : Nat → Nat
  acceptsAnew : Nat → Nat
  reopens : Bool
  answers : Bool

/-- The variables of the client. A NULL pointer is none. The number of writes to the second
device is counted, and `left` says that the loop has been left with `break`. -/
structure State where
  fp1 : Option Device
  fp2 : Option Device
  fp1Available : Bool
  fp2Available : Bool
  contents : Contents
  position : Nat
  totalBytes : Nat
  writes : Nat
  left : Bool

/-- `fopen` of a device for writing. -/
def fopen (opens : Bool) (device : Device) (contents : Contents) : Option Device × Contents :=
  if opens then (some device, Function.update contents device []) else (none, contents)

/-- `fwrite` of bytes of which some number is taken: the contents it leaves and its result.
A NULL pointer crashes. -/
def fwrite (contents : Contents) (fp : Option Device) (bytes : List UInt8) (accepted : Nat) :
    Option (Contents × Nat) :=
  fp.map fun device =>
    (Function.update contents device (contents device ++ bytes.take accepted),
      min accepted bytes.length)

/-- The client opens both devices. -/
def openDevices (setup : Setup) (contents : Contents) : State :=
  let first := fopen (setup.opens .sdb1) .sdb1 contents
  let second := fopen (setup.opens .sdc1) .sdc1 first.2
  -- the test of `fp1` is an assignment, whose value is false
  let fp1 := none
  { fp1
    fp2 := second.1
    fp1Available := true
    fp2Available := second.1.isSome
    contents := second.2
    position := 0
    totalBytes := 0
    writes := 0
    left := false }

/-- The test behind which the client says that the devices cannot be opened. -/
def cannotOpen (state : State) : Bool :=
  state.fp1.isNone && state.fp2.isNone || state.fp1.isSome && state.fp2.isNone ||
    state.fp1.isNone && state.fp2.isSome

/-- The write of a pass to the first device. -/
def writeFirst (state : State) (fileData : List UInt8) : Option State :=
  if state.fp1Available then
    (fwrite state.contents state.fp1 fileData fileData.length).map fun (contents, bytesWritten1) =>
      { state with contents, totalBytes := state.totalBytes + bytesWritten1 }
  else some state

/-- The write of a pass to the second device. When it is short, the position in the local
file is set and the loop is left. -/
def writeSecond (setup : Setup) (state : State) (fileData : List UInt8) : Option State :=
  if state.fp2Available then
    (fwrite state.contents state.fp2 fileData (setup.accepts state.writes)).map
      fun (contents, bytesWritten2) =>
        let state := { state with contents, writes := state.writes + 1 }
        if bytesWritten2 < fileData.length then
          let totalBytes := state.totalBytes + bytesWritten2
          { state with fp2Available := false, totalBytes, position := totalBytes, left := true }
        else state
  else some state

/-- One pass of the loop that writes to both devices. -/
def copyBody (setup : Setup) (localFile : List UInt8) (state : State) : Iteration State :=
  let fileData := (localFile.drop state.position).take fileDataSize
  if state.left ∨ fileData = [] then .exit
  else
    let state := { state with position := state.position + fileData.length }
    match (writeFirst state fileData).bind fun state => writeSecond setup state fileData with
    | none => .crash
    | some state => .next state

/-- One pass of the loop that goes on with the second device. -/
def resumeBody (setup : Setup) (localFile : List UInt8) (state : State) : Iteration State :=
  let fileData := (localFile.drop state.position).take fileDataSize
  if fileData = [] then .exit
  else
    match fwrite state.contents state.fp2 fileData (setup.acceptsAnew state.writes) with
    | none => .crash
    | some (contents, _) =>
        .next { state with
          contents
          position := state.position + fileData.length
          writes := state.writes + 1 }

/-- The part of `PUT` that goes on with the second device, none where the client returns. -/
def resume (setup : Setup) (localFile : List UInt8) (state : State) (fuel : Nat) :
    Outcome (Option State) :=
  if state.fp2Available then .done (some state)
  else
    let (fp2, contents) := fopen setup.reopens .sdc1 state.contents
    if fp2.isNone then .done none
    else
      (loop (resumeBody setup localFile) fuel { state with fp2, contents, writes := 0 }).map
        fun state => some { state with fp2Available := true }

/-- The copying of `PUT`, none where the client returns. -/
def copy (setup : Setup) (localFile : List UInt8) (state : State) (fuel : Nat) :
    Outcome (Option State) :=
  (loop (copyBody setup localFile) fuel state).bind fun state => resume setup localFile state fuel

/-- `PUT`: the value that the client returns, and what the devices hold then. -/
def put (setup : Setup) (contents : Contents) (fuel : Nat) : Outcome (Int × Contents) :=
  let state := openDevices setup contents
  if cannotOpen state then .done (-1, state.contents)
  else
    match setup.localFile with
    | none => .done (-1, state.contents)
    | some localFile =>
        if setup.sends = true ∧ setup.response = some (ascii "READY") then
          (copy setup localFile state fuel).bind fun
            | none => .done (-1, state.contents)
            | some state =>
                if state.fp1.isNone then .crash
                else if setup.answers then .done (0, state.contents)
                else .done (-1, state.contents)
        else .done (-1, state.contents)

/-- `PUT` runs to its end, and both devices hold the local file. -/
def Mirrors (setup : Setup) (contents : Contents) : Prop :=
  ∃ localFile after, setup.localFile = some localFile ∧
    Completes (put setup contents) (0, after) ∧ ∀ device, after device = localFile

/-- The devices can be opened, the server is ready and answers, and the second device takes
everything after it was opened anew. -/
structure Ready (setup : Setup) : Prop where
  opens : ∀ device, setup.opens device = true
  localFile : setup.localFile.isSome
  sends : setup.sends = true
  response : setup.response = some (ascii "READY")
  acceptsAnew : ∀ i, fileDataSize ≤ setup.acceptsAnew i
  reopens : setup.reopens = true
  answers : setup.answers = true

/-! ## The pointer of the first device -/

/-- Whatever could be opened, the client says that it could not. -/
theorem cannotOpen_openDevices (setup : Setup) (contents : Contents) :
    cannotOpen (openDevices setup contents) = true := by
  rw [cannotOpen, show (openDevices setup contents).fp1 = none from rfl]
  cases (openDevices setup contents).fp2 <;> rfl

/-- The client returns before it opens the local file. -/
theorem put_returns (setup : Setup) (contents : Contents) (fuel : Nat) :
    put setup contents fuel = .done (-1, (openDevices setup contents).contents) := by
  rw [put, if_pos (cannotOpen_openDevices setup contents)]

/-- No file is ever written to both devices. -/
theorem mirrors_never (setup : Setup) (contents : Contents) : ¬ Mirrors setup contents := by
  rintro ⟨localFile, after, _, ⟨fuel, done⟩, _⟩
  rw [put_returns] at done
  have status : (-1 : Int) = 0 := congrArg Prod.fst (Outcome.done.inj done)
  exact absurd status (by decide)

/-- A file of one byte on devices that take everything. -/
theorem not_mirrors_one_byte :
    ¬ ∀ setup contents, Ready setup → Mirrors setup contents := by
  intro always
  let setup : Setup := ⟨fun _ => true, some [65], true, some (ascii "READY"), fun _ => fileDataSize,
    fun _ => fileDataSize, true, true⟩
  have ready : Ready setup := ⟨fun _ => rfl, rfl, rfl, rfl, fun _ => Nat.le_refl _, rfl, rfl⟩
  rcases always setup (fun _ => []) ready with ⟨localFile, after, _, ⟨fuel, done⟩, _⟩
  rw [put_returns] at done
  have status : (-1 : Int) = 0 := congrArg Prod.fst (Outcome.done.inj done)
  exact absurd status (by decide)

/-! ## The copying

What the client would do behind its test: with two pointers the copying mirrors the file
as long as no write is short. After a short one the second device is truncated and only
gets what lies behind the number of bytes that were written to both. -/

/-- The variables with two pointers and truncated devices. -/
def bothOpen : State where
  fp1 := some .sdb1
  fp2 := some .sdc1
  fp1Available := true
  fp2Available := true
  contents := fun _ => []
  position := 0
  totalBytes := 0
  writes := 0
  left := false

/-- The bytes of a pass. -/
def chunk (localFile : List UInt8) (i : Nat) : List UInt8 :=
  (localFile.drop (i * fileDataSize)).take fileDataSize

/-- Both devices hold the passes so far. -/
structure Copied (localFile : List UInt8) (state : State) : Prop where
  fp1 : state.fp1 = some .sdb1
  fp2 : state.fp2 = some .sdc1
  fp1Available : state.fp1Available = true
  fp2Available : state.fp2Available = true
  inLoop : state.left = false
  position : state.position = min (state.writes * fileDataSize) localFile.length
  totalBytes : state.totalBytes = state.position
  contents : ∀ device, state.contents device = localFile.take (state.writes * fileDataSize)

variable {setup : Setup} {localFile : List UInt8} {state : State}

theorem bothOpen_copied (localFile : List UInt8) : Copied localFile bothOpen where
  fp1 := rfl
  fp2 := rfl
  fp1Available := rfl
  fp2Available := rfl
  inLoop := rfl
  position := by rw [show bothOpen.writes = 0 from rfl, Nat.zero_mul, Nat.zero_min]; rfl
  totalBytes := rfl
  contents _ := by rw [show bothOpen.writes = 0 from rfl, Nat.zero_mul, List.take_zero]; rfl

/-- The bytes of the next pass. -/
theorem Copied.fileData (copied : Copied localFile state) :
    (localFile.drop state.position).take fileDataSize = chunk localFile state.writes := by
  rw [chunk, copied.position]
  rcases Nat.le_total (state.writes * fileDataSize) localFile.length with inside | behind
  · rw [Nat.min_eq_left inside]
  · rw [Nat.min_eq_right behind, List.drop_length, List.drop_eq_nil_of_le behind]

theorem chunk_eq_nil_iff (localFile : List UInt8) (i : Nat) :
    chunk localFile i = [] ↔ localFile.length ≤ i * fileDataSize := by
  rw [chunk, List.take_eq_nil_iff, List.drop_eq_nil_iff]
  exact or_iff_right (by decide)

theorem length_chunk (localFile : List UInt8) (i : Nat) :
    (chunk localFile i).length = min fileDataSize (localFile.length - i * fileDataSize) := by
  rw [chunk, List.length_take, List.length_drop]

/-- The variables after a pass that writes some bytes to both devices. -/
def written (setup : Setup) (state : State) (bytes : List UInt8) : State :=
  let total := state.position + bytes.length
  { state with
    position := total
    totalBytes := total
    contents := Function.update
      (Function.update state.contents .sdb1 (state.contents .sdb1 ++ bytes)) .sdc1
      (state.contents .sdc1 ++ bytes.take (setup.accepts state.writes))
    writes := state.writes + 1 }

/-- The variables after a short write of a number of bytes. -/
def interrupted (state : State) (bytesWritten2 : Nat) : State :=
  let total := state.totalBytes + bytesWritten2
  { state with fp2Available := false, totalBytes := total, position := total, left := true }

/-- What a pass does as long as no write was short. -/
theorem Copied.copyBody_eq (setup : Setup) (copied : Copied localFile state) {bytes : List UInt8}
    (here : chunk localFile state.writes = bytes) (some : bytes ≠ []) :
    copyBody setup localFile state =
      .next (if setup.accepts state.writes < bytes.length then
        interrupted (written setup state bytes) (setup.accepts state.writes)
      else written setup state bytes) := by
  have goesOn : ¬ (state.left = true ∨ bytes = []) := by
    rw [copied.inLoop]
    simp [some]
  rw [copyBody, copied.fileData, here, if_neg goesOn]
  dsimp only
  rw [writeFirst, if_pos copied.fp1Available, fwrite]
  dsimp only
  rw [copied.fp1, copied.totalBytes, Option.map_some, Option.map_some, Option.bind_some,
    List.take_length, Nat.min_self, writeSecond, if_pos copied.fp2Available, fwrite]
  dsimp only
  rw [copied.fp2, Option.map_some, Option.map_some]
  dsimp only
  rw [Function.update_of_ne (by nofun)]
  by_cases short : setup.accepts state.writes < bytes.length
  · rw [if_pos short, Nat.min_eq_left (Nat.le_of_lt short), if_pos short]
    simp only [interrupted, MirroredPut.written, copied.fp1, copied.fp2]
  · rw [if_neg short, Nat.min_eq_right (Nat.le_of_not_lt short), if_neg (Nat.lt_irrefl _)]
    simp only [MirroredPut.written, copied.fp1, copied.fp2]

/-- A pass whose second write takes everything. -/
theorem Copied.written (setup : Setup) (copied : Copied localFile state)
    (present : state.writes * fileDataSize < localFile.length)
    (taken : (chunk localFile state.writes).length ≤ setup.accepts state.writes) :
    Copied localFile (written setup state (chunk localFile state.writes)) := by
  have length := length_chunk localFile state.writes
  have position := copied.position
  have grown : localFile.take ((state.writes + 1) * fileDataSize) =
      localFile.take (state.writes * fileDataSize) ++ chunk localFile state.writes := by
    rw [Nat.succ_mul, List.take_add, chunk]
  unfold MirroredPut.written
  refine ⟨copied.fp1, copied.fp2, copied.fp1Available, copied.fp2Available, copied.inLoop, ?_, rfl,
    ?_⟩
  · dsimp only
    rw [Nat.succ_mul]
    omega
  · intro device
    dsimp only
    rw [grown, List.take_of_length_le taken]
    cases device with
    | sdb1 => rw [Function.update_of_ne (by nofun), Function.update_self, copied.contents]
    | sdc1 => rw [Function.update_self, copied.contents]

/-- No write to the second device is short. -/
def NeverShort (setup : Setup) (localFile : List UInt8) : Prop :=
  ∀ i, (chunk localFile i).length ≤ setup.accepts i

/-- How the loop ends. -/
theorem Copied.completes (setup : Setup) (copied : Copied localFile state)
    (before : ∀ i < state.writes, (chunk localFile i).length ≤ setup.accepts i) :
    ∃ final, Completes (fun fuel => loop (copyBody setup localFile) fuel state) final ∧
      (NeverShort setup localFile ∧ final.fp2Available = true ∧
          (∀ device, final.contents device = localFile) ∨
        ¬ NeverShort setup localFile ∧ final.fp2Available = false ∧ 0 < final.position ∧
          localFile ≠ []) := by
  induction rest : localFile.length - state.writes * fileDataSize using Nat.strong_induction_on
    generalizing state with
  | h bound ih =>
      generalize here : chunk localFile state.writes = bytes
      by_cases present : state.writes * fileDataSize < localFile.length
      · have some : bytes ≠ [] := by
          rw [← here, ne_eq, chunk_eq_nil_iff]
          omega
        have pass := copied.copyBody_eq setup here some
        by_cases short : setup.accepts state.writes < bytes.length
        · rw [if_pos short] at pass
          refine ⟨_, loop_next pass (loop_exit ?_), Or.inr ⟨?_, rfl, ?_, ?_⟩⟩
          · rw [copyBody]
            exact if_pos (Or.inl rfl)
          · intro never
            have taken := never state.writes
            rw [here] at taken
            omega
          · have := List.length_pos_iff.mpr some
            simp only [interrupted, MirroredPut.written]
            omega
          · rintro rfl
            exact absurd present (Nat.not_lt_zero _)
        · rw [if_neg short, ← here] at pass
          have taken : (chunk localFile state.writes).length ≤ setup.accepts state.writes := by
            rw [here]
            exact Nat.le_of_not_lt short
          have later := copied.written setup present taken
          have size : 0 < fileDataSize := by decide
          rcases ih _ (by dsimp only [MirroredPut.written]; rw [Nat.succ_mul]; omega) later
              (by
                intro i earlier
                rcases Nat.lt_succ_iff_lt_or_eq.mp earlier with past | rfl
                · exact before i past
                · exact taken) rfl with ⟨final, completes, ends⟩
          exact ⟨final, loop_next pass completes, ends⟩
      · have nothing : chunk localFile state.writes = [] :=
          (chunk_eq_nil_iff _ _).mpr (Nat.le_of_not_lt present)
        refine ⟨state, loop_exit ?_, Or.inl ⟨?_, copied.fp2Available, ?_⟩⟩
        · rw [copyBody, copied.fileData, if_pos (Or.inr nothing)]
        · intro i
          rcases Nat.lt_or_ge i state.writes with past | future
          · exact before i past
          · have empty : chunk localFile i = [] := by
              rw [chunk_eq_nil_iff]
              exact (Nat.le_of_not_lt present).trans (Nat.mul_le_mul_right _ future)
            rw [empty]
            exact Nat.zero_le _
        · intro device
          rw [copied.contents, List.take_of_length_le (Nat.le_of_not_lt present)]

/-- Going on with a device that takes everything appends what lies behind the position. -/
theorem resume_completes (fp2 : state.fp2 = some .sdc1)
    (takes : ∀ i, fileDataSize ≤ setup.acceptsAnew i) :
    ∃ final, Completes (fun fuel => loop (resumeBody setup localFile) fuel state) final ∧
      final.contents .sdc1 = state.contents .sdc1 ++ localFile.drop state.position := by
  induction rest : localFile.length - state.position using Nat.strong_induction_on
    generalizing state with
  | h bound ih =>
      by_cases nothing : localFile.length ≤ state.position
      · have empty := List.drop_eq_nil_of_le nothing
        refine ⟨state, loop_exit ?_, ?_⟩
        · rw [resumeBody, empty, List.take_nil, if_pos rfl]
        · rw [empty, List.append_nil]
      · generalize read : (localFile.drop state.position).take fileDataSize = bytes
        have length : bytes.length = min fileDataSize (localFile.length - state.position) := by
          rw [← read, List.length_take, List.length_drop]
        have size : 0 < fileDataSize := by decide
        have some : bytes ≠ [] := by
          rw [← List.length_pos_iff]
          omega
        let later : State := { state with
          contents := Function.update state.contents .sdc1 (state.contents .sdc1 ++ bytes)
          position := state.position + bytes.length
          writes := state.writes + 1 }
        have step : resumeBody setup localFile state = .next later := by
          have takesAll : bytes.length ≤ setup.acceptsAnew state.writes := by
            have := takes state.writes
            omega
          rw [resumeBody, read, if_neg some, fwrite]
          simp only [later, fp2, Option.map_some, List.take_of_length_le takesAll]
        rcases @ih _ (by dsimp only [later]; omega) later fp2 rfl with ⟨final, completes, appended⟩
        refine ⟨final, loop_next step completes, ?_⟩
        have split : bytes ++ localFile.drop (state.position + bytes.length) =
            localFile.drop state.position := by
          rw [← List.drop_drop, ← read]
          rcases Nat.le_total fileDataSize (localFile.drop state.position).length with full | part
          · rw [List.length_take, Nat.min_eq_left full, List.take_append_drop]
          · rw [List.take_of_length_le part, List.drop_length, List.append_nil]
        rw [appended]
        dsimp only [later]
        rw [Function.update_self, List.append_assoc, split]

/-- With two pointers, the copying leaves the local file on both devices exactly when no
write to the second device is short. -/
theorem copy_mirrors_iff (ready : Ready setup) (localFile : List UInt8) :
    ∃ final, Completes (copy setup localFile bothOpen) (some final) ∧
      ((∀ device, final.contents device = localFile) ↔ NeverShort setup localFile) := by
  have stable := loop_stable (copyBody setup localFile) bothOpen
  rcases (bothOpen_copied localFile).completes setup
    (fun i none => absurd none (Nat.not_lt_zero i)) with
    ⟨copied, completes, ⟨never, available, whole⟩ | ⟨short, unavailable, position, nonempty⟩⟩
  · have back : Completes (resume setup localFile copied) (some copied) :=
      ⟨0, by rw [resume, if_pos available]⟩
    refine ⟨copied, completes.bind back stable ?_, iff_of_true whole never⟩
    intro fuel more _
    simp only [resume, if_pos available]
  · let anew : State := { copied with
      fp2 := some .sdc1
      contents := Function.update copied.contents .sdc1 []
      writes := 0 }
    have opened (fuel : Nat) : resume setup localFile copied fuel =
        (loop (resumeBody setup localFile) fuel anew).map
          fun state => some { state with fp2Available := true } := by
      rw [resume, if_neg (by rw [unavailable]; nofun), fopen, if_pos ready.reopens]
      rfl
    rcases @resume_completes setup localFile anew rfl ready.acceptsAnew with
      ⟨final, resumes, appended⟩
    have back : Completes (resume setup localFile copied)
        (some { final with fp2Available := true }) := by
      rw [show resume setup localFile copied = _ from funext opened]
      exact resumes.map _
    refine ⟨_, completes.bind back stable ?_, iff_of_false ?_ short⟩
    · rw [show resume setup localFile copied = _ from funext opened]
      exact (loop_stable _ _).map _
    · intro whole
      have second := whole .sdc1
      dsimp only at second
      rw [appended] at second
      dsimp only [anew] at second
      rw [Function.update_self, List.nil_append] at second
      have lengths := congrArg List.length second
      rw [List.length_drop] at lengths
      have := List.length_pos_iff.mpr nonempty
      omega

end ComputerSystems.FileTransfer.MirroredPut
