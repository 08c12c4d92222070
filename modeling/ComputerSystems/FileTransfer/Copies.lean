import ComputerSystems.FileTransfer.Upload
import Mathlib.Logic.Function.Basic

/-!
# The two copies of a file

`perform_put_command` opens the local file, truncates the two remote files and copies.
The bytes that it copies are never counted, so the expected size only decides whether
anything is copied at all. A remote file can be the local file itself, which is then
truncated before it is read.
-/

namespace ComputerSystems.FileTransfer

open ComputerSystems.Loop

universe u

/-- The files that `local_file`, `remote_file` and `remote_file2` lead to. -/
structure OpenFiles (File : Type u) where
  localFile : File
  remoteFile : File
  remoteFile2 : File

/-- The contents of the files, and the common position of the three streams. -/
structure Copying (File : Type u) where
  contents : File → List UInt8
  position : Nat

variable {File : Type u} [DecidableEq File]

/-- Write bytes into a file, at a position that is not behind its end. -/
def writeAt (content : List UInt8) (position : Nat) (bytes : List UInt8) : List UInt8 :=
  content.take position ++ (bytes ++ content.drop (position + bytes.length))

/-- `fwrite` to a file. -/
def fwrite (contents : File → List UInt8) (file : File) (position : Nat) (bytes : List UInt8) :
    File → List UInt8 :=
  Function.update contents file (writeAt (contents file) position bytes)

/-- The remote files are opened: `fopen` truncates them. -/
def created (opened : OpenFiles File) (contents : File → List UInt8) : File → List UInt8 :=
  Function.update (Function.update contents opened.remoteFile []) opened.remoteFile2 []

/-- One pass of the copy loop of `perform_put_command`. -/
def putBody (opened : OpenFiles File) (expectedFileSize : Int) (copying : Copying File) :
    Iteration (Copying File) :=
  let totalBytesReceived : Int := 0
  if totalBytesReceived < expectedFileSize then
    let buffer := ((copying.contents opened.localFile).drop copying.position).take bufferSize
    if 0 < buffer.length then
      let contents := fwrite copying.contents opened.remoteFile copying.position buffer
      let contents := fwrite contents opened.remoteFile2 copying.position buffer
      .next ⟨contents, copying.position + buffer.length⟩
    else .exit
  else .exit

/-- The contents that `perform_put_command` leaves, from the opening of the remote files
on, where no call fails. -/
def putCopies (opened : OpenFiles File) (contents : File → List UInt8) (expectedFileSize : Int)
    (fuel : Nat) : Outcome (File → List UInt8) :=
  (loop (putBody opened expectedFileSize) fuel ⟨created opened contents, 0⟩).map Copying.contents

/-- Both remote files hold the first bytes of the local file, as many of them as are
expected. -/
def CopiesExpected (opened : OpenFiles File) (contents : File → List UInt8)
    (expectedFileSize : Int) : Prop :=
  let content := contents opened.localFile
  let expected := content.take (min expectedFileSize.toNat content.length)
  ∃ after, Completes (putCopies opened contents expectedFileSize) after ∧
    after opened.remoteFile = expected ∧ after opened.remoteFile2 = expected

variable {opened : OpenFiles File} {contents : File → List UInt8} {expectedFileSize : Int}
  {copying : Copying File} {content bytes : List UInt8} {position : Nat}

/-! ## Files -/

theorem created_remoteFile : created opened contents opened.remoteFile = [] := by
  unfold created
  by_cases same : opened.remoteFile = opened.remoteFile2
  · rw [same, Function.update_self]
  · rw [Function.update_of_ne same, Function.update_self]

theorem created_remoteFile2 : created opened contents opened.remoteFile2 = [] :=
  Function.update_self ..

/-- A write behind the end of a file appends. -/
theorem writeAt_length (content bytes : List UInt8) :
    writeAt content content.length bytes = content ++ bytes := by
  rw [writeAt, List.take_length, List.drop_eq_nil_of_le (Nat.le_add_right _ _), List.append_nil]

/-- The same write twice. -/
theorem writeAt_append (content bytes : List UInt8) :
    writeAt (content ++ bytes) content.length bytes = content ++ bytes := by
  rw [writeAt, List.take_left, List.drop_eq_nil_of_le List.length_append.le, List.append_nil]

/-! ## The loop -/

/-- Both remote files hold what has been read of the local file, which is neither of
them. -/
structure Copied (opened : OpenFiles File) (content : List UInt8) (copying : Copying File) :
    Prop where
  source : copying.contents opened.localFile = content
  bounded : copying.position ≤ content.length
  first : copying.contents opened.remoteFile = content.take copying.position
  second : copying.contents opened.remoteFile2 = content.take copying.position

/-- A pass of the loop copies the next bytes. -/
theorem Copied.write (copied : Copied opened content copying)
    (apart : opened.localFile ≠ opened.remoteFile) (apart2 : opened.localFile ≠ opened.remoteFile2)
    (read : bytes = (content.drop copying.position).take bufferSize) :
    Copied opened content ⟨fwrite (fwrite copying.contents opened.remoteFile copying.position bytes)
      opened.remoteFile2 copying.position bytes, copying.position + bytes.length⟩ := by
  have bounded := copied.bounded
  have front : (content.take copying.position).length = copying.position := by
    rw [List.length_take]
    exact Nat.min_eq_left bounded
  have grown : content.take (copying.position + bytes.length) =
      content.take copying.position ++ bytes := by
    rw [List.take_add, read, List.length_take]
    congr 1
    rcases Nat.le_total bufferSize (content.drop copying.position).length with full | rest
    · rw [Nat.min_eq_left full]
    · rw [Nat.min_eq_right rest, List.take_length, List.take_of_length_le rest]
  have appended := writeAt_length (content.take copying.position) bytes
  have repeated := writeAt_append (content.take copying.position) bytes
  rw [front] at appended repeated
  have stored : fwrite copying.contents opened.remoteFile copying.position bytes
      opened.remoteFile = content.take (copying.position + bytes.length) := by
    rw [fwrite, Function.update_self, copied.first, appended, grown]
  constructor
  · dsimp only
    rw [fwrite, Function.update_of_ne apart2, fwrite, Function.update_of_ne apart]
    exact copied.source
  · dsimp only
    rw [read, List.length_take, List.length_drop]
    omega
  · dsimp only
    by_cases same : opened.remoteFile = opened.remoteFile2
    · rw [fwrite, ← same, Function.update_self, stored, grown, repeated]
    · rw [fwrite, Function.update_of_ne same, stored]
  · dsimp only
    by_cases same : opened.remoteFile2 = opened.remoteFile
    · rw [fwrite, Function.update_self, same, stored, grown, repeated]
    · rw [fwrite, Function.update_self, fwrite, Function.update_of_ne same, copied.second,
        appended, grown]

/-- The loop copies the whole file. -/
theorem Copied.completes (copied : Copied opened content copying)
    (apart : opened.localFile ≠ opened.remoteFile) (apart2 : opened.localFile ≠ opened.remoteFile2)
    (positive : 0 < expectedFileSize) :
    ∃ after, Completes (fun fuel => loop (putBody opened expectedFileSize) fuel copying) after ∧
      after.contents opened.remoteFile = content ∧
      after.contents opened.remoteFile2 = content := by
  induction left : content.length - copying.position using Nat.strong_induction_on
    generalizing copying with
  | h bound ih =>
      have bounded := copied.bounded
      have read : ((copying.contents opened.localFile).drop copying.position).take bufferSize =
          (content.drop copying.position).take bufferSize := by
        rw [copied.source]
      have length : ((content.drop copying.position).take bufferSize).length =
          min bufferSize (content.length - copying.position) := by
        rw [List.length_take, List.length_drop]
      by_cases rest : copying.position < content.length
      · have moves : 0 < ((content.drop copying.position).take bufferSize).length := by
          rw [length, bufferSize]
          omega
        have later := copied.write apart apart2 rfl
        rcases ih _ (by dsimp only; omega) later rfl with ⟨after, completes, first, second⟩
        refine ⟨after, loop_next ?_ completes, first, second⟩
        rw [putBody, if_pos positive, read, if_pos moves]
      · have everything : content.take copying.position = content :=
          List.take_of_length_le (Nat.le_of_not_lt rest)
        refine ⟨copying, loop_exit ?_, ?_, ?_⟩
        · rw [putBody, if_pos positive, read, if_neg (by rw [length]; omega)]
        · rw [copied.first, everything]
        · rw [copied.second, everything]

theorem putCopies_unique {first second : File → List UInt8}
    (left : Completes (putCopies opened contents expectedFileSize) first)
    (right : Completes (putCopies opened contents expectedFileSize) second) : first = second :=
  ((loop_stable _ _).map Copying.contents).unique left right

/-- Nothing is copied when the loop ends before its first pass. -/
theorem putCopies_nothing
    (ends : putBody opened expectedFileSize ⟨created opened contents, 0⟩ = .exit) :
    Completes (putCopies opened contents expectedFileSize) (created opened contents) :=
  (loop_exit ends).map Copying.contents

/-- A local file that is empty, also because it is a remote file, ends the loop. -/
theorem putBody_exit (empty : created opened contents opened.localFile = []) :
    putBody opened expectedFileSize ⟨created opened contents, 0⟩ = .exit := by
  unfold putBody
  dsimp only
  split
  · rw [empty, List.drop_nil, List.take_nil]
    exact if_neg (Nat.lt_irrefl 0)
  · rfl

/-- What the remote files hold in the end: the whole local file, or nothing. -/
theorem putCopies_completes (opened : OpenFiles File) (contents : File → List UInt8)
    (expectedFileSize : Int) :
    ∃ after, Completes (putCopies opened contents expectedFileSize) after ∧
      let copy := if opened.localFile = opened.remoteFile ∨ opened.localFile = opened.remoteFile2
        then [] else Upload.copied expectedFileSize (contents opened.localFile)
      after opened.remoteFile = copy ∧ after opened.remoteFile2 = copy := by
  by_cases same : opened.localFile = opened.remoteFile ∨ opened.localFile = opened.remoteFile2
  · have empty : created opened contents opened.localFile = [] := by
      rcases same with first | second
      · rw [first, created_remoteFile]
      · rw [second, created_remoteFile2]
    refine ⟨_, putCopies_nothing (putBody_exit empty), ?_⟩
    rw [if_pos same]
    exact ⟨created_remoteFile, created_remoteFile2⟩
  · rw [if_neg same, Upload.copied]
    rw [not_or] at same
    by_cases positive : 0 < expectedFileSize
    · have start : Copied opened (contents opened.localFile) ⟨created opened contents, 0⟩ := by
        refine ⟨?_, Nat.zero_le _, created_remoteFile, created_remoteFile2⟩
        dsimp only
        rw [created, Function.update_of_ne same.2, Function.update_of_ne same.1]
      rcases start.completes same.1 same.2 positive with ⟨after, completes, first, second⟩
      rw [if_pos positive]
      exact ⟨_, completes.map Copying.contents, first, second⟩
    · rw [if_neg positive]
      refine ⟨_, putCopies_nothing (if_neg positive), created_remoteFile, created_remoteFile2⟩

/-! ## Expected sizes -/

/-- The copies have the expected size exactly when nothing is expected, or there is
nothing to copy, or the expected size is not below that of the local file, which is not
a remote file. -/
theorem copiesExpected_iff (opened : OpenFiles File) (contents : File → List UInt8)
    (expectedFileSize : Int) :
    CopiesExpected opened contents expectedFileSize ↔
      expectedFileSize ≤ 0 ∨ contents opened.localFile = [] ∨
        (contents opened.localFile).length ≤ expectedFileSize ∧
          opened.localFile ≠ opened.remoteFile ∧ opened.localFile ≠ opened.remoteFile2 := by
  rcases putCopies_completes opened contents expectedFileSize with ⟨after, completes, first, second⟩
  generalize content_eq : contents opened.localFile = content at first second ⊢
  have holds : CopiesExpected opened contents expectedFileSize ↔
      after opened.remoteFile = content.take (min expectedFileSize.toNat content.length) := by
    unfold CopiesExpected
    dsimp only
    rw [content_eq]
    constructor
    · rintro ⟨_, also, copy, _⟩
      rw [putCopies_unique completes also]
      exact copy
    · intro copy
      exact ⟨after, completes, copy, by rw [second, ← first, copy]⟩
  rw [holds, first, Upload.copied]
  by_cases positive : 0 < expectedFileSize
  · have short : (content.take (min expectedFileSize.toNat content.length)).length =
        min expectedFileSize.toNat content.length := by
      rw [List.length_take]
      omega
    by_cases empty : content = []
    · subst empty
      simp
    · have some : 0 < content.length := List.length_pos_iff.mpr empty
      by_cases same : opened.localFile = opened.remoteFile ∨ opened.localFile = opened.remoteFile2
      · rw [if_pos same]
        constructor
        · intro copy
          rw [← copy, List.length_nil] at short
          omega
        · rintro (nothing | nothing | ⟨_, apart, apart2⟩)
          · omega
          · exact absurd nothing empty
          · rcases same with first | second
            · exact absurd first apart
            · exact absurd second apart2
      · rw [if_neg same, if_pos positive]
        rw [not_or] at same
        constructor
        · intro copy
          rw [← copy] at short
          exact Or.inr (Or.inr ⟨by omega, same⟩)
        · rintro (nothing | nothing | ⟨enough, _⟩)
          · omega
          · exact absurd nothing empty
          · rw [List.take_of_length_le (by omega)]
  · have none : expectedFileSize.toNat = 0 := Int.toNat_of_nonpos (Int.not_lt.mp positive)
    rw [if_neg positive, ite_self, none, Nat.zero_min, List.take_zero]
    exact iff_of_true rfl (Or.inl (Int.not_lt.mp positive))

/-- A local file of two bytes is copied whole when one byte is expected. -/
theorem not_copiesExpected_one :
    ¬ ∀ (opened : OpenFiles Nat) contents expectedFileSize,
      CopiesExpected opened contents expectedFileSize := by
  intro always
  let opened : OpenFiles Nat := ⟨0, 1, 2⟩
  let contents : Nat → List UInt8 := fun file => if file = 0 then [65, 66] else []
  rcases always opened contents 1 with ⟨after, copies, first, _⟩
  have whole : ∃ after, Completes (putCopies opened contents 1) after ∧
      after opened.remoteFile = [65, 66] := ⟨_, ⟨2, rfl⟩, by decide⟩
  rcases whole with ⟨also, completes, held⟩
  rw [putCopies_unique copies completes, held] at first
  exact absurd first (by decide)

end ComputerSystems.FileTransfer
