import ComputerSystems.Memory.File
import ComputerSystems.Transition.Run

/-!
# Reading from the two devices

`read_from_usb` of `PracticumIIV3/fgets.c`, which `main` runs in two threads, one for each
device, that write the same file. Each thread truncates the file when it opens it and writes
through a descriptor and a buffer of its own, so that its offset does not depend on the
other. The order of all steps is arbitrary, and so is when a buffer is flushed and how much
of it; writes succeed. The contents of a device are the bytes it yields until `fread`
returns none.
-/

namespace ComputerSystems.FileTransfer.UsbReaders

open ComputerSystems.Transition

/-- The number of bytes of `buffer`. -/
def bufferSize : Nat := 4096

/-- Where a thread is in `read_from_usb`: the bytes it has not read yet, those it has read
that are not in the file, and the offset of its descriptor. -/
inductive Reader
  | start
  | opened
  | copying (unread buffered : List (BitVec 8)) (offset : Nat)
  | exited
  | closed

/-- The file, unless there is none, and the threads. -/
structure State (τ : Type) where
  file : Option File
  readers : τ → Reader

/-- What a thread does next. Opening fails where the flag is false. -/
inductive Action (τ : Type)
  | openDevice (thread : τ) (success : Bool)
  | openFile (thread : τ) (success : Bool)
  | fread (thread : τ)
  | flush (thread : τ) (count : Nat)
  | fclose (thread : τ)

variable {τ : Type} [DecidableEq τ]

/-- Set where a thread is. -/
def State.goto (state : State τ) (thread : τ) (reader : Reader) : State τ :=
  { state with readers := Function.update state.readers thread reader }

/-- Set what the file holds. -/
def State.save (state : State τ) (file : File) : State τ :=
  { state with file := some file }

@[simp]
theorem readers_goto_self (state : State τ) (thread : τ) (reader : Reader) :
    (state.goto thread reader).readers thread = reader :=
  Function.update_self _ _ _

@[simp]
theorem readers_goto_of_ne {thread other : τ} (different : other ≠ thread) (state : State τ)
    (reader : Reader) : (state.goto thread reader).readers other = state.readers other :=
  Function.update_of_ne different _ _

omit [DecidableEq τ] in
@[simp]
theorem readers_save (state : State τ) (file : File) :
    (state.save file).readers = state.readers :=
  rfl

/-- `fopen` with mode `wb`. -/
def fopenWb (file : Option File) : File :=
  (file.getD ⟨fun _ => 0#8, 0⟩).ftruncate 0

/-- One step of one thread. -/
def step (device : τ → List (BitVec 8)) (state : State τ) : Action τ → Option (State τ)
  | .openDevice thread success =>
      match state.readers thread with
      | .start => some (state.goto thread (if success then .opened else .exited))
      | _ => none
  | .openFile thread success =>
      match state.readers thread with
      | .opened =>
          if success then
            some ((state.goto thread (.copying (device thread) [] 0)).save (fopenWb state.file))
          else some (state.goto thread .exited)
      | _ => none
  | .fread thread =>
      match state.readers thread with
      | .copying unread buffered offset =>
          if unread = [] then none
          else some (state.goto thread
            (.copying (unread.drop bufferSize) (buffered ++ unread.take bufferSize) offset))
      | _ => none
  | .flush thread count =>
      match state.readers thread, state.file with
      | .copying unread buffered offset, some file =>
          if 0 < count ∧ count ≤ buffered.length then
            some ((state.goto thread (.copying unread (buffered.drop count) (offset + count))).save
              (file.write offset (buffered.take count)))
          else none
      | _, _ => none
  | .fclose thread =>
      match state.readers thread with
      | .copying [] [] _ => some (state.goto thread .closed)
      | _ => none

/-- No thread has done anything. -/
def start (file : Option File) : State τ :=
  ⟨file, fun _ => .start⟩

/-- The thread that opens the file in a step. -/
def Action.opens : Action τ → Option τ
  | .openFile thread true => some thread
  | _ => none

/-- The last thread to open the file. -/
def lastToOpen (actions : List (Action τ)) : Option τ :=
  (actions.filterMap Action.opens).getLast?

omit [DecidableEq τ] in
theorem lastToOpen_snoc (past : List (Action τ)) (action : Action τ) :
    lastToOpen (past ++ [action]) = action.opens.or (lastToOpen past) := by
  rw [lastToOpen, List.filterMap_append, List.getLast?_append, lastToOpen]
  cases opens : action.opens <;> simp [opens]

/-! ## What has been written -/

/-- The number of bytes a thread has written since it opened the file. -/
def Reader.written (contents : List (BitVec 8)) : Reader → Option Nat
  | copying _ _ offset => some offset
  | closed => some contents.length
  | _ => none

/-- A thread has opened the file. -/
def Opened (device : τ → List (BitVec 8)) (state : State τ) (thread : τ) : Prop :=
  ((state.readers thread).written (device thread)).isSome

/-- A byte of the file comes from some device that was copied to it. -/
def Copied (device : τ → List (BitVec 8)) (state : State τ) (file : File) (i : Nat) : Prop :=
  ∃ thread, Opened device state thread ∧ (device thread)[i]? = some (file.contents i)

/-- The file, when `last` was the last to open it and has written `count` bytes. -/
structure Mixture (device : τ → List (BitVec 8)) (state : State τ) (file : File) (last : τ)
    (count : Nat) : Prop where
  written : (state.readers last).written (device last) = some count
  reaches : count ≤ file.size
  bounded : ∃ thread, Opened device state thread ∧ file.size ≤ (device thread).length
  copied : ∀ i, i < count → Copied device state file i
  rest : ∀ i, i < file.size → Copied device state file i ∨ file.contents i = 0#8

/-- The invariant of all runs: `last` is the last thread to have opened the file. -/
structure Sound (device : τ → List (BitVec 8)) (before : Option File) (last : Option τ)
    (state : State τ) : Prop where
  reading : ∀ thread unread buffered offset,
    state.readers thread = .copying unread buffered offset →
      ∃ written, written.length = offset ∧ written ++ buffered ++ unread = device thread
  untouched : (∀ thread, ¬ Opened device state thread) → state.file = before
  mixed : ∀ thread, Opened device state thread →
    ∃ file opener count, last = some opener ∧ state.file = some file ∧
      Mixture device state file opener count

section Step

variable {device : τ → List (BitVec 8)} {before : Option File} {last : Option τ}
  {state next : State τ} {thread : τ} {reader : Reader}

/-- A step of one thread that does not write keeps the invariant. -/
theorem Sound.goto (sound : Sound device before last state)
    (same : reader.written (device thread) = (state.readers thread).written (device thread))
    (reading : ∀ unread buffered offset, reader = .copying unread buffered offset →
      ∃ written, written.length = offset ∧ written ++ buffered ++ unread = device thread) :
    Sound device before last (state.goto thread reader) := by
  have written : ∀ other, ((state.goto thread reader).readers other).written (device other) =
      (state.readers other).written (device other) := by
    intro other
    by_cases here : other = thread
    · rw [here, readers_goto_self, same]
    · rw [readers_goto_of_ne here]
  have opened : ∀ other, Opened device (state.goto thread reader) other ↔
      Opened device state other := by
    intro other
    rw [Opened, Opened, written]
  constructor
  · intro other unread buffered offset copying
    by_cases here : other = thread
    · subst here
      rw [readers_goto_self] at copying
      exact reading unread buffered offset copying
    · rw [readers_goto_of_ne here] at copying
      exact sound.reading other unread buffered offset copying
  · intro none
    exact sound.untouched fun other isOpen => none other ((opened other).mpr isOpen)
  · intro other isOpen
    rcases sound.mixed other ((opened other).mp isOpen) with
      ⟨file, opener, count, latest, stored, mixture⟩
    have copied : ∀ i, Copied device state file i →
        Copied device (state.goto thread reader) file i := by
      rintro i ⟨source, sourceOpen, byte⟩
      exact ⟨source, (opened source).mpr sourceOpen, byte⟩
    refine ⟨file, opener, count, latest, stored, ?_, mixture.reaches, ?_, ?_, ?_⟩
    · rw [written]
      exact mixture.written
    · rcases mixture.bounded with ⟨source, sourceOpen, bounded⟩
      exact ⟨source, (opened source).mpr sourceOpen, bounded⟩
    · exact fun i inside => copied i (mixture.copied i inside)
    · exact fun i inside => (mixture.rest i inside).imp_left (copied i)

/-- A thread that opens the file leaves it empty. -/
theorem Sound.open (sound : Sound device before last state) :
    Sound device before (some thread)
      ((state.goto thread (.copying (device thread) [] 0)).save (fopenWb state.file)) := by
  have opened : Opened device
      ((state.goto thread (.copying (device thread) [] 0)).save (fopenWb state.file)) thread := by
    rw [Opened, readers_save, readers_goto_self]
    rfl
  constructor
  · intro other unread buffered offset copying
    by_cases here : other = thread
    · subst here
      rw [readers_save, readers_goto_self, Reader.copying.injEq] at copying
      rcases copying with ⟨rfl, rfl, rfl⟩
      exact ⟨[], rfl, rfl⟩
    · rw [readers_save, readers_goto_of_ne here] at copying
      exact sound.reading other unread buffered offset copying
  · intro none
    exact absurd opened (none thread)
  · intro _ _
    refine ⟨_, thread, 0, rfl, rfl, ?_, Nat.zero_le _, ⟨thread, opened, Nat.zero_le _⟩, ?_, ?_⟩
    · rw [readers_save, readers_goto_self]
      rfl
    · intro i inside
      exact absurd inside (Nat.not_lt_zero i)
    · intro i inside
      exact absurd inside (Nat.not_lt_zero i)

/-- What a write of `count` bytes of a device at their own position makes of a file. -/
structure Writes (contents : List (BitVec 8)) (file : File) (offset count : Nat) (after : File) :
    Prop where
  inside : offset + count ≤ contents.length
  size : after.size = max file.size (offset + count)
  stores : ∀ i, offset ≤ i → i < offset + count → contents[i]? = some (after.contents i)
  keeps : ∀ i, i < file.size → i < offset ∨ offset + count ≤ i →
    after.contents i = file.contents i
  zeros : ∀ i, file.size ≤ i → i < offset ∨ offset + count ≤ i → after.contents i = 0#8

/-- What a thread writes comes from its device, at the same position. -/
theorem writes_buffered {contents written buffered unread : List (BitVec 8)} {count : Nat}
    (whole : written ++ buffered ++ unread = contents) (enough : count ≤ buffered.length)
    (file : File) :
    Writes contents file written.length count
      (file.write written.length (buffered.take count)) := by
  have length : (buffered.take count).length = count := List.length_take_of_le enough
  constructor
  · rw [← whole, List.length_append, List.length_append]
    omega
  · rw [File.write, length]
  · intro i lower upper
    rw [← file.contents_write_inside lower (by rw [length]; exact upper), ← whole,
      List.append_assoc, List.getElem?_append_right (by omega),
      List.getElem?_append_left (by omega), List.getElem?_take, if_pos (by omega)]
  · intro i inside outside
    rw [file.contents_write_outside (by rw [length]; exact outside), File.padded, if_pos inside]
  · intro i behind outside
    rw [file.contents_write_outside (by rw [length]; exact outside), File.padded,
      if_neg (Nat.not_lt.mpr behind)]

section Write

variable {file after : File} {offset count done : Nat} {opener : τ}
  (writes : Writes (device thread) file offset count after)
  (isOpen : Opened device next thread)
  (opened : ∀ other, Opened device state other → Opened device next other)

include writes isOpen opened

omit [DecidableEq τ] in
theorem Copied.write {i : Nat} (inside : i < file.size) (copied : Copied device state file i) :
    Copied device next after i := by
  by_cases covered : offset ≤ i ∧ i < offset + count
  · exact ⟨thread, isOpen, writes.stores i covered.1 covered.2⟩
  · rcases copied with ⟨source, sourceOpen, byte⟩
    exact ⟨source, opened source sourceOpen, by rw [byte, writes.keeps i inside (by omega)]⟩

omit [DecidableEq τ] in
/-- A write of any thread, when it is known what the last one to open the file has
written then. -/
theorem Mixture.write (mixture : Mixture device state file opener done) {reached : Nat}
    (written : (next.readers opener).written (device opener) = some reached)
    (reaches : reached ≤ after.size)
    (covers : ∀ i, i < reached → i < done ∨ offset ≤ i ∧ i < offset + count) :
    Mixture device next after opener reached := by
  have size := writes.size
  constructor
  · exact written
  · exact reaches
  · rcases mixture.bounded with ⟨source, sourceOpen, bounded⟩
    have inside := writes.inside
    by_cases grows : file.size ≤ offset + count
    · exact ⟨thread, isOpen, by omega⟩
    · exact ⟨source, opened source sourceOpen, by omega⟩
  · intro i inside
    rcases covers i inside with front | covered
    · have old := mixture.reaches
      exact Copied.write writes isOpen opened (by omega) (mixture.copied i front)
    · exact ⟨thread, isOpen, writes.stores i covered.1 covered.2⟩
  · intro i inside
    by_cases covered : offset ≤ i ∧ i < offset + count
    · exact Or.inl ⟨thread, isOpen, writes.stores i covered.1 covered.2⟩
    · by_cases old : i < file.size
      · refine (mixture.rest i old).imp (Copied.write writes isOpen opened old) fun zero => ?_
        rw [writes.keeps i old (by omega), zero]
      · exact Or.inr (writes.zeros i (by omega) (by omega))

end Write

/-- A thread that writes the first bytes of its buffer. -/
theorem Sound.flush {file : File} {unread buffered : List (BitVec 8)} {offset count : Nat}
    (sound : Sound device before last state) (stored : state.file = some file)
    (copying : state.readers thread = .copying unread buffered offset)
    (enough : count ≤ buffered.length) :
    Sound device before last
      ((state.goto thread (.copying unread (buffered.drop count) (offset + count))).save
        (file.write offset (buffered.take count))) := by
  rcases sound.reading thread unread buffered offset copying with ⟨written, rfl, whole⟩
  have writes := writes_buffered whole enough file
  generalize flushed : (state.goto thread
    (.copying unread (buffered.drop count) (written.length + count))).save
      (file.write written.length (buffered.take count)) = next
  have here : next.readers thread =
      .copying unread (buffered.drop count) (written.length + count) := by
    rw [← flushed, readers_save, readers_goto_self]
  have others : ∀ other, other ≠ thread → next.readers other = state.readers other := by
    intro other different
    rw [← flushed, readers_save, readers_goto_of_ne different]
  have contents : next.file = some (file.write written.length (buffered.take count)) := by
    rw [← flushed]
    rfl
  have isOpen : Opened device next thread := by
    rw [Opened, here]
    rfl
  have opened : ∀ other, Opened device state other → Opened device next other := by
    intro other otherOpen
    by_cases same : other = thread
    · rwa [same]
    · rwa [Opened, others other same]
  constructor
  · intro other unread' buffered' offset' copying'
    by_cases same : other = thread
    · subst same
      rw [here, Reader.copying.injEq] at copying'
      rcases copying' with ⟨rfl, rfl, rfl⟩
      refine ⟨written ++ buffered.take count, ?_, ?_⟩
      · rw [List.length_append, List.length_take_of_le enough]
      · rw [List.append_assoc written, List.take_append_drop, whole]
    · rw [others other same] at copying'
      exact sound.reading other unread' buffered' offset' copying'
  · intro none
    exact absurd isOpen (none thread)
  · intro _ _
    have wasOpen : Opened device state thread := by
      rw [Opened, copying]
      rfl
    rcases sound.mixed thread wasOpen with ⟨old, opener, done, latest, storedOld, mixture⟩
    obtain rfl := Option.some.inj (stored.symm.trans storedOld)
    by_cases same : opener = thread
    · subst same
      have position : written.length = done := by
        have already := mixture.written
        rw [copying] at already
        exact Option.some.inj already
      refine ⟨_, opener, written.length + count, latest, contents,
        mixture.write writes isOpen opened ?_ ?_ fun i inside => by omega⟩
      · rw [here]
        rfl
      · rw [writes.size]
        exact Nat.le_max_right _ _
    · refine ⟨_, opener, done, latest, contents,
        mixture.write writes isOpen opened ?_ ?_ fun i inside => Or.inl inside⟩
      · rw [others opener same]
        exact mixture.written
      · rw [writes.size]
        exact Nat.le_trans mixture.reaches (Nat.le_max_left _ _)

/-- Every step of every thread keeps the invariant. -/
theorem Sound.step {action : Action τ} (sound : Sound device before last state)
    (steps : UsbReaders.step device state action = some next) :
    Sound device before (action.opens.or last) next := by
  cases action with
  | openDevice thread success =>
      simp only [UsbReaders.step] at steps
      split at steps
      · rename_i started
        obtain rfl := Option.some.inj steps
        apply sound.goto
        · rw [started]
          cases success <;> rfl
        · intro unread buffered offset copying
          cases success <;> cases copying
      · cases steps
  | openFile thread success =>
      simp only [UsbReaders.step] at steps
      split at steps
      · rename_i opened
        cases success with
        | true =>
          obtain rfl := Option.some.inj steps
          exact sound.open
        | false =>
          obtain rfl := Option.some.inj steps
          apply sound.goto
          · rw [opened]
            rfl
          · intro unread buffered offset copying
            cases copying
      · cases steps
  | fread thread =>
      simp only [UsbReaders.step] at steps
      split at steps
      · rename_i unread buffered offset copying
        split at steps
        · cases steps
        · obtain rfl := Option.some.inj steps
          apply sound.goto
          · rw [copying]
            rfl
          · intro unread' buffered' offset' same
            simp only [Reader.copying.injEq] at same
            rcases same with ⟨rfl, rfl, rfl⟩
            rcases sound.reading thread unread buffered offset copying with
              ⟨written, length, whole⟩
            refine ⟨written, length, ?_⟩
            rw [← whole, ← List.append_assoc written, List.append_assoc (written ++ buffered),
              List.take_append_drop]
      · cases steps
  | flush thread count =>
      simp only [UsbReaders.step] at steps
      split at steps
      · rename_i unread buffered offset file copying stored
        split at steps
        · rename_i enough
          obtain rfl := Option.some.inj steps
          exact sound.flush stored copying enough.2
        · cases steps
      · cases steps
  | fclose thread =>
      simp only [UsbReaders.step] at steps
      split at steps
      · rename_i offset copying
        obtain rfl := Option.some.inj steps
        apply sound.goto
        · rcases sound.reading thread [] [] offset copying with ⟨written, length, whole⟩
          rw [copying, ← whole, List.append_nil, List.append_nil]
          exact congrArg some length
        · intro unread buffered offset copying
          cases copying
      · cases steps

end Step

omit [DecidableEq τ] in
theorem start_sound (device : τ → List (BitVec 8)) (file : Option File) :
    Sound device file none (start file) where
  reading _ _ _ _ copying := nomatch copying
  untouched _ := rfl
  mixed _ opened := nomatch opened

/-! ## When all threads have returned -/

/-- Every thread has returned, with or without having copied its device. -/
def Returned (state : State τ) : Prop :=
  ∀ thread, state.readers thread = .exited ∨ state.readers thread = .closed

omit [DecidableEq τ] in
theorem Returned.opened_iff {state : State τ} (returned : Returned state)
    (device : τ → List (BitVec 8)) (thread : τ) :
    Opened device state thread ↔ state.readers thread = .closed := by
  rcases returned thread with exited | closed
  · rw [Opened, exited]
    simp [Reader.written]
  · rw [Opened, closed]
    simp [Reader.written]

/-- What a file holds after all threads have returned: it is at most as long as some device
that was copied, at least as long as that of the last thread to open it, and every byte is
one that some copied device has at this position, or a zero behind the end of that device. -/
structure Merged (device : τ → List (BitVec 8)) (copied : τ → Prop) (last : τ) (file : File) :
    Prop where
  finished : copied last
  reaches : (device last).length ≤ file.size
  bytes : ∀ i, i < file.size →
    (∃ source, copied source ∧ (device source)[i]? = some (file.contents i)) ∨
      ((device last).length ≤ i ∧ file.contents i = 0#8)
  bounded : ∃ thread, copied thread ∧ file.size ≤ (device thread).length

omit [DecidableEq τ] in
/-- Copies of equal devices give a copy of them. -/
theorem Merged.read_eq {device : τ → List (BitVec 8)} {copied : τ → Prop} {last : τ}
    {file : File} (merged : Merged device copied last file) {data : List (BitVec 8)}
    (equal : ∀ thread, copied thread → device thread = data) :
    file.read 0 file.size = data := by
  rcases merged with ⟨finished, reaches, bytes, longest, longestCopied, bounded⟩
  rw [equal last finished] at reaches bytes
  rw [equal longest longestCopied] at bounded
  have size : file.size = data.length := Nat.le_antisymm bounded reaches
  rw [file.read_eq_bytes (by omega)]
  apply List.ext_getElem?
  intro i
  by_cases inside : i < file.size
  · rw [Memory.getElem?_bytes _ inside, Nat.zero_add]
    rcases bytes i inside with ⟨source, sourceCopied, byte⟩ | ⟨behind, _⟩
    · rw [← byte, equal source sourceCopied]
    · omega
  · rw [List.getElem?_eq_none (by rw [Memory.length_bytes]; omega),
      List.getElem?_eq_none (by omega)]

/-- The result of the threads in every order of their steps. If none could copy its device
the file is what it was. Otherwise it holds a mixture of the devices that were copied, at
least as long as that of the last thread to open the file; if the devices have the same
contents it is a copy of them. -/
theorem readFromUsb_merges (device : τ → List (BitVec 8)) (before : Option File)
    (actions : List (Action τ)) (state : State τ)
    (ran : exec (step device) (start before) actions = some state) (returned : Returned state) :
    ((∀ thread, state.readers thread ≠ .closed) → state.file = before) ∧
      ∀ thread, state.readers thread = .closed →
        ∃ file last, state.file = some file ∧ lastToOpen actions = some last ∧
          Merged device (fun other => state.readers other = .closed) last file ∧
          ∀ data, (∀ other, state.readers other = .closed → device other = data) →
            file.read 0 file.size = data := by
  have sound : Sound device before (lastToOpen actions) state := by
    apply @exec_past_invariant _ _ (fun past => Sound device before (lastToOpen past)) _ _ _ _
      (start_sound device before) _ ran
    intro past state action next steps sound
    rw [lastToOpen_snoc]
    exact sound.step steps
  have opened := returned.opened_iff device
  constructor
  · intro none
    exact sound.untouched fun thread isOpen => none thread ((opened thread).mp isOpen)
  · intro thread closed
    rcases sound.mixed thread ((opened thread).mpr closed) with
      ⟨file, last, count, latest, stored, mixture⟩
    have lastOpen : Opened device state last := by
      rw [Opened, mixture.written]
      rfl
    have lastClosed := (opened last).mp lastOpen
    have whole : count = (device last).length := by
      have written := mixture.written
      rw [lastClosed] at written
      exact (Option.some.inj written).symm
    have merged : Merged device (fun other => state.readers other = .closed) last file := by
      have copied : ∀ i, Copied device state file i →
          ∃ source, state.readers source = .closed ∧
            (device source)[i]? = some (file.contents i) := by
        rintro i ⟨source, sourceOpen, byte⟩
        exact ⟨source, (opened source).mp sourceOpen, byte⟩
      constructor
      · exact lastClosed
      · exact whole ▸ mixture.reaches
      · intro i inside
        by_cases front : i < count
        · exact Or.inl (copied i (mixture.copied i front))
        · exact (mixture.rest i inside).imp (copied i) fun zero => ⟨by omega, zero⟩
      · rcases mixture.bounded with ⟨source, sourceOpen, bounded⟩
        exact ⟨source, (opened source).mp sourceOpen, bounded⟩
    exact ⟨file, last, stored, latest, merged, fun data equal => merged.read_eq equal⟩

/-! ## The two threads of main -/

/-- The devices, with one thread for each. -/
inductive Device
  | sdb1
  | sdc1
  deriving DecidableEq

/-- Two devices that differ. -/
def twoDevices : Device → List (BitVec 8)
  | .sdb1 => [1#8, 1#8]
  | .sdc1 => [2#8, 2#8, 2#8]

/-- Both threads open the file before one of them writes, and write in turn. -/
def writingInTurn : List (Action Device) :=
  [.openDevice .sdb1 true, .openDevice .sdc1 true, .openFile .sdb1 true, .openFile .sdc1 true,
    .fread .sdb1, .fread .sdc1, .flush .sdb1 1, .flush .sdc1 3, .flush .sdb1 1, .fclose .sdb1,
    .fclose .sdc1]

theorem readFromUsb_merges_writingInTurn :
    ∃ state file, exec (step twoDevices) (start none) writingInTurn = some state ∧
      state.file = some file ∧
      Merged twoDevices (fun other => state.readers other = .closed) .sdc1 file := by
  have returned : ∀ state, exec (step twoDevices) (start none) writingInTurn = some state →
      Returned state := by
    intro state ran
    cases ran
    intro thread
    cases thread <;> exact Or.inr rfl
  rcases (readFromUsb_merges twoDevices none writingInTurn _ rfl (returned _ rfl)).2 .sdb1 rfl with
    ⟨file, last, stored, latest, merged, _⟩
  obtain rfl : Device.sdc1 = last := Option.some.inj latest
  exact ⟨_, file, rfl, stored, merged⟩

-- the file is a copy of neither device
example : (exec (step twoDevices) (start none) writingInTurn).bind (fun state =>
    state.file.map fun file => file.read 0 file.size) = some [2#8, 1#8, 2#8] := by
  decide +kernel

end ComputerSystems.FileTransfer.UsbReaders
