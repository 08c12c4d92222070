import ComputerSystems.Text.Runs
import Mathlib.Data.List.DropRight

/-!
# Words of a text

The words of a text are its longest non-empty runs of characters that belong to a
word. Text that is put behind a text adds its words, unless the border between the
two cuts a word.
-/

namespace ComputerSystems.Text

universe u

variable {α : Type u} (p : α → Bool)

/-- The words of a text, where a predicate says which characters belong to a word. -/
def words (text : List α) : List (List α) :=
  (runs p text).filter fun word => !word.isEmpty

/-- The border between two texts does not cut a word. -/
def Apart (text later : List α) : Prop :=
  ∀ a ∈ text.getLast?, ∀ b ∈ later.head?, ¬ (p a = true ∧ p b = true)

instance (text later : List α) : Decidable (Apart p text later) :=
  inferInstanceAs (Decidable (∀ a ∈ text.getLast?, ∀ b ∈ later.head?, ¬ (p a = true ∧ p b = true)))

variable {p} {text later : List α}

@[simp]
theorem words_nil : words p [] = [] := by
  simp [words, runs, List.splitOnP_nil]

/-- A text is split at a character that belongs to no word. -/
theorem words_append_break {a : α} (outside : p a = false) (text later : List α) :
    words p (text ++ a :: later) = words p text ++ words p later := by
  have split : (!p a) = true := by rw [outside, Bool.not_false]
  rw [words, runs, List.splitOnP_append_cons text later split, List.filter_append]
  rfl

theorem words_cons_break {a : α} (outside : p a = false) (rest : List α) :
    words p (a :: rest) = words p rest := by
  have split := words_append_break outside [] rest
  rwa [List.nil_append, words_nil, List.nil_append] at split

/-- A text without a character of a word has no words. -/
theorem words_of_breaks (outside : ∀ a ∈ text, p a = false) : words p text = [] := by
  induction text with
  | nil => exact words_nil
  | cons a rest ih =>
      rw [words_cons_break (outside a List.mem_cons_self)]
      exact ih fun b member => outside b (List.mem_cons_of_mem a member)

/-- A non-empty text of characters of a word is one word. -/
theorem words_of_letters (inside : ∀ a ∈ text, p a = true) (nonempty : text ≠ []) :
    words p text = [text] := by
  have unsplit : ∀ a ∈ text, (!p a) = false := by
    intro a member
    rw [inside a member, Bool.not_true]
  rw [words, runs, List.splitOnP_eq_singleton unsplit]
  simp [nonempty]

/-- Where the border cuts no word, each text has its own words. -/
theorem words_append (apart : Apart p text later) :
    words p (text ++ later) = words p text ++ words p later := by
  cases later with
  | nil => rw [List.append_nil, words_nil, List.append_nil]
  | cons b rest =>
      cases second : p b with
      | false => rw [words_append_break second, words_cons_break second]
      | true =>
          rcases List.eq_nil_or_concat text with rfl | ⟨front, a, rfl⟩
          · rw [List.nil_append, words_nil, List.nil_append]
          · rw [List.concat_eq_append] at apart ⊢
            have first : p a = false := by
              rw [← Bool.not_eq_true]
              intro first
              exact apart a (by simp) b rfl ⟨first, second⟩
            rw [words_append_break first, words_nil, List.append_nil, List.append_assoc,
              List.singleton_append, words_append_break first]

/-- A text that starts with a character of a word starts with that word. -/
theorem exists_first_word {a : α} (inside : p a = true) (rest : List α) :
    ∃ word others, words p (a :: rest) = (a :: word) :: others := by
  rcases exists_runs (p := p) rest with ⟨run, later, split⟩
  rw [words, runs_cons_of_pos inside, split]
  exact ⟨run, _, rfl⟩

theorem words_ne_nil {a : α} (member : a ∈ text) (inside : p a = true) : words p text ≠ [] := by
  induction text with
  | nil => cases member
  | cons b rest ih =>
      cases first : p b with
      | true =>
          rcases exists_first_word first rest with ⟨word, others, split⟩
          rw [split]
          exact List.cons_ne_nil _ _
      | false =>
          rw [words_cons_break first]
          rcases List.mem_cons.mp member with rfl | member
          · exact absurd inside (Bool.eq_false_iff.mp first)
          · exact ih member

/-- A text ends with a run of characters of a word, which may be empty. -/
theorem exists_last_run (text : List α) :
    ∃ front last, text = front ++ last ∧ (∀ a ∈ last, p a = true) ∧
      ∀ a ∈ front.getLast?, p a = false := by
  refine ⟨text.rdropWhile p, text.rtakeWhile p, List.rdropWhile_append_rtakeWhile.symm,
    fun a => List.mem_rtakeWhile_imp, ?_⟩
  intro a last
  rcases List.mem_getLast?_eq_getLast last with ⟨nonempty, rfl⟩
  exact (Bool.not_eq_true _).mp (List.rdropWhile_last_not p text nonempty)

/-- Where the border cuts a word, the last word of the first text grows. -/
theorem words_append_cut (cut : ¬ Apart p text later) :
    ∃ before word more after, words p text = before ++ [word] ∧ more ≠ [] ∧
      words p (text ++ later) = before ++ (word ++ more) :: after := by
  rcases exists_last_run (p := p) text with ⟨front, word, rfl, letters, ended⟩
  have more := List.takeWhile_append_dropWhile (p := p) (l := later)
  simp only [Apart, not_forall, not_not] at cut
  rcases cut with ⟨a, last, b, first, inside⟩
  have started : later.takeWhile p ≠ [] := by
    cases later with
    | nil => cases first
    | cons c rest =>
        cases first
        rw [List.takeWhile_cons_of_pos inside.2]
        exact List.cons_ne_nil _ _
  have ending : word ≠ [] := by
    rintro rfl
    rw [List.append_nil] at last
    exact absurd inside.1 (Bool.eq_false_iff.mp (ended a last))
  have apart : ∀ other, Apart p front other := by
    intro other c here d _ both
    exact absurd both.1 (Bool.eq_false_iff.mp (ended c here))
  have border : Apart p (word ++ later.takeWhile p) (later.dropWhile p) := by
    intro c _ d here both
    have stopped := List.head?_dropWhile_not p later
    rw [Option.mem_def.mp here] at stopped
    exact absurd both.2 (Bool.eq_false_iff.mp stopped)
  have grown : ∀ c ∈ word ++ later.takeWhile p, p c = true := by
    intro c member
    rcases List.mem_append.mp member with member | member
    · exact letters c member
    · exact List.mem_takeWhile_imp member
  refine ⟨words p front, word, later.takeWhile p, words p (later.dropWhile p), ?_, started, ?_⟩
  · rw [words_append (apart _), words_of_letters letters ending]
  · calc words p (front ++ word ++ later)
        = words p (front ++ (word ++ later.takeWhile p ++ later.dropWhile p)) := by
          rw [List.append_assoc, List.append_assoc, more]
      _ = words p front ++
            (words p (word ++ later.takeWhile p) ++ words p (later.dropWhile p)) := by
          rw [words_append (apart _), words_append border]
      _ = words p front ++ (word ++ later.takeWhile p) :: words p (later.dropWhile p) := by
          rw [words_of_letters grown (List.append_ne_nil_of_left_ne_nil ending _),
            List.singleton_append]

/-- Text behind a text with a second word leaves the first word as it is, and there still is
a second one. -/
theorem exists_words_append (later : List α) {first second : List α} {others : List (List α)}
    (split : words p text = first :: second :: others) :
    ∃ second' others', words p (text ++ later) = first :: second' :: others' := by
  by_cases apart : Apart p text later
  · rw [words_append apart, split]
    exact ⟨second, others ++ words p later, rfl⟩
  · rcases words_append_cut apart with ⟨before, word, more, after, parts, _, grown⟩
    rw [split] at parts
    cases before with
    | nil => cases parts
    | cons head before =>
        rw [grown, (List.cons.inj parts).1]
        cases before with
        | nil => exact ⟨word ++ more, after, rfl⟩
        | cons next before => exact ⟨next, before ++ (word ++ more) :: after, rfl⟩

/-- Elements behind a list leave its first ones as they are exactly when there are
enough of them. -/
theorem take_append_eq_take_iff {β : Type*} {n : Nat} {first second : List β}
    (nonempty : second ≠ []) :
    (first ++ second).take n = first.take n ↔ n ≤ first.length := by
  constructor
  · intro same
    have lengths := congrArg List.length same
    have positive := List.length_pos_iff.mpr nonempty
    rw [List.length_take, List.length_take, List.length_append] at lengths
    omega
  · exact List.take_append_of_le_length

/-- Text behind a text leaves the first words as they are exactly when it has no
words, when there are more words before it, or when there are just as many and the
border cuts no word. -/
theorem take_words_append_iff {n : Nat} :
    (words p (text ++ later)).take n = (words p text).take n ↔
      (∀ a ∈ later, p a = false) ∨ n < (words p text).length ∨
        (words p text).length = n ∧ Apart p text later := by
  by_cases blank : ∀ a ∈ later, p a = false
  · have apart : Apart p text later := by
      intro a _ b here both
      exact absurd both.2 (Bool.eq_false_iff.mp (blank b (List.mem_of_mem_head? here)))
    rw [words_append apart, words_of_breaks blank, List.append_nil]
    exact iff_of_true rfl (Or.inl blank)
  · have later_words : words p later ≠ [] := by
      simp only [not_forall, Bool.not_eq_false] at blank
      rcases blank with ⟨a, member, inside⟩
      exact words_ne_nil member inside
    by_cases apart : Apart p text later
    · rw [words_append apart, take_append_eq_take_iff later_words]
      simp only [blank, apart, false_or, and_true]
      omega
    · rcases words_append_cut apart with ⟨before, word, more, after, first, grows, both⟩
      have kept : n ≤ before.length ↔ n < (before ++ [word]).length := by
        rw [List.length_append, List.length_singleton]
        omega
      simp only [blank, apart, false_or, and_false, or_false]
      rw [both, first, ← kept]
      constructor
      · intro same
        by_contra above
        have here := congrArg (fun found => found[before.length]?) same
        simp [Nat.not_le.mp above, grows] at here
      · intro enough
        rw [List.take_append_of_le_length enough, List.take_append_of_le_length enough]

end ComputerSystems.Text
