import Mathlib.Data.List.DropRight
import Mathlib.Data.List.Nodup
import Mathlib.Data.Nat.ModEq

/-!
# Arrays filled at a rotating index

Values are stored one after another at an index that goes round the slots of an
array: value number `k` is stored in slot `k % size` and stays there until `size`
more values are stored. So the array holds the values stored last, in an order
that only the index gives away.
-/

namespace ComputerSystems.Recency

variable {β : Type*} {size n : Nat}

/-! ## Turns -/

/-- Turns that are less than a round apart are at different slots. -/
theorem mod_ne_of_apart {a distance n : Nat} (positive : 0 < distance) (small : distance < n) :
    a % n ≠ (a + distance) % n := by
  intro same
  have cancelled : Nat.ModEq n 0 distance := Nat.ModEq.add_left_cancel' a same
  rw [Nat.ModEq, Nat.zero_mod, Nat.mod_eq_of_lt small] at cancelled
  omega

/-- A slot that has had a turn had one in the last round. -/
theorem exists_last_turn {i : Nat} (inside : i < size) (passed : i < n) :
    ∃ k, k < n ∧ n ≤ k + size ∧ k % size = i := by
  have below := Nat.mod_lt (n - 1 - i) (show 0 < size by omega)
  have whole := Nat.mod_add_div (n - 1 - i) size
  have slot : (i + size * ((n - 1 - i) / size)) % size = i := by
    rw [Nat.add_mul_mod_self_left, Nat.mod_eq_of_lt inside]
  generalize size * ((n - 1 - i) / size) = rounds at whole slot
  generalize (n - 1 - i) % size = ago at whole below
  exact ⟨i + rounds, by omega, by omega, slot⟩

/-- The slots of the first `n` turns. -/
def turns (size n : Nat) : List Nat := (List.range n).map (· % size)

theorem turns_succ (size n : Nat) : turns size (n + 1) = turns size n ++ [n % size] := by
  rw [turns, List.range_succ, List.map_append, List.map_singleton, ← turns]

/-- After a whole round the slot of the next turn is the one whose last turn is
longest ago: every other slot has had a turn since. -/
theorem turns_since (positive : 0 < size) (round : size ≤ n) :
    ∃ before after, turns size n = before ++ n % size :: after ∧ n % size ∉ after ∧
      ∀ i, i < size → i ≠ n % size → i ∈ after := by
  have same : (n - size) % size = n % size := (Nat.mod_eq_sub_mod round).symm
  have split : List.range n =
      List.range (n - size) ++ (n - size) :: List.range' (n - size + 1) (size - 1) := by
    have lengths : size = size - 1 + 1 := by omega
    rw [← List.range'_succ, ← lengths, List.range_eq_range', List.range_eq_range']
    have joined := List.range'_append_1 (s := 0) (m := n - size) (n := size)
    rw [Nat.zero_add, Nat.sub_add_cancel round] at joined
    exact joined.symm
  refine ⟨turns size (n - size), (List.range' (n - size + 1) (size - 1)).map (· % size),
    ?_, ?_, ?_⟩
  · rw [turns, split, List.map_append, List.map_cons, same, ← turns]
  · intro member
    rcases List.mem_map.mp member with ⟨k, since, turn⟩
    rw [List.mem_range'_1] at since
    have apart : (n - size) % size ≠ (n - size + (k - (n - size))) % size :=
      mod_ne_of_apart (by omega) (by omega)
    rw [Nat.add_sub_cancel' (by omega), same] at apart
    exact apart turn.symm
  · intro i inside apart
    rcases exists_last_turn inside (Nat.lt_of_lt_of_le inside round) with ⟨k, before, recent, turn⟩
    have later : k ≠ n - size := by
      rintro rfl
      exact apart (turn.symm.trans same)
    exact List.mem_map.mpr ⟨k, List.mem_range'_1.mpr (by omega), turn⟩

/-! ## What is stored -/

theorem getElem?_rtake {l : List β} {k : Nat} (recent : l.length ≤ k + size) :
    (l.rtake size)[k - (l.length - size)]? = l[k]? := by
  rw [List.rtake, List.getElem?_drop, Nat.add_sub_cancel' (by omega)]

theorem mem_rtake_iff {l : List β} {x : β} :
    x ∈ l.rtake size ↔ ∃ k, l[k]? = some x ∧ l.length ≤ k + size := by
  rw [List.mem_iff_getElem?]
  constructor
  · rintro ⟨k, here⟩
    rw [List.rtake, List.getElem?_drop] at here
    exact ⟨l.length - size + k, here, by omega⟩
  · rintro ⟨k, here, recent⟩
    exact ⟨k - (l.length - size), (getElem?_rtake recent).trans here⟩

theorem rtake_min_length (size : Nat) (l : List β) :
    l.rtake (min size l.length) = l.rtake size := by
  rw [List.rtake, List.rtake]
  congr 1
  omega

/-- An array that was blank holds the values stored in it, the last one stored in
each slot. -/
structure Rotates (size : Nat) (blank : β) (stored : List β) (cells : Nat → β) : Prop where
  held : ∀ k x, stored[k]? = some x → stored.length ≤ k + size → cells (k % size) = x
  blank : ∀ i, stored.length ≤ i → i < size → cells i = blank

section Rotates

variable {blank x : β} {stored : List β} {cells : Nat → β}

theorem rotates_nil (blanks : ∀ i, i < size → cells i = blank) : Rotates size blank [] cells where
  held := by
    intro k x here
    cases here
  blank i _ inside := blanks i inside

/-- One more value is stored. -/
theorem Rotates.store (rotates : Rotates size blank stored cells) (x : β) :
    Rotates size blank (stored ++ [x])
      (Function.update cells (stored.length % size) x) where
  held := by
    intro k y here recent
    rw [List.length_append, List.length_singleton] at recent
    by_cases earlier : k < stored.length
    · rw [List.getElem?_append_left earlier] at here
      have apart : k % size ≠ (k + (stored.length - k)) % size :=
        mod_ne_of_apart (by omega) (by omega)
      rw [Nat.add_sub_cancel' (Nat.le_of_lt earlier)] at apart
      rw [Function.update_of_ne apart]
      exact rotates.held k y here (by omega)
    · rw [List.getElem?_append_right (by omega)] at here
      have last : k = stored.length := by
        have bound := (List.getElem?_eq_some_iff.mp here).1
        rw [List.length_singleton] at bound
        omega
      rw [last, Nat.sub_self, List.getElem?_cons_zero, Option.some.injEq] at here
      rw [last, Function.update_self, here]
  blank := by
    intro i later inside
    rw [List.length_append, List.length_singleton] at later
    rw [Nat.mod_eq_of_lt (by omega), Function.update_of_ne (by omega)]
    exact rotates.blank i (by omega) inside

/-- A slot that has had a turn holds the value of its last one. -/
theorem Rotates.exists_turn (rotates : Rotates size blank stored cells) {i : Nat}
    (inside : i < size) (passed : i < stored.length) :
    ∃ k, k % size = i ∧ stored[k]? = some (cells i) ∧ stored.length ≤ k + size := by
  rcases exists_last_turn inside passed with ⟨k, before, recent, turn⟩
  have value := rotates.held k _ (List.getElem?_eq_getElem before) recent
  rw [turn] at value
  exact ⟨k, turn, value ▸ List.getElem?_eq_getElem before, recent⟩

theorem Rotates.passed (rotates : Rotates size blank stored cells) {i : Nat} (inside : i < size)
    (present : cells i ≠ blank) : i < stored.length := by
  by_contra unused
  exact present (rotates.blank i (Nat.le_of_not_lt unused) inside)

theorem Rotates.present_iff (rotates : Rotates size blank stored cells) (used : blank ∉ stored)
    {i : Nat} (inside : i < size) : cells i ≠ blank ↔ i < stored.length := by
  constructor
  · exact rotates.passed inside
  · intro passed empty
    rcases rotates.exists_turn inside passed with ⟨k, _, value, _⟩
    rw [empty] at value
    exact used (List.mem_of_getElem? value)

/-- The values in the slots are those stored in the last round. -/
theorem Rotates.mem_iff (rotates : Rotates size blank stored cells) (present : x ≠ blank) :
    (∃ i, i < size ∧ cells i = x) ↔ x ∈ stored.rtake size := by
  rw [mem_rtake_iff]
  constructor
  · rintro ⟨i, inside, rfl⟩
    rcases rotates.exists_turn inside (rotates.passed inside present) with ⟨k, _, value, recent⟩
    exact ⟨k, value, recent⟩
  · rintro ⟨k, here, recent⟩
    have before := (List.getElem?_eq_some_iff.mp here).1
    exact ⟨k % size, Nat.mod_lt k (by omega), rotates.held k x here recent⟩

/-- A value stored once in the last round is in one slot. -/
theorem Rotates.injective (rotates : Rotates size blank stored cells)
    (distinct : (stored.rtake size).Nodup) {i j : Nat} (inside : i < size) (inside' : j < size)
    (present : cells i ≠ blank) (same : cells i = cells j) : i = j := by
  rcases rotates.exists_turn inside (rotates.passed inside present) with
    ⟨k, turn, value, recent⟩
  rcases rotates.exists_turn inside' (rotates.passed inside' (same ▸ present)) with
    ⟨l, turn', value', recent'⟩
  rw [← same, ← value] at value'
  have bound := (List.getElem?_eq_some_iff.mp value).1
  have window : k - (stored.length - size) < (stored.rtake size).length := by
    rw [List.rtake, List.length_drop]
    omega
  have places := (List.getElem?_inj window distinct).mp
    ((getElem?_rtake recent).trans (value'.symm.trans (getElem?_rtake recent').symm))
  rw [← turn, ← turn', show k = l by omega]

/-- The values in the slots, blanks left out. -/
def entries [DecidableEq β] (size : Nat) (blank : β) (cells : Nat → β) : List β :=
  ((List.range size).map cells).filter (· ≠ blank)

theorem Rotates.nodup_entries [DecidableEq β] (rotates : Rotates size blank stored cells)
    (distinct : (stored.rtake size).Nodup) : (entries size blank cells).Nodup := by
  rw [entries, List.filter_map]
  refine (List.nodup_range.filter _).map_on ?_
  intro i member j member' same
  rw [List.mem_filter, List.mem_range] at member member'
  exact rotates.injective distinct member.1 member'.1 (by simpa using member.2) same

theorem Rotates.perm_entries [DecidableEq β] (rotates : Rotates size blank stored cells)
    (used : blank ∉ stored) (distinct : (stored.rtake size).Nodup) :
    (entries size blank cells).Perm (stored.rtake size) := by
  rw [List.perm_ext_iff_of_nodup (rotates.nodup_entries distinct) distinct]
  intro x
  rw [entries, List.mem_filter, List.mem_map]
  simp only [List.mem_range, decide_eq_true_eq]
  constructor
  · rintro ⟨here, present⟩
    exact (rotates.mem_iff present).mp here
  · intro member
    have present : x ≠ blank := by
      rintro rfl
      exact used (List.mem_of_mem_drop member)
    exact ⟨(rotates.mem_iff present).mpr member, present⟩

/-- When no slot is blank a whole round has passed. -/
theorem Rotates.round (rotates : Rotates size blank stored cells)
    (full : ∀ i, i < size → cells i ≠ blank) : size ≤ stored.length := by
  by_contra short
  have room := Nat.lt_of_not_le short
  exact full _ room (rotates.blank _ (Nat.le_refl _) room)

/-- While a slot is blank the first blank one is the slot of the next turn. -/
theorem Rotates.first_blank (rotates : Rotates size blank stored cells) (used : blank ∉ stored)
    {i : Nat} (inside : i < size) (empty : cells i = blank) :
    stored.length % size = stored.length ∧ stored.length < size ∧
      cells stored.length = blank ∧ ∀ j, j < stored.length → cells j ≠ blank := by
  have notPassed : ¬ i < stored.length := by
    intro passed
    exact (rotates.present_iff used inside).mpr passed empty
  have room : stored.length < size := by omega
  refine ⟨Nat.mod_eq_of_lt room, room, rotates.blank _ (Nat.le_refl _) room, ?_⟩
  intro j earlier
  exact (rotates.present_iff used (by omega)).mpr earlier

end Rotates

end ComputerSystems.Recency
