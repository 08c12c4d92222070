import Mathlib.Data.List.Nodup

/-!
# Order of most recent use

A history lists what was used, most recent first. `recents` lists each element
once, in the order of its most recent use, and `promote` is what one more use
does to that list: the element moves to the front. The number of uses since the
last use of an element is its first index in the history, and `recents` is
sorted by it.
-/

namespace ComputerSystems.Recency

universe u

variable {α : Type u} [DecidableEq α]

/-- Move an element to the front of a list, or put it there. -/
def promote (x : α) (order : List α) : List α :=
  x :: order.filter (· ≠ x)

/-- The distinct elements of a history, most recently used first. -/
def recents : List α → List α
  | [] => []
  | x :: history => promote x (recents history)

@[simp]
theorem recents_nil : recents ([] : List α) = [] :=
  rfl

theorem recents_cons (x : α) (history : List α) :
    recents (x :: history) = promote x (recents history) :=
  rfl

theorem mem_promote_iff {x y : α} {order : List α} :
    y ∈ promote x order ↔ y = x ∨ y ∈ order := by
  by_cases same : y = x <;> simp [promote, same]

theorem nodup_promote {order : List α} (distinct : order.Nodup) (x : α) :
    (promote x order).Nodup := by
  refine List.nodup_cons.mpr ⟨?_, distinct.filter _⟩
  simp

@[simp]
theorem mem_recents_iff {x : α} {history : List α} : x ∈ recents history ↔ x ∈ history := by
  induction history with
  | nil => rfl
  | cons y history ih => rw [recents_cons, mem_promote_iff, ih, List.mem_cons]

theorem nodup_recents (history : List α) : (recents history).Nodup := by
  induction history with
  | nil => exact List.nodup_nil
  | cons x history ih => exact nodup_promote ih x

theorem length_promote_le (x : α) (order : List α) :
    (promote x order).length ≤ order.length + 1 := by
  rw [promote, List.length_cons]
  exact Nat.succ_le_succ (List.length_filter_le _ _)

theorem length_promote_of_not_mem {x : α} {order : List α} (fresh : x ∉ order) :
    (promote x order).length = order.length + 1 := by
  have kept : order.filter (· ≠ x) = order := by
    apply List.filter_eq_self.mpr
    intro y member
    simpa using fun same : y = x => fresh (same ▸ member)
  rw [promote, kept, List.length_cons]

theorem length_promote_of_mem {x : α} {order : List α} (distinct : order.Nodup)
    (member : x ∈ order) : (promote x order).length = order.length := by
  have erased : order.filter (· ≠ x) = order.erase x := by
    rw [distinct.erase_eq_filter]
    exact List.filter_congr fun y _ => by simp [bne, beq_eq_decide]
  have positive := List.length_pos_of_mem member
  rw [promote, erased, List.length_cons, List.length_erase_of_mem member]
  omega

theorem length_le_promote {order : List α} (distinct : order.Nodup) (x : α) :
    order.length ≤ (promote x order).length := by
  by_cases member : x ∈ order
  · exact Nat.le_of_eq (length_promote_of_mem distinct member).symm
  · rw [length_promote_of_not_mem member]
    exact Nat.le_succ _

/-- `recents` is sorted by the number of uses since the last use. -/
theorem recents_sorted (history : List α) :
    (recents history).Pairwise fun x y => history.idxOf x < history.idxOf y := by
  induction history with
  | nil => exact List.Pairwise.nil
  | cons x history ih =>
      refine List.pairwise_cons.mpr ⟨?_, ?_⟩
      · intro y member
        have other : y ≠ x := by simpa using (List.mem_filter.mp member).2
        rw [List.idxOf_cons_self, List.idxOf_cons_ne _ other.symm]
        omega
      · apply (ih.filter _).imp_of_mem
        intro y z yMember zMember earlier
        have yOther : y ≠ x := by simpa using (List.mem_filter.mp yMember).2
        have zOther : z ≠ x := by simpa using (List.mem_filter.mp zMember).2
        rw [List.idxOf_cons_ne _ yOther.symm, List.idxOf_cons_ne _ zOther.symm]
        omega

/-! ## The first elements of the order -/

/-- An element beyond the first `k` joins them in front. -/
theorem take_promote_of_not_mem {x : α} {order : List α} {k : Nat}
    (outside : x ∉ order.take k) :
    (promote x order).take (k + 1) = x :: order.take k := by
  have kept : (order.take k).filter (· ≠ x) = order.take k := by
    apply List.filter_eq_self.mpr
    intro y member
    simpa using fun same : y = x => outside (same ▸ member)
  have split : order.filter (· ≠ x) = order.take k ++ (order.drop k).filter (· ≠ x) := by
    conv_lhs => rw [← List.take_append_drop k order, List.filter_append, kept]
  rw [promote, List.take_succ_cons, split]
  congr 1
  rcases Nat.le_total k order.length with short | long
  · rw [List.take_append_of_le_length (by rw [List.length_take]; omega), List.take_take,
      Nat.min_self]
  · rw [List.drop_eq_nil_of_le long, List.filter_nil, List.append_nil, List.take_take,
      Nat.min_self]

/-- Promoting one of the first `k` elements permutes them. -/
theorem mem_take_promote_of_mem {x y : α} {order : List α} {k : Nat} (distinct : order.Nodup)
    (inside : x ∈ order.take k) : y ∈ (promote x order).take k ↔ y ∈ order.take k := by
  rcases List.append_of_mem inside with ⟨before, after, split⟩
  obtain ⟨rest, whole⟩ : ∃ rest, order = before ++ x :: rest := by
    refine ⟨after ++ order.drop k, ?_⟩
    conv_lhs => rw [← List.take_append_drop k order, split]
    simp
  have length : before.length < k := by
    have bounded := List.length_take_le k order
    rw [split, List.length_append, List.length_cons] at bounded
    omega
  subst whole
  rcases List.nodup_append.mp distinct with ⟨_, tail, separate⟩
  have beforeKept : before.filter (· ≠ x) = before := by
    apply List.filter_eq_self.mpr
    intro z member
    simpa using separate z member x List.mem_cons_self
  have restKept : rest.filter (· ≠ x) = rest := by
    apply List.filter_eq_self.mpr
    intro z member
    simpa using fun same : z = x => (List.nodup_cons.mp tail).1 (same ▸ member)
  have promoted : promote x (before ++ x :: rest) = (x :: before) ++ rest := by
    simp only [promote, List.filter_append, beforeKept, List.filter_cons, ne_eq, not_true_eq_false,
      decide_false, Bool.false_eq_true, if_false, restKept, List.cons_append]
  have original : before ++ x :: rest = (before ++ [x]) ++ rest := by simp
  have front : (x :: before).take k = x :: before :=
    List.take_of_length_le (by rw [List.length_cons]; omega)
  have back : (before ++ [x]).take k = before ++ [x] :=
    List.take_of_length_le (by rw [List.length_append, List.length_singleton]; omega)
  have lengths : (before ++ [x]).length = (x :: before).length := by simp
  rw [promoted, original, List.take_append, List.take_append, front, back, lengths]
  simp only [List.mem_append, List.mem_cons, List.not_mem_nil, or_false]
  rw [@or_comm (y ∈ before)]

omit [DecidableEq α] in
/-- Dropping the last of the first `k + 1` elements, the one no other of them
was used before. -/
theorem mem_take_iff_ne_last {y : α} {order : List α} {k : Nat} (distinct : order.Nodup)
    (inside : k < order.length) :
    y ∈ order.take k ↔ y ∈ order.take (k + 1) ∧ y ≠ order[k] := by
  have split := List.take_succ_eq_append_getElem inside
  have separate : order[k] ∉ order.take k := by
    have nodup : (order.take (k + 1)).Nodup := distinct.sublist (List.take_sublist _ _)
    rw [split] at nodup
    exact fun member => (List.nodup_append.mp nodup).2.2 _ member _ List.mem_cons_self rfl
  rw [split, List.mem_append, List.mem_singleton]
  constructor
  · intro member
    exact ⟨Or.inl member, fun same => separate (same ▸ member)⟩
  · rintro ⟨member | same, other⟩
    · exact member
    · exact absurd same other

end ComputerSystems.Recency
