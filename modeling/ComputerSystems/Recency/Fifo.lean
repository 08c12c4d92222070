import Mathlib.Data.List.DropRight
import Mathlib.Data.List.Nodup

/-!
# A cache with a queue

A cache of a fixed capacity that holds its pages in the order in which they were
loaded. A page that is not held is put at the back, and takes the place of the
page at the front when the cache is full. So the cache holds the pages of its
last faults.
-/

namespace ComputerSystems.Recency

universe u

variable {α : Type u} [DecidableEq α]

/-- The pages held, loaded longest ago first, and the number of faults. -/
structure FifoCache (α : Type u) where
  queue : List α
  faults : Nat

/-- The cache before the first reference. -/
def FifoCache.empty : FifoCache α where
  queue := []
  faults := 0

/-- Put a page at the back of the queue. -/
def enqueue (capacity : Nat) (queue : List α) (page : α) : List α :=
  if queue.length < capacity then queue ++ [page] else queue.tail ++ [page]

/-- A reference to a page. -/
def FifoCache.access (capacity : Nat) (cache : FifoCache α) (page : α) : FifoCache α :=
  if page ∈ cache.queue then
    cache
  else
    { queue := enqueue capacity cache.queue page, faults := cache.faults + 1 }

/-- The cache after a reference string. -/
def FifoCache.serve (capacity : Nat) (references : List α) : FifoCache α :=
  references.foldl (FifoCache.access capacity) .empty

theorem FifoCache.serve_append (capacity : Nat) (references : List α) (page : α) :
    serve capacity (references ++ [page]) = (serve capacity references).access capacity page := by
  rw [serve, List.foldl_append, ← serve, List.foldl_cons, List.foldl_nil]

omit [DecidableEq α] in
theorem mem_enqueue (capacity : Nat) (queue : List α) (page : α) :
    page ∈ enqueue capacity queue page := by
  rw [enqueue]
  split <;> simp

/-- A page is held after a reference to it. -/
theorem FifoCache.mem_access (capacity : Nat) (cache : FifoCache α) (page : α) :
    page ∈ (cache.access capacity page).queue := by
  rw [access]
  by_cases hit : page ∈ cache.queue
  · rwa [if_pos hit]
  · rw [if_neg hit]
    exact mem_enqueue capacity cache.queue page

omit [DecidableEq α] in
/-- What the queue does to the pages loaded last. -/
theorem enqueue_rtake {capacity : Nat} (positive : 0 < capacity) (loaded : List α) (page : α) :
    enqueue capacity (loaded.rtake capacity) page = (loaded ++ [page]).rtake capacity := by
  rcases capacity with _ | capacity
  · cases positive
  · rw [List.rtake_concat_succ, enqueue]
    by_cases room : loaded.length < capacity + 1
    · have all : loaded.rtake (capacity + 1) = loaded.rtake capacity := by
        rw [List.rtake, List.rtake, Nat.sub_eq_zero_of_le (by omega),
          Nat.sub_eq_zero_of_le (by omega)]
      rw [all, if_pos (by rw [List.rtake, List.length_drop]; omega)]
    · rw [if_neg (by rw [List.rtake, List.length_drop]; omega), List.rtake, List.tail_drop,
        List.rtake]
      congr 2
      omega

omit [DecidableEq α] in
theorem nodup_rtake_append {capacity : Nat} (positive : 0 < capacity) {loaded : List α} {page : α}
    (distinct : (loaded.rtake capacity).Nodup) (fresh : page ∉ loaded.rtake capacity) :
    ((loaded ++ [page]).rtake capacity).Nodup := by
  have extended : (loaded.rtake capacity ++ [page]).Nodup := by
    rw [List.nodup_append_comm]
    exact List.nodup_cons.mpr ⟨fresh, distinct⟩
  rw [← enqueue_rtake positive, enqueue]
  split
  · exact extended
  · exact extended.sublist ((List.tail_sublist _).append_right [page])

end ComputerSystems.Recency
