import ComputerSystems.Concurrency.Monitor
import Mathlib.Algebra.BigOperators.Group.Finset.Basic

/-!
# Wake-ups are not lost

Each condition of a monitor counts the operations that could proceed on it. When
a body takes one from its own condition and gives at most one to the condition
it wakes, one signal for each body is enough: whoever is past the test or has
been signalled stands for one of them.
-/

namespace ComputerSystems.Concurrency.Monitor

open ComputerSystems.Transition

variable {τ σ ο κ : Type*}

/-- How many operations could proceed on each condition, in the shared states that
are valid. -/
structure UnitResource (m : Monitor τ σ ο κ) (valid : σ → Prop) (available : κ → σ → Nat) :
    Prop where
  keeps : ∀ thread op data, m.blocked op data = false → valid data →
    valid (m.perform thread op data)
  blocked_iff : ∀ op data, valid data →
    (m.blocked op data = true ↔ available (m.condition op) data = 0)
  takes : ∀ thread op data, m.blocked op data = false → valid data →
    available (m.condition op) (m.perform thread op data) + 1 ≤ available (m.condition op) data
  gives : ∀ thread op data, m.blocked op data = false → valid data →
    available (m.wakes op) (m.perform thread op data) ≤ available (m.wakes op) data + 1
  others : ∀ thread op data c, m.blocked op data = false → valid data → c ≠ m.condition op →
    c ≠ m.wakes op → available c (m.perform thread op data) ≤ available c data
  apart : ∀ op, m.condition op ≠ m.wakes op

section Credit

variable [DecidableEq κ]

/-- What a thread stands for on a condition: one operation that will test it or
run its body, or one signal still to be given. -/
def credit (m : Monitor τ σ ο κ) (c : κ) : Phase ο → Nat
  | .testing op | .body op | .signalled op => if m.condition op = c then 1 else 0
  | .signalling op => if m.wakes op = c then 1 else 0
  | _ => 0

section Values

variable (m : Monitor τ σ ο κ) (c : κ) (op : ο)

@[simp]
theorem credit_leaving : m.credit c .leaving = 0 := rfl

@[simp]
theorem credit_waiting : m.credit c (.waiting op) = 0 := rfl

@[simp]
theorem credit_signalled :
    m.credit c (.signalled op) = if m.condition op = c then 1 else 0 := rfl

@[simp]
theorem credit_signalling :
    m.credit c (.signalling op) = if m.wakes op = c then 1 else 0 := rfl

end Values

/-- While a thread waits on a condition, the operations that could proceed on it
are covered by credits. -/
def Balanced [Fintype τ] (m : Monitor τ σ ο κ) (available : κ → σ → Nat)
    (state : MonitorState τ σ ο) : Prop :=
  ∀ c, (∃ thread, m.waitsOn c (state.phases thread) = true) →
    available c state.shared ≤ ∑ thread, m.credit c (state.phases thread)

variable {m : Monitor τ σ ο κ} {valid : σ → Prop} {available : κ → σ → Nat}
  {state next final : MonitorState τ σ ο} {thread : τ}

/-- What one change does to a condition: nobody could proceed on it, or the thread
does not wait on it and its credit covers what became available. -/
theorem Change.covered {phase old : Phase ο} {owner lock : Option τ} {shared data : σ}
    (law : m.UnitResource valid available) (isValid : valid data)
    (ready : ∀ op, old = .body op → m.blocked op data = false)
    (change : m.Change thread old lock data phase owner shared) (c : κ) :
    available c shared = 0 ∨ m.waitsOn c phase = false ∧
      available c shared + m.credit c old ≤ available c data + m.credit c phase := by
  cases change with
  | call op | interrupt op | wake op => exact Or.inr ⟨rfl, by simp [credit]⟩
  | enter op | resume op | abort | unlock => exact Or.inr ⟨rfl, by simp [credit]⟩
  | pass op free => exact Or.inr ⟨rfl, by simp [credit]⟩
  | wait op blocked =>
      by_cases same : m.condition op = c
      · left
        rw [← same, ← law.blocked_iff op _ isValid]
        exact blocked
      · right
        simp [waitsOn, credit, same]
  | refuse op blocked =>
      by_cases same : m.condition op = c
      · left
        rw [← same, ← law.blocked_iff op _ isValid]
        exact blocked
      · right
        simp [waitsOn, credit, same]
  | perform op =>
      right
      have free := ready op rfl
      have apart := law.apart op
      refine ⟨rfl, ?_⟩
      by_cases taken : m.condition op = c
      · subst taken
        simpa [credit, apart.symm] using law.takes thread op data free isValid
      · by_cases given : m.wakes op = c
        · subst given
          simpa [credit, taken] using law.gives thread op data free isValid
        · simpa [credit, taken, given] using
            law.others thread op data c free isValid (Ne.symm taken) (Ne.symm given)

variable [DecidableEq τ]

/-- A thread that waits after another has moved, without waiting itself, waited
before. -/
theorem waits_of_update {c : κ} {phases : τ → Phase ο} {phase : Phase ο}
    (moved : m.waitsOn c phase = false)
    (waits : ∃ other, m.waitsOn c (Function.update phases thread phase other) = true) :
    ∃ other, m.waitsOn c (phases other) = true := by
  rcases waits with ⟨other, waits⟩
  refine ⟨other, ?_⟩
  by_cases same : other = thread
  · rw [same, Function.update_self, moved] at waits
    cases waits
  · rwa [Function.update_of_ne same] at waits

variable [Fintype τ]

/-- The credits after one thread has moved. -/
theorem sum_credit_update (m : Monitor τ σ ο κ) (c : κ) (phases : τ → Phase ο) (thread : τ)
    (phase : Phase ο) :
    ∑ other, m.credit c (Function.update phases thread phase other) +
        m.credit c (phases thread) =
      ∑ other, m.credit c (phases other) + m.credit c phase := by
  have before := Finset.add_sum_erase Finset.univ (fun other => m.credit c (phases other))
    (Finset.mem_univ thread)
  have after := Finset.add_sum_erase Finset.univ
    (fun other => m.credit c (Function.update phases thread phase other)) (Finset.mem_univ thread)
  have rest : ∑ other ∈ Finset.univ.erase thread,
        m.credit c (Function.update phases thread phase other) =
      ∑ other ∈ Finset.univ.erase thread, m.credit c (phases other) := by
    apply Finset.sum_congr rfl
    intro other member
    rw [Function.update_of_ne (Finset.ne_of_mem_erase member)]
  rw [Function.update_self, rest] at after
  omega

theorem Balanced.change {phase : Phase ο} {owner : Option τ} {shared : σ}
    (balanced : m.Balanced available state) (law : m.UnitResource valid available)
    (isValid : valid state.shared) (exclusive : m.Exclusive state)
    (change : m.Change thread (state.phases thread) state.owner state.shared phase owner shared) :
    m.Balanced available ⟨Function.update state.phases thread phase, owner, shared⟩ := by
  intro c waits
  rcases change.covered law isValid (exclusive.ready thread) c with none | ⟨moved, covered⟩
  · simp only [none, Nat.zero_le]
  · have before := balanced c (waits_of_update moved waits)
    have credits := sum_credit_update m c state.phases thread phase
    simp only
    omega

theorem Balanced.signal {op : ο} (balanced : m.Balanced available state)
    (here : state.phases thread = .signalling op) (signal : m.Signal state thread op next) :
    m.Balanced available next := by
  intro c waits
  have left := sum_credit_update m c state.phases thread .leaving
  rw [here, credit_signalling, credit_leaving] at left
  cases signal with
  | lost nobody =>
      have waited := waits_of_update rfl waits
      have before := balanced c waited
      have other : m.wakes op ≠ c := by
        rintro rfl
        rcases waited with ⟨waiter, waits⟩
        rw [nobody waiter] at waits
        cases waits
      rw [if_neg other] at left
      simp only [MonitorState.move]
      omega
  | woke other waiter waiting same =>
      have waited := waits_of_update rfl (waits_of_update rfl waits)
      have before := balanced c waited
      have apart : other ≠ thread := by
        rintro rfl
        rw [here] at waiting
        cases waiting
      have woken := sum_credit_update m c (Function.update state.phases thread .leaving) other
        (.signalled waiter)
      rw [Function.update_of_ne apart, waiting, credit_waiting, credit_signalled, same] at woken
      simp only [MonitorState.move]
      omega

theorem Balanced.step {action : MonitorAction τ ο} (balanced : m.Balanced available state)
    (law : m.UnitResource valid available) (isValid : valid state.shared)
    (exclusive : m.Exclusive state) (stepped : m.step state action = some next) :
    m.Balanced available next := by
  rcases step_cases stepped with ⟨thread, phase, owner, shared, change, _, rfl⟩ | moved
  · exact balanced.change law isValid exclusive change
  · rcases moved with ⟨thread, op, here, signal⟩
    exact balanced.signal here signal

omit [DecidableEq τ] in
theorem balanced_init (shared : σ) : m.Balanced available (init shared) := by
  rintro c ⟨thread, waits⟩
  cases waits

theorem run_balanced {shared : σ} {actions : List (MonitorAction τ ο)}
    (law : m.UnitResource valid available) (initially : valid shared)
    (ran : exec m.step (init shared) actions = some final) : m.Balanced available final := by
  have all : m.Exclusive final ∧ valid final.shared ∧ m.Balanced available final := by
    apply exec_invariant _ _ ran
    · exact ⟨exclusive_init shared, initially, balanced_init shared⟩
    · rintro state action next stepped ⟨exclusive, isValid, balanced⟩
      refine ⟨exclusive.step stepped, ?_, balanced.step law isValid exclusive stepped⟩
      rcases shared_cases exclusive stepped with same | ⟨thread, op, _, _, free, changed⟩
      · rwa [same]
      · rw [changed]
        exact law.keeps thread op state.shared free isValid
  exact all.2.2

omit [DecidableEq τ] in
/-- With the lock free, the credits are the signals whose threads are still
outside. -/
theorem Exclusive.sum_credit (exclusive : m.Exclusive state) (free : state.owner = none) (c : κ) :
    ∑ thread, m.credit c (state.phases thread) =
      (Finset.univ.filter fun thread => m.signalledOn c (state.phases thread)).card := by
  rw [Finset.card_filter]
  apply Finset.sum_congr rfl
  intro thread _
  have outside := exclusive.owner thread
  rw [free] at outside
  cases phase : state.phases thread with
  | testing op | body op | signalling op => simp [phase, Phase.holds] at outside
  | signalled op => simp [signalledOn]
  | idle | leaving | interrupted => rfl
  | entering op | waiting op => rfl

/-- No lost wake-up: with the lock free and a thread waiting on a condition, the
operations that could proceed on it are at most the signals whose threads have
not taken the lock again. -/
theorem available_le_signalled {shared : σ} {actions : List (MonitorAction τ ο)}
    (law : m.UnitResource valid available) (initially : valid shared)
    (ran : exec m.step (init shared) actions = some final) (free : final.owner = none) (c : κ)
    (waits : ∃ thread, m.waitsOn c (final.phases thread) = true) :
    available c final.shared ≤
      (Finset.univ.filter fun thread => m.signalledOn c (final.phases thread)).card := by
  rw [← (run_exclusive ran).sum_credit free c]
  exact run_balanced law initially ran c waits

/-- When every thread waits, each of them is blocked. -/
theorem blocked_of_all_waiting {shared : σ} {actions : List (MonitorAction τ ο)}
    (law : m.UnitResource valid available) (initially : valid shared)
    (ran : exec m.step (init shared) actions = some final)
    (waiting : ∀ thread, ∃ op, final.phases thread = .waiting op) (thread : τ) (op : ο)
    (waits : final.phases thread = .waiting op) : m.blocked op final.shared = true := by
  have isValid := run_shared valid initially law.keeps ran
  have waited : m.waitsOn (m.condition op) (final.phases thread) = true := by
    simp [waits, waitsOn]
  have covered := run_balanced law initially ran (m.condition op) ⟨thread, waited⟩
  rw [Finset.sum_eq_zero] at covered
  · rw [law.blocked_iff op final.shared isValid]
    exact Nat.le_zero.mp covered
  · intro other _
    rcases waiting other with ⟨op', parked⟩
    rw [parked, credit_waiting]

end Credit

end ComputerSystems.Concurrency.Monitor
