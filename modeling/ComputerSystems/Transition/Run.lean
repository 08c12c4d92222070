import Mathlib.Data.List.Induction

/-!
# Runs of a partial step function

A program that consumes one input after another is a function
`σ → ι → Option σ`, undefined where the program has no next state. Its runs
are iterated from the left, and the facts proved of them are histories: a
predicate on the inputs read so far together with the state they led to.
-/

namespace ComputerSystems.Transition

universe u v

variable {σ : Type u} {ι : Type v}

/-- Consume a list of inputs from the left. An undefined intermediate step
makes the whole run undefined. -/
def exec (step : σ → ι → Option σ) : σ → List ι → Option σ
  | state, [] => some state
  | state, input :: rest => (step state input).bind fun next => exec step next rest

@[simp]
theorem exec_nil (step : σ → ι → Option σ) (state : σ) :
    exec step state [] = some state :=
  rfl

theorem exec_append (step : σ → ι → Option σ) (state : σ) (first second : List ι) :
    exec step state (first ++ second) =
      (exec step state first).bind fun middle => exec step middle second := by
  induction first generalizing state with
  | nil => rfl
  | cons input rest ih =>
      simp only [List.cons_append, exec, Option.bind_assoc]
      exact congrArg _ (funext fun next => ih next)

theorem exec_snoc (step : σ → ι → Option σ) (state : σ) (past : List ι) (input : ι) :
    exec step state (past ++ [input]) =
      (exec step state past).bind fun middle => step middle input := by
  rw [exec_append]
  simp [exec]

/-- Run rule. A history predicate that holds initially and that every step
extends, while the step is defined, holds of every run. The step obligation
may use where in the input list the step stands. -/
theorem exec_history (holds : List ι → σ → Prop) {step : σ → ι → Option σ} {start : σ}
    (initially : holds [] start) (inputs : List ι)
    (advance : ∀ past input rest, inputs = past ++ input :: rest →
      ∀ state, exec step start past = some state → holds past state →
        ∃ next, step state input = some next ∧ holds (past ++ [input]) next) :
    ∃ final, exec step start inputs = some final ∧ holds inputs final := by
  induction inputs using List.reverseRecOn with
  | nil => exact ⟨start, rfl, initially⟩
  | append_singleton past input ih =>
      obtain ⟨state, reached, before⟩ := ih (by
        intro earlier now rest split
        exact advance earlier now (rest ++ [input]) (by simp [split]))
      rcases advance past input [] rfl state reached before with ⟨next, stepped, after⟩
      exact ⟨next, by rw [exec_snoc, reached, Option.bind_some, stepped], after⟩

/-- Run rule for a predicate that every step extends wherever it stands. -/
theorem exec_always (holds : List ι → σ → Prop) {step : σ → ι → Option σ} {start : σ}
    (initially : holds [] start)
    (advance : ∀ past input state, holds past state →
      ∃ next, step state input = some next ∧ holds (past ++ [input]) next)
    (inputs : List ι) :
    ∃ final, exec step start inputs = some final ∧ holds inputs final :=
  exec_history holds initially inputs fun past input _ _ state _ before =>
    advance past input state before

/-- Invariant rule. What holds at the start and survives every defined step holds
wherever a run ends. -/
theorem exec_invariant {holds : σ → Prop} {step : σ → ι → Option σ} {start final : σ}
    {inputs : List ι} (initially : holds start)
    (keeps : ∀ state input next, step state input = some next → holds state → holds next)
    (ran : exec step start inputs = some final) : holds final := by
  induction inputs generalizing start with
  | nil =>
      cases ran
      exact initially
  | cons input rest ih =>
      rcases Option.bind_eq_some_iff.mp ran with ⟨next, stepped, continued⟩
      exact ih (keeps start input next stepped initially) continued

/-- Invariant rule for a predicate on the inputs read so far and the state. -/
theorem exec_past_invariant {holds : List ι → σ → Prop} {step : σ → ι → Option σ}
    {start final : σ} {inputs : List ι} (initially : holds [] start)
    (keeps : ∀ past state input next, step state input = some next → holds past state →
      holds (past ++ [input]) next)
    (ran : exec step start inputs = some final) : holds inputs final := by
  induction inputs using List.reverseRecOn generalizing final with
  | nil =>
      cases ran
      exact initially
  | append_singleton past input ih =>
      rw [exec_snoc] at ran
      rcases Option.bind_eq_some_iff.mp ran with ⟨state, before, stepped⟩
      exact keeps past state input final stepped (ih before)

/-- Invariant rule with the place of a step: what the steps of one list of inputs
keep, where they stand in it, holds after every part of the list. -/
theorem exec_prefix_invariant {holds : σ → Prop} {step : σ → ι → Option σ} {start : σ}
    {inputs : List ι} (initially : holds start)
    (keeps : ∀ past input rest, inputs = past ++ input :: rest → ∀ state,
      exec step start past = some state → holds state →
      ∀ next, step state input = some next → holds next)
    (past : List ι) (part : past <+: inputs) (final : σ)
    (ran : exec step start past = some final) : holds final := by
  induction past using List.reverseRecOn generalizing final with
  | nil =>
      cases ran
      exact initially
  | append_singleton past input ih =>
      rw [exec_snoc] at ran
      rcases Option.bind_eq_some_iff.mp ran with ⟨state, before, stepped⟩
      rcases part with ⟨rest, split⟩
      rw [List.append_assoc, List.singleton_append] at split
      have held := ih ⟨input :: rest, split⟩ state before
      exact keeps past input rest split.symm state before held final stepped

/-- Every step that a run takes or attempts meets a condition on the state in which
it is taken. -/
def EveryStep (step : σ → ι → Option σ) (good : σ → ι → Prop) : σ → List ι → Prop
  | _, [] => True
  | state, input :: rest =>
      good state input ∧ ∀ next, step state input = some next → EveryStep step good next rest

instance EveryStep.decidable (step : σ → ι → Option σ) (good : σ → ι → Prop)
    [∀ state input, Decidable (good state input)] :
    ∀ state inputs, Decidable (EveryStep step good state inputs)
  | _, [] => isTrue trivial
  | state, input :: rest =>
      match stepped : step state input with
      | none => decidable_of_iff (good state input) (by simp [EveryStep, stepped])
      | some next =>
          have := EveryStep.decidable step good next rest
          decidable_of_iff (good state input ∧ EveryStep step good next rest)
            (by simp [EveryStep, stepped])

/-- A condition that every step meets is met at each place of a run. -/
theorem EveryStep.here {step : σ → ι → Option σ} {good : σ → ι → Prop} {start state : σ}
    {past rest : List ι} {input : ι} (met : EveryStep step good start (past ++ input :: rest))
    (ran : exec step start past = some state) : good state input := by
  induction past generalizing start with
  | nil =>
      cases ran
      exact met.1
  | cons first past ih =>
      rcases Option.bind_eq_some_iff.mp ran with ⟨next, stepped, continued⟩
      exact ih (met.2 next stepped) continued

/-- A condition that only defined steps meet is met by every step of a run exactly when the
run gets to each of its inputs and meets it there. -/
theorem everyStep_iff_reached {step : σ → ι → Option σ} {good : σ → ι → Prop} {start : σ}
    {inputs : List ι} (defined : ∀ state input, good state input → (step state input).isSome) :
    EveryStep step good start inputs ↔ ∀ past input rest, inputs = past ++ input :: rest →
      ∃ state, exec step start past = some state ∧ good state input := by
  induction inputs generalizing start with
  | nil =>
      refine iff_of_true trivial fun past input rest split => ?_
      exact absurd (List.append_eq_nil_iff.mp split.symm).2 (List.cons_ne_nil _ _)
  | cons first inputs ih =>
      constructor
      · rintro ⟨here, later⟩ past input rest split
        cases past with
        | nil =>
            cases split
            exact ⟨start, rfl, here⟩
        | cons _ past =>
            cases split
            rcases Option.isSome_iff_exists.mp (defined start first here) with ⟨next, stepped⟩
            rcases (ih.mp (later next stepped)) past input rest rfl with ⟨state, ran, good⟩
            exact ⟨state, by rw [exec, stepped]; exact ran, good⟩
      · intro reached
        rcases reached [] first inputs rfl with ⟨_, ⟨⟩, here⟩
        refine ⟨here, fun next stepped => ih.mpr ?_⟩
        rintro past input rest rfl
        rcases reached (first :: past) input rest rfl with ⟨state, ran, good⟩
        rw [exec, stepped] at ran
        exact ⟨state, ran, good⟩

/-- A condition on the inputs alone that is part of what every defined step meets is met by
all inputs. -/
theorem everyStep_and_iff {step : σ → ι → Option σ} {good : σ → ι → Prop} {valid : ι → Prop}
    {start : σ} {inputs : List ι}
    (defined : ∀ state input, valid input → good state input → (step state input).isSome) :
    EveryStep step (fun state input => valid input ∧ good state input) start inputs ↔
      (∀ input ∈ inputs, valid input) ∧ EveryStep step good start inputs := by
  induction inputs generalizing start with
  | nil => exact iff_of_true trivial ⟨fun _ member => absurd member List.not_mem_nil, trivial⟩
  | cons first inputs ih =>
      rw [List.forall_mem_cons]
      constructor
      · rintro ⟨⟨valid, here⟩, later⟩
        rcases Option.isSome_iff_exists.mp (defined start first valid here) with ⟨next, stepped⟩
        refine ⟨⟨valid, (ih.mp (later next stepped)).1⟩, here, fun other also => ?_⟩
        exact (ih.mp (later other also)).2
      · rintro ⟨⟨valid, others⟩, here, later⟩
        exact ⟨⟨valid, here⟩, fun next stepped => ih.mpr ⟨others, later next stepped⟩⟩

section EveryStep

variable {step : σ → ι → Option σ} {good good' : σ → ι → Prop} (holds : σ → Prop) {start : σ}
  {inputs : List ι}

/-- Invariant rule for runs whose steps meet a condition. -/
theorem EveryStep.invariant (met : EveryStep step good start inputs) (initially : holds start)
    (keeps : ∀ state input next, good state input → step state input = some next → holds state →
      holds next)
    {past : List ι} (part : past <+: inputs) {final : σ}
    (ran : exec step start past = some final) : holds final := by
  induction past generalizing start inputs with
  | nil =>
      cases ran
      exact initially
  | cons input rest ih =>
      rcases part with ⟨later, rfl⟩
      rcases Option.bind_eq_some_iff.mp ran with ⟨next, stepped, continued⟩
      exact ih (met.2 next stepped) (keeps start input next met.1 stepped initially)
        ⟨later, rfl⟩ continued

/-- A condition that implies another one in the states of an invariant, which the steps
that meet it keep. -/
theorem EveryStep.imp (met : EveryStep step good start inputs) (initially : holds start)
    (implies : ∀ state input, holds state → good state input → good' state input)
    (keeps : ∀ state input next, good state input → step state input = some next → holds state →
      holds next) : EveryStep step good' start inputs := by
  induction inputs generalizing start with
  | nil => exact trivial
  | cons input rest ih =>
      refine ⟨implies start input initially met.1, ?_⟩
      intro next stepped
      exact ih (met.2 next stepped) (keeps start input next met.1 stepped initially)

/-- Two conditions that agree in every state of an invariant, which the steps that
meet them keep, are met by the same runs. -/
theorem everyStep_iff (initially : holds start)
    (agree : ∀ state input, holds state → (good state input ↔ good' state input))
    (keeps : ∀ state input next, good state input → step state input = some next → holds state →
      holds next) :
    EveryStep step good start inputs ↔ EveryStep step good' start inputs := by
  induction inputs generalizing start with
  | nil => exact Iff.rfl
  | cons input rest ih =>
      constructor
      · rintro ⟨here, later⟩
        refine ⟨(agree start input initially).mp here, ?_⟩
        intro next stepped
        exact (ih (keeps start input next here stepped initially)).mp (later next stepped)
      · rintro ⟨here, later⟩
        have good := (agree start input initially).mpr here
        refine ⟨good, ?_⟩
        intro next stepped
        exact (ih (keeps start input next good stepped initially)).mpr (later next stepped)

/-- A property of the states of a run holds in all of them exactly when every step meets
a condition, where such steps keep an invariant that implies the property, and any other
step from a state of the invariant breaks the property at once. -/
theorem always_iff_everyStep {property : σ → Prop} (initially : holds start)
    (sound : ∀ state, holds state → property state)
    (keeps : ∀ state input next, good state input → step state input = some next → holds state →
      holds next)
    (exposes : ∀ state input, holds state →
      (∀ next, step state input = some next → property next) → good state input) :
    (∀ past final, past <+: inputs → exec step start past = some final → property final) ↔
      EveryStep step good start inputs := by
  constructor
  · intro always
    induction inputs generalizing start with
    | nil => exact trivial
    | cons input rest ih =>
        constructor
        · refine exposes start input initially ?_
          intro next stepped
          exact always [input] next ⟨rest, rfl⟩ (by rw [exec, stepped]; rfl)
        · intro next stepped
          have here : good start input := by
            refine exposes start input initially ?_
            intro other also
            exact always [input] other ⟨rest, rfl⟩ (by rw [exec, also]; rfl)
          refine ih (keeps start input next here stepped initially) ?_
          intro past final part ran
          refine always (input :: past) final (List.cons_prefix_cons.mpr ⟨rfl, part⟩) ?_
          rw [exec, stepped]
          exact ran
  · intro met past final part ran
    exact sound final (met.invariant holds initially keeps part ran)

end EveryStep

/-- Every input of a list meets a condition on the inputs before it. -/
def EachInput (good : List ι → ι → Prop) (inputs : List ι) : Prop :=
  ∀ past input rest, inputs = past ++ input :: rest → good past input

theorem eachInput_nil (good : List ι → ι → Prop) : EachInput good [] := by
  intro past input rest split
  exact absurd (List.append_eq_nil_iff.mp split.symm).2 (List.cons_ne_nil _ _)

theorem eachInput_snoc {good : List ι → ι → Prop} {past : List ι} {input : ι} :
    EachInput good (past ++ [input]) ↔ EachInput good past ∧ good past input := by
  constructor
  · intro each
    constructor
    · rintro earlier found rest rfl
      exact each earlier found (rest ++ [input]) (by simp)
    · exact each past input [] rfl
  · rintro ⟨each, last⟩ earlier found rest split
    rcases List.eq_nil_or_concat rest with rfl | ⟨front, final, rfl⟩
    · rcases List.append_inj' split rfl with ⟨rfl, same⟩
      cases same
      exact last
    · rw [List.concat_eq_append, ← List.cons_append, ← List.append_assoc] at split
      exact each earlier found front (List.append_inj' split rfl).1

/-- Simulation rule. Where every step of one program is matched by a step of another
on related states, so is every run. -/
theorem exec_simulation {σ' : Type*} (related : σ → σ' → Prop) {step : σ → ι → Option σ}
    {step' : σ' → ι → Option σ'} {start final : σ} {start' : σ'} {inputs : List ι}
    (initially : related start start')
    (matched : ∀ state state' input next, related state state' → step state input = some next →
      ∃ next', step' state' input = some next' ∧ related next next')
    (ran : exec step start inputs = some final) :
    ∃ final', exec step' start' inputs = some final' ∧ related final final' := by
  induction inputs generalizing start start' with
  | nil =>
      cases ran
      exact ⟨start', rfl, initially⟩
  | cons input rest ih =>
      rcases Option.bind_eq_some_iff.mp ran with ⟨next, stepped, continued⟩
      rcases matched start start' input next initially stepped with ⟨next', stepped', after⟩
      rcases ih after continued with ⟨final', continued', finally'⟩
      exact ⟨final', by rw [exec, stepped', Option.bind_some, continued'], finally'⟩

/-! ## Recorded runs -/

variable {κ : Type*}

/-- A step that also writes what it has to note in front of a log. -/
def record (step : σ → ι → Option σ) (note : σ → ι → List κ) :
    σ × List κ → ι → Option (σ × List κ) :=
  fun (state, log) input => (step state input).map fun next => (next, note state input ++ log)

/-- Keeping a log does not change the run. -/
theorem exec_record_fst (step : σ → ι → Option σ) (note : σ → ι → List κ) (state : σ)
    (log : List κ) (inputs : List ι) :
    (exec (record step note) (state, log) inputs).map Prod.fst = exec step state inputs := by
  induction inputs generalizing state log with
  | nil => rfl
  | cons input rest ih =>
      cases stepped : step state input with
      | none => simp [exec, record, stepped]
      | some next => simpa [exec, record, stepped] using ih next (note state input ++ log)

end ComputerSystems.Transition
