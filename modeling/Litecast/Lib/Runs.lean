/-! Runs of a step function, and when a property holds after every step. -/

namespace Runs

variable {State Action : Type} (step : State → Action → State)

/-- `P` holds at the start and after every action. -/
def Always (P : State → Prop) : State → List Action → Prop
  | s, [] => P s
  | s, a :: rest => P s ∧ Always P (step s a) rest

/-- Every action of the run is taken in a state where `ok` allows it. -/
def EveryStep (ok : State → Action → Prop) : State → List Action → Prop
  | _, [] => True
  | s, a :: rest => ok s a ∧ EveryStep ok (step s a) rest

variable {step}

theorem Always.start {P : State → Prop} {s : State} {actions : List Action}
    (h : Always step P s actions) : P s := by
  cases actions with
  | nil => exact h
  | cons a rest => exact h.1

theorem Always.mono {P Q : State → Prop} (himp : ∀ s, P s → Q s) {s : State}
    {actions : List Action} (h : Always step P s actions) : Always step Q s actions := by
  induction actions generalizing s with
  | nil => exact himp s h
  | cons a rest ih => exact ⟨himp s h.1, ih h.2⟩

theorem always_foldl {P : State → Prop} {s : State} {actions : List Action}
    (h : Always step P s actions) : P (actions.foldl step s) := by
  induction actions generalizing s with
  | nil => exact h
  | cons a rest ih => exact ih h.2

theorem Always.here {P : State → Prop} {s : State} {before after : List Action}
    (h : Always step P s (before ++ after)) : P (before.foldl step s) := by
  induction before generalizing s with
  | nil => exact h.start
  | cons first rest ih => exact ih h.2

theorem EveryStep.here {ok : State → Action → Prop} {s : State} {before after : List Action}
    {a : Action} (h : EveryStep step ok s (before ++ a :: after)) :
    ok (before.foldl step s) a := by
  induction before generalizing s with
  | nil => exact h.1
  | cons first rest ih => exact ih h.2

theorem everyStep_append_iff {ok : State → Action → Prop} {s : State}
    (before after : List Action) :
    EveryStep step ok s (before ++ after) ↔
      EveryStep step ok s before ∧ EveryStep step ok (before.foldl step s) after := by
  induction before generalizing s with
  | nil => exact ⟨fun h => ⟨trivial, h⟩, And.right⟩
  | cons a rest ih => rw [List.cons_append, EveryStep, EveryStep, ih, and_assoc, List.foldl_cons]

/-- Actions that are allowed in any state make a run of allowed steps. -/
theorem everyStep_of_forall {ok : State → Action → Prop} {s : State} {actions : List Action}
    (h : ∀ a ∈ actions, ∀ s, ok s a) : EveryStep step ok s actions := by
  induction actions generalizing s with
  | nil => trivial
  | cons a rest ih =>
    exact ⟨h a List.mem_cons_self s, ih fun b hb => h b (List.mem_cons_of_mem a hb)⟩

/-- What every step keeps holds at the end of a run. -/
theorem foldl_keeps {I : State → Prop} (keep : ∀ s a, I s → I (step s a)) {s : State}
    (hs : I s) (actions : List Action) : I (actions.foldl step s) := by
  induction actions generalizing s with
  | nil => exact hs
  | cons a rest ih => exact ih (keep s a hs)

/-- An invariant that allowed steps keep holds throughout a run of allowed
steps. -/
theorem always_of_everyStep {inv : State → Prop} {ok : State → Action → Prop}
    (keep : ∀ s a, inv s → ok s a → inv (step s a)) {s : State} {actions : List Action}
    (hs : inv s) (hok : EveryStep step ok s actions) : Always step inv s actions := by
  induction actions generalizing s with
  | nil => exact hs
  | cons a rest ih => exact ⟨hs, ih (keep s a hs hok.1) hok.2⟩

/-- What holds throughout a run allows its steps. -/
theorem Always.everyStep {P : State → Prop} {ok : State → Action → Prop} {s : State}
    {actions : List Action} (h : Always step P s actions) (hok : ∀ s a, P s → ok s a) :
    EveryStep step ok s actions := by
  induction actions generalizing s with
  | nil => trivial
  | cons a rest ih => exact ⟨hok s a h.1, ih h.2⟩

/-- When a step that is not allowed breaks `P`, a run keeps `P` exactly when
all its steps are allowed. `legal` is what is asked of every action alike. -/
theorem always_iff_everyStep (inv : State → Prop) {P : State → Prop} {ok : State → Action → Prop}
    {legal : Action → Prop}
    (keep : ∀ s a, inv s → legal a → ok s a → inv (step s a))
    (holds : ∀ s, inv s → P s)
    (breaks : ∀ s a, inv s → legal a → ¬ ok s a → ¬ P (step s a))
    {s : State} {actions : List Action} (hs : inv s) (hlegal : ∀ a ∈ actions, legal a) :
    Always step P s actions ↔ EveryStep step ok s actions := by
  induction actions generalizing s with
  | nil => exact ⟨fun _ => trivial, fun _ => holds s hs⟩
  | cons a rest ih =>
    have ha : legal a := hlegal a (by simp)
    have hrest : ∀ b ∈ rest, legal b := fun b hb => hlegal b (by simp [hb])
    constructor
    · rintro ⟨_, hP⟩
      have hok : ok s a :=
        Classical.byContradiction fun hnot => breaks s a hs ha hnot hP.start
      exact ⟨hok, (ih (keep s a hs ha hok) hrest).mp hP⟩
    · rintro ⟨hok, hsteps⟩
      exact ⟨holds s hs, (ih (keep s a hs ha hok) hrest).mpr hsteps⟩

/-- What holds at the end held all along, or came to hold with some step and
held from then on. -/
theorem always_or_last_change (step : State → Action → State) (P : State → Prop) {s : State}
    {actions : List Action}
    (hend : P (actions.foldl step s)) :
    Always step P s actions ∨
      ∃ before a after, actions = before ++ a :: after ∧ ¬ P (before.foldl step s) ∧
        Always step P (step (before.foldl step s) a) after := by
  induction actions generalizing s with
  | nil => exact Or.inl hend
  | cons a rest ih =>
    rcases ih hend with halways | ⟨before, b, after, rfl, hnot, hheld⟩
    · rcases Classical.em (P s) with hnow | hnow
      · exact Or.inl ⟨hnow, halways⟩
      · exact Or.inr ⟨[], a, rest, rfl, hnow, halways⟩
    · exact Or.inr ⟨a :: before, b, after, rfl, hnot, hheld⟩

end Runs
