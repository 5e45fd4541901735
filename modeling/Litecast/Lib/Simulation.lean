/-! Machines that return something at every step, and one that behaves like
another. -/

namespace Simulation

variable {State State' Action Out : Type}

/-- What the steps return one after the other, and the state they end in. -/
def run (step : State → Action → Out × State) : State → List Action → List Out × State
  | s, [] => ([], s)
  | s, a :: rest =>
    let (out, next) := step s a
    let (outs, last) := run step next rest
    (out :: outs, last)

/-- A relation that every step keeps, with both machines returning the same,
is kept by every run. `legal` is what is asked of every action alike. -/
theorem run_simulates {step : State → Action → Out × State}
    {step' : State' → Action → Out × State'} {R : State → State' → Prop} {legal : Action → Prop}
    (keep : ∀ s s' a, R s s' → legal a →
      (step s a).1 = (step' s' a).1 ∧ R (step s a).2 (step' s' a).2)
    {s : State} {s' : State'} (h : R s s') {actions : List Action}
    (hlegal : ∀ a ∈ actions, legal a) :
    (run step s actions).1 = (run step' s' actions).1 ∧
      R (run step s actions).2 (run step' s' actions).2 := by
  induction actions generalizing s s' with
  | nil => exact ⟨rfl, h⟩
  | cons a rest ih =>
    obtain ⟨hout, hnext⟩ := keep s s' a h (hlegal a List.mem_cons_self)
    obtain ⟨houts, hlast⟩ := ih hnext fun b hb => hlegal b (List.mem_cons_of_mem a hb)
    exact ⟨by simp only [run, hout, houts], hlast⟩

end Simulation
