/-! A receiver takes messages one at a time until it has its result, and when it
leaves none of them behind. -/

/-- A receiver has its result, or waits for a message. -/
inductive Receiver (M R : Type) where
  | done (result : R)
  | next (read : M → Receiver M R)

namespace Receiver

variable {M R : Type}

/-- The result, when the messages suffice for one, and the messages left over. -/
def run : Receiver M R → List M → Option R × List M
  | done result, messages => (some result, messages)
  | next _, [] => (none, [])
  | next read, m :: messages => (read m).run messages

/-- A result that is kept comes with the last of the messages. -/
def Exhausts (keep : R → Prop) (receiver : Receiver M R) (messages : List M) : Prop :=
  ∀ result left, receiver.run messages = (some result, left) → keep result → left = []

variable {keep : R → Prop}

theorem exhausts_done_iff {result : R} {messages : List M} :
    Exhausts keep (.done result) messages ↔ (keep result → messages = []) := by
  constructor
  · intro h hkeep
    exact h result messages (by rw [run]) hkeep
  · intro h other left hrun hkeep
    rw [run] at hrun
    obtain ⟨hsame, rfl⟩ := Prod.mk.inj hrun
    exact h (Option.some.inj hsame ▸ hkeep)

theorem exhausts_cons_iff {read : M → Receiver M R} {m : M} {messages : List M} :
    Exhausts keep (.next read) (m :: messages) ↔ Exhausts keep (read m) messages := Iff.rfl

theorem exhausts_nil (receiver : Receiver M R) : Exhausts keep receiver [] := by
  cases receiver with
  | done result => exact exhausts_done_iff.mpr fun _ => rfl
  | next read =>
    intro result left hrun _
    rw [run] at hrun
    cases hrun

/-- A receiver that waits takes at least the next message. -/
theorem exhausts_of_length_le {read : M → Receiver M R} {messages : List M}
    (h : messages.length ≤ 1) : Exhausts keep (.next read) messages := by
  match messages, h with
  | [], _ => exact exhausts_nil _
  | [m], _ => exact exhausts_cons_iff.mpr (exhausts_nil _)

/-- Where the messages break off before their end, at most one more in their
place is taken as well. -/
theorem Exhausts.replace {receiver : Receiver M R} {front back instead : List M}
    (h : Exhausts keep receiver (front ++ back)) (hback : back ≠ []) (hshort : instead.length ≤ 1) :
    Exhausts keep receiver (front ++ instead) := by
  induction front generalizing receiver with
  | nil =>
    cases receiver with
    | done result =>
      refine exhausts_done_iff.mpr fun hkeep => ?_
      exact absurd (exhausts_done_iff.mp h hkeep) hback
    | next read => exact exhausts_of_length_le hshort
  | cons m rest ih =>
    cases receiver with
    | done result =>
      refine exhausts_done_iff.mpr fun hkeep => ?_
      exact absurd (exhausts_done_iff.mp h hkeep) (by simp)
    | next read => exact exhausts_cons_iff.mpr (ih (exhausts_cons_iff.mp h))

/-- One message more is taken as well unless the others give a result that is kept. -/
theorem Exhausts.append_iff {receiver : Receiver M R} {messages : List M}
    (h : Exhausts keep receiver messages) (m : M) :
    Exhausts keep receiver (messages ++ [m]) ↔
      ∀ result left, receiver.run messages = (some result, left) → ¬ keep result := by
  induction messages generalizing receiver with
  | nil =>
    cases receiver with
    | done result =>
      rw [List.nil_append, exhausts_done_iff]
      constructor
      · rintro hdone _ _ ⟨⟩ hkeep
        cases hdone hkeep
      · intro hnot hkeep
        exact absurd hkeep (hnot result [] rfl)
    | next read =>
      refine iff_of_true (exhausts_of_length_le (by simp)) ?_
      rintro _ _ ⟨⟩
  | cons first rest ih =>
    cases receiver with
    | done result =>
      have hnot : ¬ keep result := fun hkeep => nomatch exhausts_done_iff.mp h hkeep
      refine iff_of_true (exhausts_done_iff.mpr fun hkeep => absurd hkeep hnot) ?_
      rintro _ _ ⟨⟩
      exact hnot
    | next read => exact ih (exhausts_cons_iff.mp h)

end Receiver
