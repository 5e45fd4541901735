import Litecast.Python

/-! Exceptions a caller is not prepared for. -/

namespace Litecast

variable {caught : ExcClass → Bool} {α β : Type}

/-- `x` raises something other than what is caught. -/
def Uncaught (caught : ExcClass → Bool) (x : Except Exc α) : Prop :=
  ∃ e, x = .error e ∧ caught e.cls = false

@[simp] theorem not_uncaught_ok (a : α) : ¬ Uncaught caught (.ok a : Except Exc α) := by
  rintro ⟨e, h, -⟩
  cases h

@[simp] theorem not_uncaught_pure (a : α) : ¬ Uncaught caught (pure a : Except Exc α) :=
  not_uncaught_ok a

@[simp] theorem uncaught_error (e : Exc) :
    Uncaught caught (.error e : Except Exc α) ↔ caught e.cls = false := by
  constructor
  · rintro ⟨e', h, hcls⟩
    cases h
    exact hcls
  · exact fun h => ⟨e, rfl, h⟩

/-- The first part raises, or it returns and the second does. -/
theorem uncaught_bind {x : Except Exc α} {f : α → Except Exc β} :
    Uncaught caught (x >>= f) ↔ Uncaught caught x ∨ ∃ a, x = .ok a ∧ Uncaught caught (f a) := by
  cases x with
  | error e => simp [bind, Except.bind]
  | ok a => simp [bind, Except.bind]

theorem uncaught_map {x : Except Exc α} {f : α → β} :
    Uncaught caught (x.map f) ↔ Uncaught caught x := by
  cases x <;> simp [Except.map]

/-- One item raises after others that return. -/
theorem uncaught_mapM {f : α → Except Exc β} {xs : List α} :
    Uncaught caught (xs.mapM f) ↔
      ∃ before x after, xs = before ++ x :: after ∧ (∀ y ∈ before, ∃ b, f y = .ok b) ∧
        Uncaught caught (f x) := by
  induction xs with
  | nil => simp
  | cons first rest ih =>
    rw [List.mapM_cons, uncaught_bind]
    simp only [uncaught_bind, ih, not_uncaught_pure, and_false, exists_false, or_false]
    constructor
    · rintro (hfirst | ⟨b, hb, before, x, after, rfl, hall, hx⟩)
      · exact ⟨[], first, rest, rfl, by simp, hfirst⟩
      · refine ⟨first :: before, x, after, rfl, ?_, hx⟩
        intro y hy
        rcases List.mem_cons.mp hy with rfl | hy
        · exact ⟨b, hb⟩
        · exact hall y hy
    · rintro ⟨before, x, after, hsplit, hall, hx⟩
      cases before with
      | nil =>
        obtain ⟨rfl, rfl⟩ := List.cons.inj hsplit
        exact Or.inl hx
      | cons b before =>
        obtain ⟨rfl, rfl⟩ := List.cons.inj hsplit
        obtain ⟨y, hy⟩ := hall first List.mem_cons_self
        exact Or.inr ⟨y, hy, before, x, after, rfl,
          fun z hz => hall z (List.mem_cons_of_mem _ hz), hx⟩

end Litecast
