import Mathlib.Data.List.Lex
import Mathlib.Data.Nat.Basic

/-! Lists of equal length in lexicographic order. -/

namespace Lexicographic

/-- What follows lists of equal length leaves their order alone. -/
theorem append_lt {front back : List Nat} : ∀ {xs ys : List Nat}, xs.length = ys.length → xs < ys →
    front ++ xs ++ back < front ++ ys ++ back := by
  have hback : ∀ {xs ys : List Nat}, xs.length = ys.length → xs < ys → xs ++ back < ys ++ back := by
    intro xs
    induction xs with
    | nil =>
      intro ys hlength h
      rw [List.length_eq_zero_iff.mp hlength.symm] at h
      exact absurd h (List.lt_irrefl _)
    | cons x xs ih =>
      intro ys hlength h
      cases ys with
      | nil => cases hlength
      | cons y ys =>
        rw [List.cons_append, List.cons_append, List.cons_lt_cons_iff]
        rcases List.cons_lt_cons_iff.mp h with hlt | ⟨heq, hlt⟩
        · exact Or.inl hlt
        · exact Or.inr ⟨heq, ih (Nat.succ.inj hlength) hlt⟩
  intro xs ys hlength h
  rw [List.append_assoc, List.append_assoc]
  exact List.append_left_lt (hback hlength h)

/-! ## Digits -/

variable {base low : Nat}

/-- Digits in some base, written as the codes from `low` on. -/
def AreDigits (base low : Nat) (codes : List Nat) : Prop := ∀ c ∈ codes, low ≤ c ∧ c < low + base

/-- The number digits are read as, after those read before. -/
def value (base low : Nat) (before : Nat) (codes : List Nat) : Nat :=
  codes.foldl (fun n c => base * n + (c - low)) before

/-- The digits before decide. -/
theorem value_lt_of_before_lt {xs ys : List Nat} (hlength : xs.length = ys.length)
    (hxs : AreDigits base low xs) {m n : Nat} (h : m < n) :
    value base low m xs < value base low n ys := by
  induction xs generalizing ys m n with
  | nil =>
    rw [List.length_eq_zero_iff.mp hlength.symm]
    exact h
  | cons x xs ih =>
    cases ys with
    | nil => cases hlength
    | cons y ys =>
      obtain ⟨hlow, hx⟩ := hxs x List.mem_cons_self
      have hnext : base * m + (x - low) < base * n + (y - low) := by
        have hstep : base * m + base ≤ base * n := by
          rw [← Nat.mul_succ]
          exact Nat.mul_le_mul_left base h
        omega
      exact ih (Nat.succ.inj hlength) (fun c hc => hxs c (List.mem_cons_of_mem _ hc)) hnext

/-- As many digits, lexicographically less, are a smaller number. -/
theorem value_lt_of_lt {xs ys : List Nat} (hlength : xs.length = ys.length)
    (hxs : AreDigits base low xs) (h : xs < ys) (n : Nat) :
    value base low n xs < value base low n ys := by
  induction xs generalizing ys n with
  | nil =>
    rw [List.length_eq_zero_iff.mp hlength.symm] at h
    exact absurd h (List.lt_irrefl _)
  | cons x xs ih =>
    cases ys with
    | nil => cases hlength
    | cons y ys =>
      have hrest : AreDigits base low xs := fun c hc => hxs c (List.mem_cons_of_mem _ hc)
      rcases List.cons_lt_cons_iff.mp h with hlt | ⟨rfl, hlt⟩
      · obtain ⟨hlow, -⟩ := hxs x List.mem_cons_self
        have hnext : base * n + (x - low) < base * n + (y - low) := by omega
        exact value_lt_of_before_lt (Nat.succ.inj hlength) hrest hnext
      · exact ih (Nat.succ.inj hlength) hrest hlt _

theorem lt_of_value_lt {xs ys : List Nat} (hlength : xs.length = ys.length)
    (hys : AreDigits base low ys) {n : Nat} (h : value base low n xs < value base low n ys) :
    xs < ys := by
  rcases lt_trichotomy xs ys with hlt | heq | hgt
  · exact hlt
  · rw [heq] at h
    exact absurd h (Nat.lt_irrefl _)
  · exact absurd (value_lt_of_lt hlength.symm hys hgt n) (Nat.lt_asymm h)

/-- As many digits that are the same number are the same digits. -/
theorem value_injective {xs ys : List Nat} (hlength : xs.length = ys.length)
    (hxs : AreDigits base low xs) (hys : AreDigits base low ys) {n : Nat}
    (h : value base low n xs = value base low n ys) : xs = ys := by
  rcases lt_trichotomy xs ys with hlt | heq | hgt
  · exact absurd h (value_lt_of_lt hlength hxs hlt n).ne
  · exact heq
  · exact absurd h (value_lt_of_lt hlength.symm hys hgt n).ne'

end Lexicographic
