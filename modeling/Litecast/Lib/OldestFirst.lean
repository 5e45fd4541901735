import Mathlib.Algebra.BigOperators.Group.List.Basic
import Mathlib.Algebra.Ring.Nat

/-! Discarding from the front of a queue while more is held than allowed. -/

namespace OldestFirst

variable {Entry : Type} (weight : Entry → Nat) (keep : Entry → Bool)

/-- How many entries go while something is in excess and the first may go. -/
def count : Int → List Entry → Nat
  | _, [] => 0
  | excess, e :: rest =>
    if 0 < excess ∧ keep e = false then count (excess - weight e) rest + 1 else 0

/-- What the first `k` entries weigh. -/
def weightOf (k : Nat) (entries : List Entry) : Nat := ((entries.take k).map weight).sum

theorem weightOf_zero (entries : List Entry) : weightOf weight 0 entries = 0 := by
  simp [weightOf]

theorem weightOf_succ (k : Nat) (e : Entry) (rest : List Entry) :
    weightOf weight (k + 1) (e :: rest) = weight e + weightOf weight k rest := by
  simp [weightOf]

variable {weight keep}

/-- None of them could have been spared: without it something was in excess. -/
theorem excess_of_lt_count {k : Nat} {excess : Int} {entries : List Entry}
    (h : k < count weight keep excess entries) : 0 < excess - weightOf weight k entries := by
  induction entries generalizing excess k with
  | nil => cases h
  | cons e rest ih =>
    rw [count] at h
    split at h
    · next hgo =>
      cases k with
      | zero =>
        rw [weightOf_zero]
        omega
      | succ k =>
        have hlater := ih (Nat.lt_of_succ_lt_succ h)
        rw [weightOf_succ]
        omega
    · cases h

/-- None of them is kept on purpose. -/
theorem not_keep_of_mem_take {excess : Int} {entries : List Entry} {e : Entry}
    (h : e ∈ entries.take (count weight keep excess entries)) : keep e = false := by
  induction entries generalizing excess with
  | nil => simp at h
  | cons first rest ih =>
    rw [count] at h
    split at h
    · next hgo =>
      rw [List.take_succ_cons, List.mem_cons] at h
      rcases h with rfl | hrest
      · exact hgo.2
      · exact ih hrest
    · simp at h

variable (weight keep) in
/-- Then nothing is in excess, nothing is left, or the next is to be kept. -/
theorem stopped (excess : Int) (entries : List Entry) :
    excess ≤ weightOf weight (count weight keep excess entries) entries ∨
      ∀ e ∈ (entries.drop (count weight keep excess entries)).head?, keep e = true := by
  induction entries generalizing excess with
  | nil => exact Or.inr (by simp)
  | cons e rest ih =>
    rw [count]
    by_cases hgo : 0 < excess ∧ keep e = false
    · rw [if_pos hgo, weightOf_succ, List.drop_succ_cons]
      refine (ih (excess - weight e)).imp (fun h => ?_) id
      omega
    · rw [if_neg hgo, weightOf_zero]
      by_cases hexcess : 0 < excess
      · refine Or.inr fun first hfirst => ?_
        obtain rfl : e = first := by simpa using hfirst
        simpa [hexcess] using hgo
      · exact Or.inl (by omega)

/-- When even without the entries that may go something is in excess, exactly
those before the first to be kept go. -/
theorem take_count_of_short {excess : Int} {entries : List Entry}
    (h : (((entries.takeWhile fun e => !keep e).map weight).sum : Int) < excess) :
    entries.take (count weight keep excess entries) = entries.takeWhile fun e => !keep e := by
  induction entries generalizing excess with
  | nil => rfl
  | cons e rest ih =>
    rw [count]
    cases hkeep : keep e with
    | true =>
      have hstay : ¬ (0 < excess ∧ true = false) := by simp
      rw [if_neg hstay, List.take_zero, List.takeWhile_cons_of_neg (by simp [hkeep])]
    | false =>
      rw [List.takeWhile_cons_of_pos (by simp [hkeep]), List.map_cons, List.sum_cons] at h
      rw [if_pos ⟨by omega, rfl⟩, List.take_succ_cons, ih (by omega),
        List.takeWhile_cons_of_pos (by simp [hkeep])]

end OldestFirst
