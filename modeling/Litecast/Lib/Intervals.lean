import Mathlib.Data.List.Chain
import Mathlib.Data.List.Sort

/-! Half-open intervals of numbers, and which of them share a point. -/

namespace Intervals

def Apart (a b : Nat × Nat) : Prop := ∀ p, ¬ (a.1 ≤ p ∧ p < a.2 ∧ b.1 ≤ p ∧ p < b.2)

theorem Apart.symm {a b : Nat × Nat} (h : Apart a b) : Apart b a :=
  fun p ⟨hb, hb', ha, ha'⟩ => h p ⟨ha, ha', hb, hb'⟩

theorem apart_of_le {a b : Nat × Nat} (h : a.2 ≤ b.1) : Apart a b := by
  rintro p ⟨-, ha, hb, -⟩
  omega

/-- Of two intervals that share no point the one that starts first ends first. -/
theorem Apart.le {a b : Nat × Nat} (h : Apart a b) (hb : b.1 < b.2) (hle : a.1 ≤ b.1) :
    a.2 ≤ b.1 := by
  by_contra hlt
  exact h b.1 ⟨hle, by omega, le_refl _, hb⟩

/-! ## In order -/

/-- The order of pairs. -/
def LexLe (a b : Nat × Nat) : Prop := a.1 < b.1 ∨ a.1 = b.1 ∧ a.2 ≤ b.2

instance : DecidableRel LexLe := fun a b => inferInstanceAs (Decidable (a.1 < b.1 ∨ _))

instance : Std.Total LexLe where
  total a b := by
    unfold LexLe
    omega

instance : IsTrans (Nat × Nat) LexLe where
  trans a b c := by
    unfold LexLe
    omega

/-- No interval reaches over the start of the one after it. -/
def neighboursApart (spans : List (Nat × Nat)) : Bool :=
  !(spans.zip spans.tail).any fun (left, right) => right.1 < left.2

/-- Of intervals in the order of their starts it is enough to compare neighbours. -/
theorem pairwise_apart_iff {spans : List (Nat × Nat)} (hne : ∀ a ∈ spans, a.1 < a.2)
    (hsorted : spans.Pairwise fun a b => a.1 ≤ b.1) :
    spans.Pairwise Apart ↔ neighboursApart spans = true := by
  induction spans with
  | nil => exact iff_of_true List.Pairwise.nil rfl
  | cons a rest ih =>
    cases rest with
    | nil => exact iff_of_true (List.pairwise_singleton _ _) rfl
    | cons b rest =>
      obtain ⟨hfirst, hrest⟩ := List.pairwise_cons.mp hsorted
      have hbe := ih (fun c hc => hne c (List.mem_cons_of_mem _ hc)) hrest
      have hsplit : neighboursApart (a :: b :: rest) = true ↔
          a.2 ≤ b.1 ∧ neighboursApart (b :: rest) = true := by
        simp [neighboursApart]
      rw [hsplit, ← hbe, List.pairwise_cons]
      refine and_congr_left fun _ => ⟨fun h => ?_, fun h c hc => ?_⟩
      · exact (h b List.mem_cons_self).le (hne b (by simp)) (hfirst b List.mem_cons_self)
      · -- what comes after `b` starts no earlier
        have hle : b.1 ≤ c.1 := by
          rcases List.mem_cons.mp hc with rfl | hc
          · exact le_refl _
          · exact (List.pairwise_cons.mp hrest).1 c hc
        exact apart_of_le (h.trans hle)

/-- So any intervals share no points when neighbours do not once they are sorted. -/
theorem pairwise_apart_iff_sorted {spans : List (Nat × Nat)} (hne : ∀ a ∈ spans, a.1 < a.2) :
    spans.Pairwise Apart ↔ neighboursApart (spans.insertionSort LexLe) = true := by
  have hperm := List.perm_insertionSort LexLe spans
  have hsorted : (spans.insertionSort LexLe).Pairwise fun a b => a.1 ≤ b.1 := by
    refine (List.pairwise_insertionSort LexLe spans).imp ?_
    rintro a b (hlt | ⟨heq, -⟩)
    · exact hlt.le
    · exact heq.le
  rw [← pairwise_apart_iff (fun a ha => hne a (hperm.subset ha)) hsorted]
  exact (hperm.pairwise_iff fun h => h.symm).symm

end Intervals
