import Mathlib.Data.List.Sort

/-! Sorting by insertion keeps the order of what it cannot tell apart, so that
members may be left out before or after. -/

namespace StableSort

variable {α : Type} {r : α → α → Prop} [DecidableRel r]

/-- Inserting before a filter, or after it, in a list that is in order. -/
theorem filter_orderedInsert [IsTrans α r] (keep : α → Bool) (a : α) {l : List α}
    (hl : l.Pairwise r) : (l.orderedInsert r a).filter keep =
      if keep a then (l.filter keep).orderedInsert r a else l.filter keep := by
  induction l with
  | nil => by_cases ha : keep a <;> simp [ha]
  | cons b rest ih =>
    rw [List.pairwise_cons] at hl
    rw [List.orderedInsert_cons]
    split_ifs with hab ha ha
    · -- everything that is left is after `a`
      rw [List.filter_cons_of_pos ha]
      cases hrest : (b :: rest).filter keep with
      | nil => rfl
      | cons c kept =>
        have hc : c ∈ b :: rest := List.mem_of_mem_filter (hrest ▸ List.mem_cons_self)
        have hac : r a c := by
          rcases List.mem_cons.mp hc with rfl | hc
          · exact hab
          · exact IsTrans.trans a b c hab (hl.1 c hc)
        rw [List.orderedInsert_cons, if_pos hac]
    · rw [List.filter_cons_of_neg (by simpa using ha)]
    · rw [if_pos ha] at ih
      by_cases hb : keep b
      · rw [List.filter_cons_of_pos hb, List.filter_cons_of_pos hb, ih hl.2,
          List.orderedInsert_cons, if_neg hab]
      · rw [List.filter_cons_of_neg hb, List.filter_cons_of_neg hb, ih hl.2]
    · rw [if_neg ha] at ih
      rw [List.filter_cons, List.filter_cons, ih hl.2]

/-- Sorting is stable, so it does not matter when the others are left out. -/
theorem filter_insertionSort [IsTrans α r] [Std.Total r] (keep : α → Bool) (l : List α) :
    (l.insertionSort r).filter keep = (l.filter keep).insertionSort r := by
  induction l with
  | nil => rfl
  | cons a rest ih =>
    rw [List.insertionSort_cons, filter_orderedInsert keep a (List.pairwise_insertionSort r rest), ih]
    by_cases ha : keep a
    · rw [if_pos ha, List.filter_cons_of_pos ha, List.insertionSort_cons]
    · rw [if_neg ha, List.filter_cons_of_neg ha]

end StableSort
