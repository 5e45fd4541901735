import Mathlib.Data.Finset.Card
import Mathlib.Data.Finset.Range
import Mathlib.Data.List.Range

/-! Items that become ready in any order and are taken in the order of their
numbers. -/

structure Frontier (Item : Type) where
  ready : Finset Nat := ∅
  /-- The next number to be taken. -/
  frontier : Nat := 0
  taken : List Item := []

namespace Frontier

variable {Item : Type}

/-- `while frontier in ready`, so many times at most. -/
def drain (item : Nat → Item) : Nat → Frontier Item → Frontier Item
  | 0, s => s
  | fuel + 1, s =>
    if s.frontier ∈ s.ready then
      drain item fuel { ready := s.ready.erase s.frontier, frontier := s.frontier + 1
                        taken := s.taken ++ [item s.frontier] }
    else s

/-- More items are ready, and all that are next are taken. -/
def accept (item : Nat → Item) (s : Frontier Item) (arrived : List Nat) : Frontier Item :=
  let ready := s.ready ∪ arrived.toFinset
  drain item ready.card { s with ready }

/-- Of the numbers `handled` those before the frontier are taken, in order, and
the others are ready. -/
structure Tracks (item : Nat → Item) (handled : Finset Nat) (s : Frontier Item) : Prop where
  mem_iff : ∀ i, i ∈ handled ↔ i < s.frontier ∨ i ∈ s.ready
  ahead : ∀ i ∈ s.ready, s.frontier ≤ i
  taken_eq : s.taken = (List.range s.frontier).map item

theorem tracks_start (item : Nat → Item) : Tracks item ∅ {} where
  mem_iff := by simp
  ahead := by simp
  taken_eq := rfl

theorem Tracks.drain {item : Nat → Item} {handled : Finset Nat} {s : Frontier Item}
    (h : Tracks item handled s) {fuel : Nat} (hfuel : s.ready.card ≤ fuel) :
    Tracks item handled (drain item fuel s) ∧
      (Frontier.drain item fuel s).frontier ∉ (Frontier.drain item fuel s).ready := by
  induction fuel generalizing s with
  | zero =>
    refine ⟨h, ?_⟩
    rw [Frontier.drain, Finset.card_eq_zero.mp (Nat.le_zero.mp hfuel)]
    exact Finset.notMem_empty _
  | succ fuel ih =>
    rw [Frontier.drain]
    split_ifs with hnext
    · apply ih
      · constructor
        · intro i
          rw [h.mem_iff, Finset.mem_erase]
          by_cases hi : i = s.frontier
          · simp [hi, hnext]
          · have hlt : i < s.frontier + 1 ↔ i < s.frontier := by omega
            simp only [hlt, ne_eq, hi, not_false_eq_true, true_and]
        · intro i hi
          obtain ⟨hne, hmem⟩ := Finset.mem_erase.mp hi
          have hle := h.ahead i hmem
          simp only
          omega
        · simp only [h.taken_eq, List.range_succ, List.map_append, List.map_singleton]
      · rw [Finset.card_erase_of_mem hnext]
        omega
    · exact ⟨h, hnext⟩

/-- What is taken stays as it was; other items may still change. -/
theorem Tracks.congr {item later : Nat → Item} {handled : Finset Nat} {s : Frontier Item}
    (h : Tracks item handled s) (hsame : ∀ i ∈ handled, later i = item i) :
    Tracks later handled s := by
  refine ⟨h.mem_iff, h.ahead, ?_⟩
  rw [h.taken_eq]
  apply List.map_congr_left
  intro i hi
  exact (hsame i ((h.mem_iff i).mpr (Or.inl (List.mem_range.mp hi)))).symm

/-- More items are ready. -/
theorem Tracks.arrive {item : Nat → Item} {handled : Finset Nat} {s : Frontier Item}
    (h : Tracks item handled s) {arrived : List Nat} (hnew : ∀ i ∈ arrived, i ∉ handled) :
    Tracks item (handled ∪ arrived.toFinset) { s with ready := s.ready ∪ arrived.toFinset } := by
  constructor
  · intro i
    simp only [Finset.mem_union, h.mem_iff, or_assoc]
  · intro i hi
    rcases Finset.mem_union.mp hi with hold | hlate
    · exact h.ahead i hold
    · by_contra hbehind
      exact hnew i (List.mem_toFinset.mp hlate)
        ((h.mem_iff i).mpr (Or.inl (Nat.not_le.mp hbehind)))
  · exact h.taken_eq

theorem Tracks.accept {item : Nat → Item} {handled : Finset Nat} {s : Frontier Item}
    (h : Tracks item handled s) {arrived : List Nat} (hnew : ∀ i ∈ arrived, i ∉ handled) :
    Tracks item (handled ∪ arrived.toFinset) (accept item s arrived) ∧
      (Frontier.accept item s arrived).frontier ∉ (Frontier.accept item s arrived).ready :=
  (h.arrive hnew).drain le_rfl

/-- **All of them have been taken in order.** -/
theorem Tracks.complete {item : Nat → Item} {n : Nat} {s : Frontier Item}
    (h : Tracks item (Finset.range n) s) (hstuck : s.frontier ∉ s.ready) :
    s.frontier = n ∧ s.ready = ∅ ∧ s.taken = (List.range n).map item := by
  have hle : n ≤ s.frontier := by
    by_contra hlt
    have hmem := (h.mem_iff s.frontier).mp (Finset.mem_range.mpr (Nat.not_le.mp hlt))
    exact hmem.elim (Nat.lt_irrefl _) hstuck
  have hge : s.frontier ≤ n := by
    by_contra hlt
    have hmem := (h.mem_iff n).mpr (Or.inl (Nat.not_le.mp hlt))
    exact Nat.lt_irrefl _ (Finset.mem_range.mp hmem)
  have hn : s.frontier = n := Nat.le_antisymm hge hle
  refine ⟨hn, ?_, hn ▸ h.taken_eq⟩
  rw [Finset.eq_empty_iff_forall_notMem]
  intro i hi
  have hmem := (h.mem_iff i).mpr (Or.inr hi)
  have hahead := h.ahead i hi
  rw [Finset.mem_range] at hmem
  omega

end Frontier
