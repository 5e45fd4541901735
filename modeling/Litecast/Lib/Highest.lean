import Litecast.Lib.OrderedDict
import Litecast.Lib.StableSort

/-! Keeping the entries of a dictionary with the highest ranks. -/

namespace OrderedDict

variable {K V R : Type} [DecidableEq K] [LinearOrder R] (rank : K → R)

/-- The `n` entries of the highest ranks, the lowest of them first. -/
def highest (n : Nat) (d : OrderedDict K V) : OrderedDict K V :=
  (d.sortBy rank).drop (d.length - n)

/-- The keys that do not belong to them, the lowest first. -/
def lowest (n : Nat) (d : OrderedDict K V) : List K :=
  (d.sortBy rank).keys.take (d.length - n)

omit [DecidableEq K] in
@[simp] theorem length_sortBy (d : OrderedDict K V) : (d.sortBy rank).length = d.length :=
  List.length_insertionSort _ _

omit [DecidableEq K] in
theorem keys_sortBy_perm (d : OrderedDict K V) : (d.sortBy rank).keys.Perm d.keys :=
  (List.perm_insertionSort _ _).map Prod.fst

omit [DecidableEq K] in
theorem keys_sortBy_pairwise (d : OrderedDict K V) :
    (d.sortBy rank).keys.Pairwise fun a b => rank a ≤ rank b := by
  have : IsTrans (K × V) fun a b => rank a.1 ≤ rank b.1 := ⟨fun _ _ _ => le_trans⟩
  have : Std.Total fun a b : K × V => rank a.1 ≤ rank b.1 := ⟨fun _ _ => le_total _ _⟩
  rw [keys, List.pairwise_map]
  exact List.pairwise_insertionSort _ _

theorem entries_foldl_erase (gone : List K) (d : OrderedDict K V) :
    (gone.foldl erase d).entries = d.entries.filter fun e => e.1 ∉ gone := by
  induction gone generalizing d with
  | nil => simp
  | cons first rest ih =>
    have herase : (d.erase first).entries = d.entries.filter fun e => e.1 ≠ first := rfl
    rw [List.foldl_cons, ih, herase, List.filter_filter]
    refine List.filter_congr fun e _ => ?_
    by_cases hfirst : e.1 = first <;> simp [hfirst]

/-- In a list without repeats, what is not among the first few comes after them. -/
theorem filter_not_mem_take {l : List (K × V)} (h : (l.map Prod.fst).Nodup) (k : Nat) :
    (l.filter fun e => e.1 ∉ (l.map Prod.fst).take k) = l.drop k := by
  induction l generalizing k with
  | nil => simp
  | cons e rest ih =>
    rw [List.map_cons, List.nodup_cons] at h
    cases k with
    | zero => simp
    | succ k =>
      rw [List.map_cons, List.take_succ_cons, List.drop_succ_cons, ← ih h.2 k,
        List.filter_cons_of_neg (by simp)]
      refine List.filter_congr fun e' he' => ?_
      have hne : e'.1 ≠ e.1 := fun heq => h.1 (heq ▸ List.mem_map_of_mem he')
      simp [hne]

/-- Erasing the first few keys leaves the entries after them. -/
theorem foldl_erase_take (d : OrderedDict K V) (k : Nat) : (d.keys.take k).foldl erase d = d.drop k := by
  apply ext_entries
  rw [entries_foldl_erase]
  exact filter_not_mem_take d.nodup k

/-- Erasing the lowest keys and sorting leaves the highest. -/
theorem sortBy_foldl_erase_lowest (n : Nat) (d : OrderedDict K V) :
    ((lowest rank n d).foldl erase d).sortBy rank = highest rank n d := by
  have : IsTrans (K × V) fun a b => rank a.1 ≤ rank b.1 := ⟨fun _ _ _ => le_trans⟩
  have : Std.Total fun a b : K × V => rank a.1 ≤ rank b.1 := ⟨fun _ _ => le_total _ _⟩
  apply ext_entries
  calc ((lowest rank n d).foldl erase d).entries.insertionSort (fun a b => rank a.1 ≤ rank b.1)
      = (d.sortBy rank).entries.filter fun e => e.1 ∉ lowest rank n d := by
        rw [entries_foldl_erase, ← StableSort.filter_insertionSort]
        rfl
    _ = (d.sortBy rank).entries.drop (d.length - n) :=
        filter_not_mem_take (d.sortBy rank).nodup _

omit [DecidableEq K] in
theorem lowest_append_keys_highest (n : Nat) (d : OrderedDict K V) :
    lowest rank n d ++ (highest rank n d).keys = (d.sortBy rank).keys := by
  have hdrop : (highest rank n d).keys = (d.sortBy rank).keys.drop (d.length - n) := List.map_drop
  rw [lowest, hdrop, List.take_append_drop]

omit [DecidableEq K] in
theorem length_highest (n : Nat) (d : OrderedDict K V) :
    (highest rank n d).length = min n d.length := by
  have hlength : (d.sortBy rank).entries.length = d.length := length_sortBy rank d
  rw [highest, length, drop, List.length_drop, hlength]
  omega

theorem get?_highest {n : Nat} {d : OrderedDict K V} {k : K}
    (h : k ∈ (highest rank n d).keys) : (highest rank n d).get? k = d.get? k := by
  obtain ⟨v, hv⟩ := mem_keys_iff.mp h
  rw [hv, ← get?_sortBy rank d k, get?_of_drop hv]

end OrderedDict
