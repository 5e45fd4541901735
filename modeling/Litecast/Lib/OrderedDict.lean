import Mathlib.Algebra.BigOperators.Group.List.Basic
import Mathlib.Algebra.Ring.Nat
import Mathlib.Data.List.Nodup
import Mathlib.Data.List.Sort

/-! Dictionaries that remember insertion order. Assigning to a present key
replaces its value in place; assigning to a new key puts it last. -/

structure OrderedDict (K V : Type) where
  entries : List (K × V)
  nodup : (entries.map Prod.fst).Nodup

namespace OrderedDict

variable {K V : Type} [DecidableEq K]

/-! ## The underlying association lists -/

def lookup (k : K) : List (K × V) → Option V
  | [] => none
  | (k', v) :: rest => if k' = k then some v else lookup k rest

def assign (k : K) (v : V) : List (K × V) → List (K × V)
  | [] => [(k, v)]
  | (k', v') :: rest => if k' = k then (k, v) :: rest else (k', v') :: assign k v rest

def delete (k : K) (l : List (K × V)) : List (K × V) := l.filter (fun e => e.1 ≠ k)

def total (f : V → Nat) (l : List (K × V)) : Nat := (l.map (fun e => f e.2)).sum

omit [DecidableEq K] in
@[simp] theorem total_nil (f : V → Nat) : total f ([] : List (K × V)) = 0 := rfl

omit [DecidableEq K] in
@[simp] theorem total_cons (f : V → Nat) (e : K × V) (l : List (K × V)) :
    total f (e :: l) = f e.2 + total f l := by
  simp [total]

omit [DecidableEq K] in
theorem total_append (f : V → Nat) (a b : List (K × V)) :
    total f (a ++ b) = total f a + total f b := by
  simp [total]

theorem lookup_eq_none_iff {k : K} {l : List (K × V)} :
    lookup k l = none ↔ k ∉ l.map Prod.fst := by
  induction l with
  | nil => simp [lookup]
  | cons e rest ih =>
    obtain ⟨k', v⟩ := e
    by_cases h : k' = k
    · simp [lookup, h]
    · simp [lookup, h, ih, Ne.symm h]

theorem mem_of_lookup {k : K} {v : V} {l : List (K × V)} (h : lookup k l = some v) :
    (k, v) ∈ l := by
  induction l with
  | nil => simp [lookup] at h
  | cons e rest ih =>
    obtain ⟨k', v'⟩ := e
    by_cases hk : k' = k
    · simp only [lookup, hk, if_true, Option.some.injEq] at h
      simp [hk, h]
    · simp only [lookup, hk, if_false] at h
      exact List.mem_cons_of_mem _ (ih h)

theorem lookup_of_mem {k : K} {v : V} {l : List (K × V)} (hn : (l.map Prod.fst).Nodup)
    (h : (k, v) ∈ l) : lookup k l = some v := by
  induction l with
  | nil => simp at h
  | cons e rest ih =>
    obtain ⟨k', v'⟩ := e
    simp only [List.map_cons, List.nodup_cons] at hn
    rcases List.mem_cons.mp h with he | hm
    · cases he; simp [lookup]
    · have hne : k' ≠ k := by
        rintro rfl
        exact hn.1 (List.mem_map.mpr ⟨_, hm, rfl⟩)
      simp only [lookup, hne, if_false]
      exact ih hn.2 hm

theorem assign_of_absent {k : K} (v : V) {l : List (K × V)} (h : lookup k l = none) :
    assign k v l = l ++ [(k, v)] := by
  induction l with
  | nil => rfl
  | cons e rest ih =>
    obtain ⟨k', v'⟩ := e
    by_cases hk : k' = k
    · simp [lookup, hk] at h
    · simp only [lookup, hk, if_false] at h
      simp [assign, hk, ih h]

theorem keys_assign_of_present {k : K} {u : V} (v : V) {l : List (K × V)}
    (h : lookup k l = some u) : (assign k v l).map Prod.fst = l.map Prod.fst := by
  induction l with
  | nil => simp [lookup] at h
  | cons e rest ih =>
    obtain ⟨k', v'⟩ := e
    by_cases hk : k' = k
    · simp [assign, hk]
    · simp only [lookup, hk, if_false] at h
      simp [assign, hk, ih h]

theorem assign_of_present {k : K} {u : V} {l : List (K × V)} (h : lookup k l = some u) :
    ∃ a b, l = a ++ (k, u) :: b ∧ ∀ v, assign k v l = a ++ (k, v) :: b := by
  induction l with
  | nil => simp [lookup] at h
  | cons e rest ih =>
    obtain ⟨k', v'⟩ := e
    by_cases hk : k' = k
    · simp only [lookup, hk, if_true, Option.some.injEq] at h
      exact ⟨[], rest, by simp [hk, h], by simp [assign, hk]⟩
    · simp only [lookup, hk, if_false] at h
      obtain ⟨a, b, hl, hassign⟩ := ih h
      exact ⟨(k', v') :: a, b, by simp [hl], by simp [assign, hk, hassign]⟩

theorem total_assign_of_present (f : V → Nat) {k : K} {u : V} (v : V) {l : List (K × V)}
    (h : lookup k l = some u) : total f (assign k v l) + f u = total f l + f v := by
  induction l with
  | nil => simp [lookup] at h
  | cons e rest ih =>
    obtain ⟨k', v'⟩ := e
    by_cases hk : k' = k
    · simp only [lookup, hk, if_true, Option.some.injEq] at h
      simp only [assign, hk, if_true, total_cons, h]
      omega
    · simp only [lookup, hk, if_false] at h
      have := ih h
      simp only [assign, hk, if_false, total_cons]
      omega

theorem lookup_assign (k k' : K) (v : V) (l : List (K × V)) :
    lookup k' (assign k v l) = if k' = k then some v else lookup k' l := by
  induction l with
  | nil => by_cases h : k = k' <;> simp [assign, lookup, h, eq_comm]
  | cons e rest ih =>
    obtain ⟨k₀, v₀⟩ := e
    by_cases h₀ : k₀ = k
    · by_cases h : k' = k
      · simp [assign, lookup, h₀, h]
      · have h1 : k ≠ k' := Ne.symm h
        simp [assign, lookup, h₀, h, h1]
    · by_cases h : k₀ = k'
      · have h1 : k' ≠ k := by rintro rfl; exact h₀ h
        simp [assign, lookup, h, h1]
      · simp [assign, lookup, h₀, h, ih]

theorem lookup_delete (k k' : K) (l : List (K × V)) :
    lookup k' (delete k l) = if k' = k then none else lookup k' l := by
  induction l with
  | nil => simp [delete, lookup]
  | cons e rest ih =>
    obtain ⟨k₀, v₀⟩ := e
    have step : delete k ((k₀, v₀) :: rest) =
        if k₀ = k then delete k rest else (k₀, v₀) :: delete k rest := by
      by_cases h : k₀ = k <;> simp [delete, h]
    rw [step]
    by_cases h₀ : k₀ = k
    · by_cases h : k' = k
      · simpa [h₀, h] using ih
      · have h1 : k ≠ k' := Ne.symm h
        simpa [h₀, h, lookup, h1] using ih
    · by_cases h : k₀ = k'
      · have h1 : k' ≠ k := by rintro rfl; exact h₀ h
        simp [h, lookup, h1]
      · simp [h₀, lookup, h, ih]

theorem delete_of_absent {k : K} {l : List (K × V)} (h : lookup k l = none) :
    delete k l = l := by
  rw [delete, List.filter_eq_self]
  intro e he
  have hk := lookup_eq_none_iff.mp h
  have hne : e.1 ≠ k := by
    rintro rfl
    exact hk (List.mem_map.mpr ⟨e, he, rfl⟩)
  simpa using hne

theorem total_delete (f : V → Nat) {k : K} {u : V} {l : List (K × V)}
    (hn : (l.map Prod.fst).Nodup) (h : lookup k l = some u) :
    total f (delete k l) + f u = total f l := by
  induction l with
  | nil => simp [lookup] at h
  | cons e rest ih =>
    obtain ⟨k', v'⟩ := e
    simp only [List.map_cons, List.nodup_cons] at hn
    by_cases hk : k' = k
    · subst hk
      simp only [lookup, if_true, Option.some.injEq] at h
      have hrest : delete k' rest = rest := delete_of_absent (lookup_eq_none_iff.mpr hn.1)
      have hcons : delete k' ((k', v') :: rest) = rest := by
        simpa [delete] using hrest
      rw [hcons, total_cons, h, Nat.add_comm]
    · simp only [lookup, hk, if_false] at h
      have hcons : delete k ((k', v') :: rest) = (k', v') :: delete k rest := by
        simp [delete, hk]
      have := ih hn.2 h
      simp only [hcons, total_cons]
      omega

/-! ## Dictionaries -/

def empty : OrderedDict K V := ⟨[], by simp⟩

def get? (d : OrderedDict K V) (k : K) : Option V := lookup k d.entries

def contains (d : OrderedDict K V) (k : K) : Bool := (d.get? k).isSome

def keys (d : OrderedDict K V) : List K := d.entries.map Prod.fst

def values (d : OrderedDict K V) : List V := d.entries.map Prod.snd

def length (d : OrderedDict K V) : Nat := d.entries.length

/-- `d[k] = v` -/
def insert (d : OrderedDict K V) (k : K) (v : V) : OrderedDict K V where
  entries := assign k v d.entries
  nodup := by
    cases h : lookup k d.entries with
    | none =>
      have hk := lookup_eq_none_iff.mp h
      rw [assign_of_absent v h, List.map_append]
      refine List.nodup_append.mpr ⟨d.nodup, by simp, ?_⟩
      intro a ha b hb
      simp only [List.map_cons, List.map_nil, List.mem_singleton] at hb
      rintro rfl
      exact hk (hb ▸ ha)
    | some u => rw [keys_assign_of_present v h]; exact d.nodup

/-- `d.pop(k, None)` -/
def erase (d : OrderedDict K V) (k : K) : OrderedDict K V where
  entries := delete k d.entries
  nodup := (List.filter_sublist.map Prod.fst).nodup d.nodup

/-- `d.popitem(last=False)` without its result, and any number of them. -/
def drop (d : OrderedDict K V) (n : Nat) : OrderedDict K V where
  entries := d.entries.drop n
  nodup := ((List.drop_sublist n d.entries).map Prod.fst).nodup d.nodup

/-- The oldest entries. -/
def take (d : OrderedDict K V) (n : Nat) : OrderedDict K V where
  entries := d.entries.take n
  nodup := ((List.take_sublist n d.entries).map Prod.fst).nodup d.nodup

/-- The same entries, sorted by a rank each key has. -/
def sortBy {R : Type} [LinearOrder R] (rank : K → R) (d : OrderedDict K V) : OrderedDict K V where
  entries := d.entries.insertionSort fun a b => rank a.1 ≤ rank b.1
  nodup := ((List.perm_insertionSort _ _).map Prod.fst).nodup_iff.mpr d.nodup

/-- The sum of `f` over the values. -/
def sum (f : V → Nat) (d : OrderedDict K V) : Nat := total f d.entries

omit [DecidableEq K] in
@[ext] theorem ext_entries {d e : OrderedDict K V} (h : d.entries = e.entries) : d = e := by
  cases d; cases e; cases h; rfl

@[simp] theorem get?_empty (k : K) : (empty : OrderedDict K V).get? k = none := rfl

omit [DecidableEq K] in
@[simp] theorem sum_empty (f : V → Nat) : (empty : OrderedDict K V).sum f = 0 := rfl

@[simp] theorem get?_insert (d : OrderedDict K V) (k k' : K) (v : V) :
    (d.insert k v).get? k' = if k' = k then some v else d.get? k' :=
  lookup_assign k k' v d.entries

@[simp] theorem get?_erase (d : OrderedDict K V) (k k' : K) :
    (d.erase k).get? k' = if k' = k then none else d.get? k' :=
  lookup_delete k k' d.entries

/-- Distinct keys assigned one after the other. -/
theorem get?_foldl_insert {items : List (K × V)} (hnodup : (items.map Prod.fst).Nodup)
    (d : OrderedDict K V) (k : K) :
    (items.foldl (fun d e => d.insert e.1 e.2) d).get? k = (lookup k items).or (d.get? k) := by
  induction items generalizing d with
  | nil => rfl
  | cons e rest ih =>
    obtain ⟨k', v⟩ := e
    simp only [List.map_cons, List.nodup_cons] at hnodup
    rw [List.foldl_cons, ih hnodup.2, get?_insert, lookup]
    by_cases hk : k' = k
    · subst hk
      rw [if_pos rfl, if_pos rfl, lookup_eq_none_iff.mpr hnodup.1]
      rfl
    · rw [if_neg hk, if_neg (Ne.symm hk)]

/-- Filling an empty dictionary gives the entries back. -/
theorem entries_foldl_insert {items : List (K × V)} (hnodup : (items.map Prod.fst).Nodup) :
    (items.foldl (fun d e => d.insert e.1 e.2) empty).entries = items := by
  have hfill : ∀ (items : List (K × V)) (d : OrderedDict K V),
      ((d.entries ++ items).map Prod.fst).Nodup →
      (items.foldl (fun d e => d.insert e.1 e.2) d).entries = d.entries ++ items := by
    intro items
    induction items with
    | nil => exact fun d _ => (List.append_nil d.entries).symm
    | cons e rest ih =>
      intro d hd
      have habsent : lookup e.1 d.entries = none := by
        rw [lookup_eq_none_iff]
        intro hmem
        rw [List.map_append, List.nodup_append] at hd
        exact hd.2.2 e.1 hmem e.1 (by simp) rfl
      have hinsert : (d.insert e.1 e.2).entries = d.entries ++ [e] := assign_of_absent e.2 habsent
      rw [List.foldl_cons, ih, hinsert, List.append_assoc, List.singleton_append]
      rwa [hinsert, List.append_assoc, List.singleton_append]
  exact hfill items empty hnodup

theorem get?_foldl_range (f : Nat → V) (d : OrderedDict Nat V) (n k : Nat) :
    ((List.range n).foldl (fun d i => d.insert i (f i)) d).get? k =
      if k < n then some (f k) else d.get? k := by
  induction n with
  | zero => rw [if_neg (Nat.not_lt_zero k), List.range_zero, List.foldl_nil]
  | succ n ih =>
    rw [List.range_succ, List.foldl_append, List.foldl_cons, List.foldl_nil, get?_insert]
    by_cases hlast : k = n
    · rw [if_pos hlast, if_pos (by omega), hlast]
    · rw [if_neg hlast, ih]
      by_cases hlt : k < n
      · rw [if_pos hlt, if_pos (by omega)]
      · rw [if_neg hlt, if_neg (by omega)]

theorem get?_eq_some_iff {d : OrderedDict K V} {k : K} {v : V} :
    d.get? k = some v ↔ (k, v) ∈ d.entries :=
  ⟨mem_of_lookup, lookup_of_mem d.nodup⟩

theorem mem_entries_insert {d : OrderedDict K V} {k : K} {v : V} {e : K × V}
    (h : e ∈ (d.insert k v).entries) : e = (k, v) ∨ e ∈ d.entries := by
  obtain ⟨k', u⟩ := e
  rw [← get?_eq_some_iff, get?_insert] at h
  split_ifs at h with hk
  · exact Or.inl (Prod.ext hk (Option.some.inj h).symm)
  · exact Or.inr (get?_eq_some_iff.mp h)

theorem get?_of_drop {d : OrderedDict K V} {n : Nat} {k : K} {v : V}
    (h : (d.drop n).get? k = some v) : d.get? k = some v :=
  get?_eq_some_iff.mpr (List.mem_of_mem_drop (get?_eq_some_iff.mp h))

theorem get?_sortBy {R : Type} [LinearOrder R] (rank : K → R) (d : OrderedDict K V) (k : K) :
    (d.sortBy rank).get? k = d.get? k := by
  apply Option.ext
  intro v
  rw [get?_eq_some_iff, get?_eq_some_iff, sortBy, List.mem_insertionSort]

theorem get?_foldl_erase_of_mem {keys : List K} {k : K} (h : k ∈ keys) (d : OrderedDict K V) :
    (keys.foldl erase d).get? k = none := by
  have hnone : ∀ (keys : List K) (d : OrderedDict K V), d.get? k = none →
      (keys.foldl erase d).get? k = none := by
    intro keys
    induction keys with
    | nil => exact fun _ hd => hd
    | cons first rest ih =>
      intro d hd
      apply ih
      rw [get?_erase, hd]
      split_ifs <;> rfl
  induction keys generalizing d with
  | nil => cases h
  | cons first rest ih =>
    rcases List.mem_cons.mp h with rfl | hrest
    · exact hnone rest (d.erase k) (by rw [get?_erase, if_pos rfl])
    · exact ih hrest (d.erase first)

theorem get?_foldl_erase_of_not_mem {keys : List K} {k : K} (h : k ∉ keys)
    (d : OrderedDict K V) : (keys.foldl erase d).get? k = d.get? k := by
  induction keys generalizing d with
  | nil => rfl
  | cons first rest ih =>
    rw [List.mem_cons, not_or] at h
    rw [List.foldl_cons, ih h.2, get?_erase, if_neg h.1]

theorem mem_keys_iff {d : OrderedDict K V} {k : K} : k ∈ d.keys ↔ ∃ v, d.get? k = some v := by
  constructor
  · intro h
    obtain ⟨⟨k', v⟩, hm, rfl⟩ := List.mem_map.mp h
    exact ⟨v, get?_eq_some_iff.mpr hm⟩
  · rintro ⟨v, hv⟩
    exact List.mem_map.mpr ⟨(k, v), get?_eq_some_iff.mp hv, rfl⟩

theorem get?_eq_none_iff {d : OrderedDict K V} {k : K} : d.get? k = none ↔ k ∉ d.keys :=
  lookup_eq_none_iff

/-- With the numbers below `n` as its keys, a dictionary has that many. -/
theorem length_of_range {d : OrderedDict Nat V} {n : Nat}
    (h : ∀ k, d.contains k = true ↔ k < n) : d.length = n := by
  have hperm : List.Perm d.keys (List.range n) := by
    apply (List.perm_ext_iff_of_nodup d.nodup List.nodup_range).mpr
    intro k
    change k ∈ d.keys ↔ k ∈ List.range n
    rw [mem_keys_iff, List.mem_range, ← h, contains, Option.isSome_iff_exists]
  have hlength := hperm.length_eq
  rwa [keys, List.length_map, List.length_range] at hlength

theorem entries_insert_of_absent {d : OrderedDict K V} {k : K} (v : V) (h : d.get? k = none) :
    (d.insert k v).entries = d.entries ++ [(k, v)] :=
  assign_of_absent v h

/-- Where a present key stands; assigning to it moves nothing. -/
theorem entries_insert_of_present {d : OrderedDict K V} {k : K} {u : V} (h : d.get? k = some u) :
    ∃ a b, d.entries = a ++ (k, u) :: b ∧ ∀ v, (d.insert k v).entries = a ++ (k, v) :: b :=
  assign_of_present h

theorem insert_same {d : OrderedDict K V} {k : K} {v : V} (h : d.get? k = some v) :
    d.insert k v = d := by
  obtain ⟨a, b, hentries, hinserted⟩ := entries_insert_of_present h
  exact ext_entries ((hinserted v).trans hentries.symm)

theorem sum_insert_of_absent (f : V → Nat) {d : OrderedDict K V} {k : K} (v : V)
    (h : d.get? k = none) : (d.insert k v).sum f = d.sum f + f v := by
  simp [sum, entries_insert_of_absent v h, total_append]

theorem sum_insert_of_present (f : V → Nat) {d : OrderedDict K V} {k : K} {u : V} (v : V)
    (h : d.get? k = some u) : (d.insert k v).sum f + f u = d.sum f + f v :=
  total_assign_of_present f v h

theorem sum_erase (f : V → Nat) {d : OrderedDict K V} {k : K} {u : V} (h : d.get? k = some u) :
    (d.erase k).sum f + f u = d.sum f :=
  total_delete f d.nodup h

/-- What depends on the key alone can be summed over the keys. -/
theorem sum_eq_keys {f : V → Nat} {g : K → Nat} {d : OrderedDict K V}
    (h : ∀ k v, d.get? k = some v → f v = g k) : d.sum f = (d.keys.map g).sum := by
  rw [sum, total, keys, List.map_map]
  refine congrArg List.sum (List.map_congr_left fun e he => ?_)
  exact h e.1 e.2 (get?_eq_some_iff.mpr he)

/-! ## Other values for the same keys -/

section
variable {W : Type} (f : V → W)

def mapValues (d : OrderedDict K V) : OrderedDict K W where
  entries := d.entries.map fun e => (e.1, f e.2)
  nodup := by
    rw [List.map_map]
    exact d.nodup

omit [DecidableEq K] in
@[simp] theorem keys_mapValues (d : OrderedDict K V) : (d.mapValues f).keys = d.keys :=
  List.map_map

omit [DecidableEq K] in
@[simp] theorem length_mapValues (d : OrderedDict K V) : (d.mapValues f).length = d.length :=
  List.length_map _

omit [DecidableEq K] in
theorem mapValues_drop (d : OrderedDict K V) (n : Nat) :
    (d.drop n).mapValues f = (d.mapValues f).drop n :=
  ext_entries List.map_drop

theorem mapValues_insert (d : OrderedDict K V) (k : K) (v : V) :
    (d.insert k v).mapValues f = (d.mapValues f).insert k (f v) := by
  have hassign : ∀ l : List (K × V), (assign k v l).map (fun e => (e.1, f e.2)) =
      assign k (f v) (l.map fun e => (e.1, f e.2)) := by
    intro l
    induction l with
    | nil => rfl
    | cons e rest ih =>
      obtain ⟨k', u⟩ := e
      by_cases hk : k' = k
      · simp [assign, hk]
      · simp [assign, hk, ih]
  exact ext_entries (hassign d.entries)

theorem mapValues_foldl_erase (d : OrderedDict K V) (gone : List K) :
    (gone.foldl erase d).mapValues f = gone.foldl erase (d.mapValues f) := by
  induction gone generalizing d with
  | nil => rfl
  | cons first rest ih =>
    have herase : (d.erase first).mapValues f = (d.mapValues f).erase first := by
      apply ext_entries
      simp [mapValues, erase, delete, List.filter_map, Function.comp_def]
    rw [List.foldl_cons, List.foldl_cons, ih, herase]

theorem get?_mapValues (d : OrderedDict K V) (k : K) : (d.mapValues f).get? k = (d.get? k).map f := by
  have hlookup : ∀ l : List (K × V), lookup k (l.map fun e => (e.1, f e.2)) = (lookup k l).map f := by
    intro l
    induction l with
    | nil => rfl
    | cons e rest ih =>
      obtain ⟨k', u⟩ := e
      by_cases hk : k' = k
      · simp [lookup, hk]
      · simp [lookup, hk, ih]
  exact hlookup d.entries

end

end OrderedDict
