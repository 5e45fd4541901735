import Mathlib.Data.Finset.Card

/-! The first item of each key, in the order of a list. -/

namespace FirstOfEach

variable {Item Key : Type} [DecidableEq Key] (key : Item → Key)

/-- The first item of each key not in `seen`. -/
def pick : List Key → List Item → List Item
  | _, [] => []
  | seen, x :: rest => if key x ∈ seen then pick seen rest else x :: pick (key x :: seen) rest

theorem pick_sublist (seen : List Key) (items : List Item) : (pick key seen items).Sublist items := by
  induction items generalizing seen with
  | nil => exact List.Sublist.refl _
  | cons x rest ih =>
    rw [pick]
    split_ifs
    · exact (ih seen).cons x
    · exact (ih (key x :: seen)).cons_cons x

variable {key}

theorem mem_keys_iff {seen : List Key} {items : List Item} {k : Key} :
    k ∈ (pick key seen items).map key ↔ k ∈ items.map key ∧ k ∉ seen := by
  induction items generalizing seen with
  | nil => simp [pick]
  | cons x rest ih =>
    rw [pick]
    split_ifs with hseen
    · rw [ih, List.map_cons, List.mem_cons]
      constructor
      · exact fun h => ⟨Or.inr h.1, h.2⟩
      · rintro ⟨rfl | hrest, hnot⟩
        · exact absurd hseen hnot
        · exact ⟨hrest, hnot⟩
    · rw [List.map_cons, List.map_cons, List.mem_cons, List.mem_cons, ih, List.mem_cons]
      by_cases hfirst : k = key x
      · subst hfirst
        simp [hseen]
      · simp [hfirst]

theorem nodup_keys (seen : List Key) (items : List Item) :
    ((pick key seen items).map key).Nodup := by
  induction items generalizing seen with
  | nil => exact List.nodup_nil
  | cons x rest ih =>
    rw [pick]
    split_ifs
    · exact ih seen
    · rw [List.map_cons, List.nodup_cons]
      refine ⟨fun hmem => ?_, ih (key x :: seen)⟩
      exact (mem_keys_iff.mp hmem).2 List.mem_cons_self

variable (key) in
/-- The keys that occur. -/
def keys (items : List Item) : Finset Key := (items.map key).toFinset

theorem keys_mono {few many : List Item} (h : few ⊆ many) : keys key few ⊆ keys key many := by
  intro k hk
  rw [keys, List.mem_toFinset] at hk ⊢
  exact List.map_subset key h hk

theorem keys_congr {a b : List Item} (h : ∀ x, x ∈ a ↔ x ∈ b) : keys key a = keys key b :=
  Finset.Subset.antisymm (keys_mono fun x => (h x).mp) (keys_mono fun x => (h x).mpr)

theorem keys_pick (items : List Item) : keys key (pick key [] items) = keys key items := by
  ext k
  rw [keys, keys, List.mem_toFinset, List.mem_toFinset, mem_keys_iff]
  simp

theorem card_keys_pick (items : List Item) :
    (keys key (pick key [] items)).card = (pick key [] items).length := by
  rw [keys, List.toFinset_card_of_nodup (nodup_keys [] items), List.length_map]

/-- As many keys as there are places, or all of them. -/
theorem card_keys_take (count : Nat) (items : List Item) :
    (keys key ((pick key [] items).take count)).card = min count (keys key items).card := by
  have hnodup : (((pick key [] items).take count).map key).Nodup := by
    rw [List.map_take]
    exact (List.take_sublist _ _).nodup (nodup_keys [] items)
  have hall : (keys key items).card = (pick key [] items).length := by
    rw [← keys_pick, card_keys_pick]
  rw [hall, keys, List.toFinset_card_of_nodup hnodup, List.length_map, List.length_take]

/-- All keys, if there are places for all. -/
theorem card_keys_all {count : Nat} {items chosen : List Item}
    (hcount : (pick key [] items).length ≤ count) (hpicked : pick key [] items ⊆ chosen)
    (hchosen : chosen ⊆ items) : (keys key chosen).card = min count (keys key items).card := by
  have hsame : keys key chosen = keys key items := by
    apply Finset.Subset.antisymm (keys_mono hchosen)
    rw [← keys_pick]
    exact keys_mono hpicked
  rw [hsame, ← keys_pick, card_keys_pick, Nat.min_eq_right hcount]

/-! ## The first of each key before the others -/

section
variable (key)

/-- What `pick` passes over. -/
def others : List Key → List Item → List Item
  | _, [] => []
  | seen, x :: rest => if key x ∈ seen then x :: others seen rest else others (key x :: seen) rest

/-- The first item of each key, then the others. -/
def arrange (items : List Item) : List Item := pick key [] items ++ others key [] items

/-- The keys seen after some items. -/
def seenAfter : List Key → List Item → List Key
  | seen, [] => seen
  | seen, x :: rest => seenAfter (if key x ∈ seen then seen else key x :: seen) rest

theorem pick_append (seen : List Key) (a b : List Item) :
    pick key seen (a ++ b) = pick key seen a ++ pick key (seenAfter key seen a) b := by
  induction a generalizing seen with
  | nil => rfl
  | cons x rest ih =>
    rw [List.cons_append, pick, pick, seenAfter]
    split_ifs
    · exact ih seen
    · rw [ih, List.cons_append]

theorem others_append (seen : List Key) (a b : List Item) :
    others key seen (a ++ b) = others key seen a ++ others key (seenAfter key seen a) b := by
  induction a generalizing seen with
  | nil => rfl
  | cons x rest ih =>
    rw [List.cons_append, others, others, seenAfter]
    split_ifs
    · rw [ih, List.cons_append]
    · exact ih (key x :: seen)

theorem length_pick_add_others (seen : List Key) (items : List Item) :
    (pick key seen items).length + (others key seen items).length = items.length := by
  induction items generalizing seen with
  | nil => rfl
  | cons x rest ih =>
    rw [pick, others]
    split_ifs
    · rw [List.length_cons, List.length_cons, ← ih seen, Nat.add_assoc]
    · rw [List.length_cons, List.length_cons, ← ih (key x :: seen), Nat.add_right_comm]

theorem length_arrange (items : List Item) : (arrange key items).length = items.length := by
  rw [arrange, List.length_append, length_pick_add_others]

/-- Only which keys have been seen counts. -/
theorem pick_congr {seen seen' : List Key} (h : ∀ k, k ∈ seen ↔ k ∈ seen') (items : List Item) :
    pick key seen items = pick key seen' items ∧ others key seen items = others key seen' items := by
  induction items generalizing seen seen' with
  | nil => exact ⟨rfl, rfl⟩
  | cons x rest ih =>
    have hcons : ∀ k, k ∈ key x :: seen ↔ k ∈ key x :: seen' := fun k => by
      rw [List.mem_cons, List.mem_cons, h]
    simp only [pick, others, h (key x), (ih h).1, (ih h).2, (ih hcons).1, (ih hcons).2, and_self]

/-- A key seen before holds back its first item at most. -/
theorem seen_holds_back (seen : List Key) (k : Key) (items : List Item) :
    (pick key seen items = pick key (k :: seen) items ∧
        others key seen items = others key (k :: seen) items) ∨
      ∃ before after first left right,
        pick key seen items = before ++ first :: after ∧
        pick key (k :: seen) items = before ++ after ∧
        others key seen items = left ++ right ∧
        others key (k :: seen) items = left ++ first :: right := by
  induction items generalizing seen with
  | nil => exact Or.inl ⟨rfl, rfl⟩
  | cons x rest ih =>
    by_cases hseen : key x ∈ seen
    · have hboth : key x ∈ k :: seen := List.mem_cons_of_mem k hseen
      simp only [pick, others, if_pos hseen, if_pos hboth]
      rcases ih seen with ⟨hpick, hothers⟩ | ⟨before, after, first, left, right, h1, h2, h3, h4⟩
      · exact Or.inl ⟨hpick, by rw [hothers]⟩
      · exact Or.inr ⟨before, after, first, x :: left, right, h1, h2, by rw [h3]; rfl, by rw [h4]; rfl⟩
    · by_cases hk : key x = k
      · -- the first item of this key
        have hheld : key x ∈ k :: seen := hk ▸ List.mem_cons_self
        subst hk
        simp only [pick, others, if_neg hseen, if_pos hheld]
        exact Or.inr ⟨[], _, x, [], _, rfl, rfl, rfl, rfl⟩
      · have hneither : key x ∉ k :: seen := by
          rw [List.mem_cons, not_or]
          exact ⟨hk, hseen⟩
        have hswap : ∀ other, other ∈ key x :: k :: seen ↔ other ∈ k :: key x :: seen := fun other => by
          simp only [List.mem_cons]
          tauto
        obtain ⟨hpick, hothers⟩ := pick_congr key hswap rest
        simp only [pick, others, if_neg hseen, if_neg hneither, hpick, hothers]
        rcases ih (key x :: seen) with ⟨hp, ho⟩ | ⟨before, after, first, left, right, h1, h2, h3, h4⟩
        · exact Or.inl ⟨by rw [hp], ho⟩
        · exact Or.inr ⟨x :: before, after, first, left, right,
            by rw [h1]; rfl, by rw [h2]; rfl, h3, h4⟩

theorem others_eq_filter [DecidableEq Item] (seen : List Key) {items : List Item}
    (hnodup : items.Nodup) :
    others key seen items = items.filter (· ∉ pick key seen items) := by
  induction items generalizing seen with
  | nil => rfl
  | cons x rest ih =>
    obtain ⟨hx, hrest⟩ := List.nodup_cons.mp hnodup
    rw [others, pick]
    split_ifs
    · have habsent : x ∉ pick key seen rest := fun h => hx ((pick_sublist key seen rest).subset h)
      rw [List.filter_cons_of_pos (by simpa using habsent), ih seen hrest]
    · rw [List.filter_cons_of_neg (by simp), ih (key x :: seen) hrest]
      apply List.filter_congr
      intro other hother
      have hne : other ≠ x := by
        rintro rfl
        exact hx hother
      simp [hne]

end

theorem mem_take_append {o : Item} {p q : List Item} {n : Nat} :
    o ∈ (p ++ q).take n ↔ o ∈ p.take n ∨ o ∈ q.take (n - p.length) := by
  rw [List.take_append, List.mem_append]

/-- Behind an item that goes there is one place less. -/
theorem mem_take_of_removed {x o : Item} {p q : List Item} {n : Nat}
    (h : o ∈ (p ++ x :: q).take n) (hne : o ≠ x) :
    o ∈ p.take n ∨ ∃ j, n - p.length = j + 1 ∧ o ∈ q.take j := by
  rw [mem_take_append] at h
  rcases h with h | h
  · exact Or.inl h
  · cases hj : n - p.length with
    | zero =>
      rw [hj] at h
      exact absurd h (by simp)
    | succ j =>
      rw [hj, List.take_succ_cons, List.mem_cons] at h
      exact Or.inr ⟨j, rfl, h.resolve_left hne⟩

/-- An item pulled forward past others, one place more being taken. -/
theorem mem_take_of_pulled {y o : Item} {b c d : List Item} {j : Nat}
    (h : o ∈ (b ++ (c ++ y :: d)).take j) : o ∈ (b ++ y :: (c ++ d)).take (j + 1) := by
  rw [mem_take_append] at h ⊢
  rcases h with h | h
  · exact Or.inl ((List.take_subset_take_left b (Nat.le_succ j)) h)
  · right
    have hj : 0 < j - b.length := by
      rcases Nat.eq_zero_or_pos (j - b.length) with hzero | hpos
      · rw [hzero] at h
        exact absurd h (by simp)
      · exact hpos
    have hsucc : j + 1 - b.length = (j - b.length) + 1 := by omega
    rw [hsucc, List.take_succ_cons, List.mem_cons, mem_take_append]
    rw [mem_take_append] at h
    rcases h with h | h
    · exact Or.inr (Or.inl h)
    · cases hk : j - b.length - c.length with
      | zero =>
        rw [hk] at h
        exact absurd h (by simp)
      | succ k =>
        rw [hk, List.take_succ_cons, List.mem_cons] at h
        rcases h with rfl | h
        · exact Or.inl rfl
        · exact Or.inr (Or.inr (List.take_subset_take_left d (Nat.le_succ k) h))

theorem length_le_of_notMem_take {x : Item} {p q : List Item} {n : Nat}
    (h : x ∉ (p ++ x :: q).take n) : n ≤ p.length := by
  by_contra hlt
  apply h
  rw [mem_take_append]
  right
  obtain ⟨j, hj⟩ : ∃ j, n - p.length = j + 1 := ⟨n - p.length - 1, by omega⟩
  rw [hj, List.take_succ_cons]
  exact List.mem_cons_self

/-- **When one item goes, the first `n` of the arrangement lose nobody else**,
and are the same if it was not one of them. -/
theorem take_arrange_remove (key : Item → Key) (a : List Item) (x : Item) (b : List Item) (n : Nat) :
    (∀ o ∈ (arrange key (a ++ x :: b)).take n, o ≠ x → o ∈ (arrange key (a ++ b)).take n) ∧
      (x ∉ (arrange key (a ++ x :: b)).take n →
        (arrange key (a ++ b)).take n = (arrange key (a ++ x :: b)).take n) := by
  -- the item goes from one place of the arrangement, and at most one behind it moves up
  have hgone : ∃ p q q', arrange key (a ++ x :: b) = p ++ x :: q ∧ arrange key (a ++ b) = p ++ q' ∧
      ∀ j o, o ∈ q.take j → o ∈ q'.take (j + 1) := by
    have hkept (q : List Item) : ∀ j o, o ∈ q.take j → o ∈ q.take (j + 1) :=
      fun j o h => List.take_subset_take_left q (Nat.le_succ j) h
    simp only [arrange, pick_append, others_append]
    set seen := seenAfter key [] a
    by_cases hseen : key x ∈ seen
    · simp only [pick, others, if_pos hseen]
      exact ⟨pick key [] a ++ pick key seen b ++ others key [] a, others key seen b, _,
        by simp, by simp, hkept _⟩
    · simp only [pick, others, if_neg hseen]
      rcases seen_holds_back key seen (key x) b with
        ⟨hp, ho⟩ | ⟨before, after, first, left, right, h1, h2, h3, h4⟩
      · rw [hp, ho]
        exact ⟨pick key [] a, pick key (key x :: seen) b ++ (others key [] a ++
          others key (key x :: seen) b), _, by simp, by simp, hkept _⟩
      · rw [h1, h2, h3, h4]
        refine ⟨pick key [] a, before ++ (after ++ others key [] a ++ left ++ first :: right),
          before ++ first :: (after ++ others key [] a ++ left ++ right), by simp, by simp, ?_⟩
        exact fun j o h => mem_take_of_pulled h
  obtain ⟨p, q, q', hall, hrest, hfirst⟩ := hgone
  rw [hall, hrest]
  constructor
  · intro o ho hne
    rw [mem_take_append]
    rcases mem_take_of_removed ho hne with h | ⟨j, hj, h⟩
    · exact Or.inl h
    · rw [hj]
      exact Or.inr (hfirst j o h)
  · intro hnot
    have hn := length_le_of_notMem_take hnot
    rw [List.take_append_of_le_length hn, List.take_append_of_le_length hn]

end FirstOfEach
