import Mathlib.Algebra.Order.BigOperators.Group.Finset
import Mathlib.Algebra.Order.Floor.Div
import Mathlib.Data.List.Range
import Mathlib.Tactic.Ring

/-! A sequence cut into pieces of one size, the last one shorter, and put
together again in any order. -/

namespace Pieces

/-- Non-empty intervals that follow each other from `a` to `b`. -/
def Consecutive : Nat → List (Nat × Nat) → Nat → Prop
  | a, [], b => a = b
  | a, (start, stop) :: rest, b => start = a ∧ start < stop ∧ Consecutive stop rest b

/-- Where piece `i` of `n` elements lies. -/
def span (size n i : Nat) : Nat × Nat := (i * size, min ((i + 1) * size) n)

def spans (size n : Nat) : List (Nat × Nat) := (List.range (n ⌈/⌉ size)).map (span size n)

theorem lt_count_iff {size n i : Nat} (hsize : 0 < size) : i < n ⌈/⌉ size ↔ i * size < n := by
  rw [← Nat.not_le, ceilDiv_le_iff_le_mul hsize, Nat.not_le, Nat.mul_comm]

theorem span_nonempty {size n i : Nat} (hsize : 0 < size) (hi : i < n ⌈/⌉ size) :
    (span size n i).1 < (span size n i).2 := by
  have hlt := (lt_count_iff hsize).mp hi
  simp only [span, Nat.add_one_mul]
  omega

/-- A piece starts where the one before it stops. -/
theorem span_stop {size n i : Nat} (hsize : 0 < size) (hi : i + 1 < n ⌈/⌉ size) :
    (span size n i).2 = (span size n (i + 1)).1 :=
  Nat.min_eq_left (Nat.le_of_lt ((lt_count_iff hsize).mp hi))

theorem span_last {size n i : Nat} (hsize : 0 < size) (hi : i + 1 = n ⌈/⌉ size) :
    (span size n i).2 = n :=
  Nat.min_eq_right (by
    have h : ¬ i + 1 < n ⌈/⌉ size := by omega
    rw [lt_count_iff hsize] at h
    omega)

theorem consecutive_from {size n : Nat} (hsize : 0 < size) (m i : Nat)
    (hm : i + m = n ⌈/⌉ size) (hpos : 0 < m) :
    Consecutive (i * size) ((List.range' i m).map (span size n)) n := by
  induction m generalizing i with
  | zero => cases hpos
  | succ m ih =>
    refine ⟨rfl, span_nonempty hsize (by omega), ?_⟩
    cases m with
    | zero => exact span_last hsize hm
    | succ m =>
      have hstop := span_stop (n := n) hsize (i := i) (by omega)
      simp only [span] at hstop
      rw [hstop]
      exact ih (i + 1) (by omega) (by omega)

/-- **The pieces partition the sequence.** -/
theorem consecutive_spans {size : Nat} (hsize : 0 < size) (n : Nat) :
    Consecutive 0 (spans size n) n := by
  rw [spans, List.range_eq_range']
  rcases Nat.eq_zero_or_pos (n ⌈/⌉ size) with hzero | hpos
  · have hn : n = 0 := by
      have h : ¬ 0 < n ⌈/⌉ size := by omega
      rw [lt_count_iff hsize] at h
      omega
    simp [hn, Consecutive]
  · have h := consecutive_from (n := n) hsize (n ⌈/⌉ size) 0 (by omega) hpos
    rwa [Nat.zero_mul] at h

/-- Every position lies in the piece of its quotient and in no other. -/
theorem mem_span_iff {size n i p : Nat} (hsize : 0 < size) (hp : p < n) :
    (span size n i).1 ≤ p ∧ p < (span size n i).2 ↔ i = p / size := by
  simp only [span, lt_min_iff, hp, and_true]
  rw [eq_comm, Nat.div_eq_iff hsize, Nat.add_one_mul]
  omega

theorem div_lt_count {size n p : Nat} (hsize : 0 < size) (hp : p < n) : p / size < n ⌈/⌉ size :=
  (lt_count_iff hsize).mpr (Nat.lt_of_le_of_lt (Nat.div_mul_le_self p size) hp)

/-! ## Writing pieces into a buffer -/

variable {α : Type}

/-- `l[start:stop]` -/
def slice (l : List α) (start stop : Nat) : List α := (l.take stop).drop start

/-- `buffer[offset:offset + len(data)] = data` -/
def write (buffer : List α) (offset : Nat) (data : List α) : List α :=
  buffer.take offset ++ data ++ buffer.drop (offset + data.length)

/-- Piece `i`. -/
def piece (size : Nat) (l : List α) (i : Nat) : List α :=
  slice l (span size l.length i).1 (span size l.length i).2

theorem length_slice {l : List α} {start stop : Nat} (hstop : stop ≤ l.length) :
    (slice l start stop).length = stop - start := by
  simp only [slice, List.length_drop, List.length_take, Nat.min_eq_left hstop]

theorem getElem?_slice (l : List α) (start stop p : Nat) :
    (slice l start stop)[p]? = if start + p < stop then l[start + p]? else none := by
  simp only [slice, List.getElem?_drop, List.getElem?_take]

/-- The end of a piece need not be cut off at the end of the list. -/
theorem piece_eq_slice (size : Nat) (l : List α) (i : Nat) :
    slice l (i * size) ((i + 1) * size) = piece size l i := by
  simp only [piece, span, slice]
  by_cases h : (i + 1) * size ≤ l.length
  · rw [Nat.min_eq_left h]
  · rw [Nat.min_eq_right (by omega), List.take_of_length_le (by omega), List.take_of_length_le le_rfl]

theorem length_piece {size : Nat} (l : List α) (i : Nat) :
    (piece size l i).length = (span size l.length i).2 - (span size l.length i).1 :=
  length_slice (Nat.min_le_right _ _)

theorem piece_zero_of_le {size : Nat} {l : List α} (h : l.length ≤ size) : piece size l 0 = l := by
  simp only [piece, span, slice, Nat.zero_mul, Nat.zero_add, Nat.one_mul, Nat.min_eq_right h,
    List.take_length, List.drop_zero]

/-- Two sizes that give as many pieces give the same only for one piece. -/
theorem pieces_eq_iff {s t : Nat} (hs : 0 < s) (ht : 0 < t) {l : List α}
    (hcount : l.length ⌈/⌉ t = l.length ⌈/⌉ s) :
    (∀ i < l.length ⌈/⌉ s, piece t l i = piece s l i) ↔ l.length ⌈/⌉ s ≤ 1 ∨ t = s := by
  constructor
  · intro h
    by_contra hnot
    rw [not_or, Nat.not_le] at hnot
    have hlt : s < l.length := by simpa using (lt_count_iff hs).mp hnot.1
    have hlt' : t < l.length := by
      have h := hnot.1
      rw [← hcount] at h
      simpa using (lt_count_iff ht).mp h
    have hlength := congrArg List.length (h 0 (by omega))
    simp only [length_piece, span, Nat.zero_mul, Nat.zero_add, Nat.one_mul] at hlength
    omega
  · rintro (hone | rfl) i hi
    · have hle : l.length ≤ s := by simpa using (ceilDiv_le_iff_le_mul hs).mp hone
      have hle' : l.length ≤ t := by
        have h := hone
        rw [← hcount] at h
        simpa using (ceilDiv_le_iff_le_mul ht).mp h
      obtain rfl : i = 0 := by omega
      rw [piece_zero_of_le hle, piece_zero_of_le hle']
    · rfl

/-- The size found from the number of pieces is the size they have when the last
lacks less than one element for each. -/
theorem ceilDiv_count_eq_iff {n s : Nat} (hs : 0 < s) (hn : 0 < n) :
    n ⌈/⌉ (n ⌈/⌉ s) = s ↔ n ⌈/⌉ s * s < n + n ⌈/⌉ s := by
  have hpos : 0 < n ⌈/⌉ s := (lt_count_iff hs).mpr (by simpa using hn)
  have hle : n ≤ s * (n ⌈/⌉ s) := (ceilDiv_le_iff_le_mul hs).mp le_rfl
  generalize n ⌈/⌉ s = c at *
  have hupper : n ⌈/⌉ c ≤ s := (ceilDiv_le_iff_le_mul hpos).mpr (by rwa [Nat.mul_comm])
  have hlower : s - 1 < n ⌈/⌉ c ↔ (s - 1) * c < n := lt_count_iff hpos
  have hmul : (s - 1) * c + c = c * s := by
    rw [← Nat.add_one_mul, Nat.sub_add_cancel hs, Nat.mul_comm]
  omega

/-- And it gives that number of pieces in any case. -/
theorem ceilDiv_count_count {n s : Nat} (hs : 0 < s) (hn : 0 < n) :
    n ⌈/⌉ (n ⌈/⌉ (n ⌈/⌉ s)) = n ⌈/⌉ s := by
  have hcount : 0 < n ⌈/⌉ s := (lt_count_iff hs).mpr (by simpa using hn)
  have hfound : 0 < n ⌈/⌉ (n ⌈/⌉ s) := (lt_count_iff hcount).mpr (by simpa using hn)
  have hle : n ⌈/⌉ (n ⌈/⌉ s) ≤ s := by
    rw [ceilDiv_le_iff_le_mul hcount, Nat.mul_comm, ← ceilDiv_le_iff_le_mul hs]
  apply Nat.le_antisymm
  · rw [ceilDiv_le_iff_le_mul hfound, Nat.mul_comm, ← ceilDiv_le_iff_le_mul hcount]
  · rw [ceilDiv_le_iff_le_mul hs]
    calc n ≤ n ⌈/⌉ (n ⌈/⌉ s) * (n ⌈/⌉ (n ⌈/⌉ (n ⌈/⌉ s))) := (ceilDiv_le_iff_le_mul hfound).mp le_rfl
      _ ≤ s * (n ⌈/⌉ (n ⌈/⌉ (n ⌈/⌉ s))) := Nat.mul_le_mul_right _ hle

theorem length_write {buffer data : List α} {offset : Nat}
    (h : offset + data.length ≤ buffer.length) : (write buffer offset data).length = buffer.length := by
  simp only [write, List.length_append, List.length_take, List.length_drop]
  omega

theorem getElem?_write {buffer data : List α} {offset : Nat}
    (h : offset + data.length ≤ buffer.length) (p : Nat) :
    (write buffer offset data)[p]? =
      if offset ≤ p ∧ p < offset + data.length then data[p - offset]? else buffer[p]? := by
  have htake : (buffer.take offset).length = offset := by
    rw [List.length_take]; omega
  rcases Nat.lt_or_ge p offset with hlt | hge
  · rw [write, List.append_assoc, List.getElem?_append_left (by omega), List.getElem?_take_of_lt hlt,
      if_neg (by omega)]
  · rcases Nat.lt_or_ge p (offset + data.length) with hin | hout
    · rw [write, List.append_assoc, List.getElem?_append_right (by omega), htake,
        List.getElem?_append_left (by omega), if_pos ⟨hge, hin⟩]
    · rw [write, List.getElem?_append_right (by simp [htake]; omega), List.getElem?_drop,
        if_neg (by omega)]
      congr 1
      simp only [List.length_append, htake]
      omega

theorem slice_write_same {buffer data : List α} {offset : Nat}
    (h : offset + data.length ≤ buffer.length) :
    slice (write buffer offset data) offset (offset + data.length) = data := by
  have htake : (buffer.take offset ++ data).length = offset + data.length := by
    rw [List.length_append, List.length_take]
    omega
  rw [slice, write, List.take_left' htake, List.drop_left' (by rw [List.length_take]; omega)]

/-- A write leaves what lies before and after it. -/
theorem slice_write_of_apart {buffer data : List α} {offset start stop : Nat}
    (h : offset + data.length ≤ buffer.length)
    (hapart : stop ≤ offset ∨ offset + data.length ≤ start) :
    slice (write buffer offset data) start stop = slice buffer start stop := by
  apply List.ext_getElem?
  intro p
  rw [getElem?_slice, getElem?_slice, getElem?_write h]
  split_ifs with hp hin
  · omega
  · rfl
  · rfl

/-- Different pieces lie apart. -/
theorem spans_apart {size n i j : Nat} (hne : i ≠ j) :
    (span size n i).2 ≤ (span size n j).1 ∨ (span size n j).2 ≤ (span size n i).1 := by
  rcases Nat.lt_or_gt_of_ne hne with hlt | hgt
  · exact Or.inl (Nat.le_trans (Nat.min_le_left _ _) (Nat.mul_le_mul_right _ hlt))
  · exact Or.inr (Nat.le_trans (Nat.min_le_left _ _) (Nat.mul_le_mul_right _ hgt))

/-- Copy the pieces named by `order` into their places. -/
def writeAll (size : Nat) (l : List α) (order : List Nat) (buffer : List α) : List α :=
  order.foldl (fun buffer i => write buffer (i * size) (piece size l i)) buffer

theorem writeAll_spec {size : Nat} (hsize : 0 < size) {l : List α} {order : List Nat}
    (horder : ∀ i ∈ order, i < l.length ⌈/⌉ size) (buffer : List α)
    (hlen : buffer.length = l.length) :
    (writeAll size l order buffer).length = l.length ∧
      ∀ p < l.length, (writeAll size l order buffer)[p]? =
        if p / size ∈ order then l[p]? else buffer[p]? := by
  induction order generalizing buffer with
  | nil => exact ⟨hlen, fun p _ => by simp [writeAll]⟩
  | cons i order ih =>
    have hi : i < l.length ⌈/⌉ size := horder i (by simp)
    have hspan := span_nonempty hsize hi
    have hend : i * size + (piece size l i).length = (span size l.length i).2 := by
      rw [length_piece]
      simp only [span] at hspan ⊢
      omega
    have hbound : (span size l.length i).2 ≤ l.length := Nat.min_le_right _ _
    have hfits : i * size + (piece size l i).length ≤ buffer.length := by omega
    obtain ⟨hlength, hget⟩ := ih (fun j hj => horder j (by simp [hj]))
      (write buffer (i * size) (piece size l i)) (by rw [length_write hfits, hlen])
    refine ⟨hlength, ?_⟩
    intro p hp
    have hmem : i * size ≤ p ∧ p < (span size l.length i).2 ↔ i = p / size := mem_span_iff hsize hp
    have hwritten : (write buffer (i * size) (piece size l i))[p]? =
        if i = p / size then l[p]? else buffer[p]? := by
      rw [getElem?_write hfits, hend]
      by_cases hpi : i = p / size
      · obtain ⟨hge, hlt⟩ := hmem.mpr hpi
        have hp' : (span size l.length i).1 + (p - i * size) = p := by
          simp only [span] at hge ⊢
          omega
        rw [if_pos ⟨hge, hlt⟩, if_pos hpi, piece, getElem?_slice]
        simp only [hp', hlt, if_true]
      · rw [if_neg (fun h => hpi (hmem.mp h)), if_neg hpi]
    have hstep := hget p hp
    rw [writeAll, List.foldl_cons, ← writeAll, hstep, hwritten]
    simp only [List.mem_cons, eq_comm (a := p / size)]
    split_ifs <;> simp_all

/-- **Copying every piece, in any order, restores the sequence.** -/
theorem writeAll_eq {size : Nat} (hsize : 0 < size) {l : List α} {order : List Nat}
    (horder : ∀ i ∈ order, i < l.length ⌈/⌉ size) (hall : ∀ i < l.length ⌈/⌉ size, i ∈ order)
    {buffer : List α} (hlen : buffer.length = l.length) : writeAll size l order buffer = l := by
  obtain ⟨hlength, hget⟩ := writeAll_spec hsize horder buffer hlen
  apply List.ext_getElem?
  intro p
  rcases Nat.lt_or_ge p l.length with hp | hp
  · rw [hget p hp, if_pos (hall _ (div_lt_count hsize hp))]
  · rw [List.getElem?_eq_none (by omega), List.getElem?_eq_none hp]

theorem Consecutive.le {a b : Nat} {intervals : List (Nat × Nat)}
    (h : Consecutive a intervals b) : a ≤ b := by
  induction intervals generalizing a with
  | nil => exact Nat.le_of_eq h
  | cons s rest ih =>
    obtain ⟨rfl, hlt, hrest⟩ := h
    exact Nat.le_of_lt (Nat.lt_of_lt_of_le hlt (ih hrest))

theorem slice_append {l : List α} {a b c : Nat} (hab : a ≤ b) (hbc : b ≤ c) (hc : c ≤ l.length) :
    slice l a b ++ slice l b c = slice l a c := by
  have hsplit : l.take c = l.take b ++ (l.take c).drop b := by
    rw [← List.take_append_drop b (l.take c), List.take_take, Nat.min_eq_left hbc,
      List.drop_left' (by simp; omega)]
  have hlen : a ≤ (l.take b).length := by rw [List.length_take]; omega
  simp only [slice]
  conv_rhs => rw [hsplit, List.drop_append_of_le_length hlen]

/-- The slices of a partition, in order, make up the sequence. -/
theorem flatten_slices {l : List α} {a b : Nat} {intervals : List (Nat × Nat)}
    (h : Consecutive a intervals b) (hb : b ≤ l.length) :
    (intervals.map fun s => slice l s.1 s.2).flatten = slice l a b := by
  induction intervals generalizing a with
  | nil =>
    obtain rfl : a = b := h
    simp [slice]
  | cons s rest ih =>
    obtain ⟨start, stop⟩ := s
    obtain ⟨rfl, hlt, hrest⟩ := h
    rw [List.map_cons, List.flatten_cons, ih hrest,
      slice_append (Nat.le_of_lt hlt) hrest.le hb]

theorem slice_all (l : List α) : slice l 0 l.length = l := by simp [slice]

theorem sum_length_pieces {size : Nat} (hsize : 0 < size) (l : List α) :
    ((List.range (l.length ⌈/⌉ size)).map fun i => (piece size l i).length).sum = l.length := by
  have hflat := flatten_slices (consecutive_spans hsize l.length) (l := l) le_rfl
  rw [slice_all, spans, List.map_map] at hflat
  conv_rhs => rw [← hflat]
  rw [List.length_flatten, List.map_map]
  rfl

/-- Different pieces are never longer than the sequence. -/
theorem sum_length_pieces_le {size : Nat} (hsize : 0 < size) {l : List α} {indices : List Nat}
    (hnodup : indices.Nodup) (hindices : ∀ i ∈ indices, i < l.length ⌈/⌉ size) :
    (indices.map fun i => (piece size l i).length).sum ≤ l.length := by
  have hsub : indices.toFinset ⊆ (List.range (l.length ⌈/⌉ size)).toFinset := by
    intro i hi
    rw [List.mem_toFinset] at hi ⊢
    exact List.mem_range.mpr (hindices i hi)
  calc (indices.map fun i => (piece size l i).length).sum
    _ = indices.toFinset.sum fun i => (piece size l i).length :=
      (List.sum_toFinset _ hnodup).symm
    _ ≤ (List.range (l.length ⌈/⌉ size)).toFinset.sum fun i => (piece size l i).length :=
      Finset.sum_le_sum_of_subset hsub
    _ = l.length := by rw [List.sum_toFinset _ List.nodup_range, sum_length_pieces hsize]

/-- All of them together are as long. -/
theorem sum_length_all {size : Nat} (hsize : 0 < size) {l : List α} {indices : List Nat}
    (hnodup : indices.Nodup) (hindices : ∀ i, i ∈ indices ↔ i < l.length ⌈/⌉ size) :
    (indices.map fun i => (piece size l i).length).sum = l.length := by
  have hperm : indices.Perm (List.range (l.length ⌈/⌉ size)) := by
    rw [List.perm_ext_iff_of_nodup hnodup List.nodup_range]
    intro i
    rw [hindices, List.mem_range]
  rw [(hperm.map _).sum_eq, sum_length_pieces hsize]

end Pieces
