import Mathlib.Data.List.Infix

/-! Items read off the front of a buffer that grows by chunks. -/

namespace StreamCode

variable {α β ε : Type}

/-- What the front of a buffer holds. A rejection says what it leaves of the
buffer too. -/
inductive Front (α β ε : Type) where
  | incomplete
  | item (x : β) (rest : List α)
  | rejected (e : ε) (rest : List α)

variable (front : List α → Front α β ε)

/-- Take items off until the rest is incomplete. A rejection loses the items
taken off before it. -/
def drain : Nat → List α → Except ε (List β) × List α
  | 0, buffer => (.ok [], buffer)
  | fuel + 1, buffer =>
    match front buffer with
    | .incomplete => (.ok [], buffer)
    | .rejected e rest => (.error e, rest)
    | .item x rest =>
      match drain fuel rest with
      | (.ok xs, left) => (.ok (x :: xs), left)
      | (.error e, left) => (.error e, left)

/-- Each turn takes off at least one element. -/
def feed (buffer chunk : List α) : Except ε (List β) × List α :=
  drain front ((buffer ++ chunk).length + 1) (buffer ++ chunk)

/-- One feed for each chunk, up to the first rejection. -/
def feedAll : List α → List (List α) → Except ε (List β) × List α
  | buffer, [] => (.ok [], buffer)
  | buffer, chunk :: rest =>
    match feed front buffer chunk with
    | (.error e, left) => (.error e, left)
    | (.ok xs, left) =>
      match feedAll left rest with
      | (.error e, left) => (.error e, left)
      | (.ok ys, left) => (.ok (xs ++ ys), left)

/-- `front` recognises the encoding of `x`, whatever follows it, and waits for
the rest of it. -/
structure Reads (encode : β → List α) (x : β) : Prop where
  nonempty : encode x ≠ []
  whole : ∀ rest, front (encode x ++ rest) = .item x rest
  part : ∀ p, p <+: encode x → p.length < (encode x).length → front p = .incomplete

/-- The items whose encodings lie in the first `n` elements of the stream. -/
def arrived (encode : β → List α) : List β → Nat → List β
  | [], _ => []
  | x :: xs, n =>
    if (encode x).length ≤ n then x :: arrived encode xs (n - (encode x).length) else []

variable (encode : β → List α)

/-- `p` starts the stream of `xs` and does not reach the end of its first item. -/
def Stub (xs : List β) (p : List α) : Prop :=
  p <+: xs.flatMap encode ∧ ∀ x ∈ xs.head?, p.length < (encode x).length

theorem arrived_append (xs ys : List β) (n : Nat) :
    arrived encode (xs ++ ys) ((xs.flatMap encode).length + n) = xs ++ arrived encode ys n := by
  induction xs with
  | nil => simp
  | cons x xs ih =>
    have h : (encode x).length ≤ ((x :: xs).flatMap encode).length + n := by
      simp only [List.flatMap_cons, List.length_append]; omega
    have hrest : ((x :: xs).flatMap encode).length + n - (encode x).length
        = (xs.flatMap encode).length + n := by
      simp only [List.flatMap_cons, List.length_append]; omega
    rw [List.cons_append, arrived, if_pos h, hrest, ih, List.cons_append]

variable {encode}

/-- Every item has arrived with the last element. -/
theorem arrived_all (xs : List β) : arrived encode xs (xs.flatMap encode).length = xs := by
  have h := arrived_append encode xs [] 0
  simpa [arrived] using h

theorem Stub.arrived_nil {xs : List β} {p : List α} (h : Stub encode xs p) :
    arrived encode xs p.length = [] := by
  cases xs with
  | nil => rfl
  | cons x xs => rw [arrived, if_neg (Nat.not_le.mpr (h.2 x rfl))]

theorem Stub.nil_of_nil {p : List α} (h : Stub encode [] p) : p = [] :=
  List.prefix_nil.mp (by simpa using h.1)

theorem Stub.prefix_head {x : β} {xs : List β} {p : List α} (h : Stub encode (x :: xs) p) :
    p <+: encode x :=
  List.prefix_of_prefix_length_le h.1 (by simp [List.flatMap_cons]) (Nat.le_of_lt (h.2 x rfl))

/-- A stream cut anywhere is the encodings of whole items and a stub. -/
theorem split_prefix {xs : List β} {p : List α} (h : p <+: xs.flatMap encode) :
    ∃ ys stub, xs = arrived encode xs p.length ++ ys ∧
      p = (arrived encode xs p.length).flatMap encode ++ stub ∧ Stub encode ys stub := by
  induction xs generalizing p with
  | nil => exact ⟨[], p, rfl, by simp [arrived], h, by simp⟩
  | cons x xs ih =>
    by_cases hlen : (encode x).length ≤ p.length
    · obtain ⟨q, rfl⟩ : encode x <+: p :=
        List.prefix_of_prefix_length_le (by simp [List.flatMap_cons]) h hlen
      have hq : q <+: xs.flatMap encode := by
        rw [List.flatMap_cons] at h
        exact (List.prefix_append_right_inj _).mp h
      obtain ⟨ys, stub, hxs, hp, hstub⟩ := ih hq
      have harr : arrived encode (x :: xs) (encode x ++ q).length
          = x :: arrived encode xs q.length := by
        rw [arrived, if_pos hlen, List.length_append, Nat.add_sub_cancel_left]
      refine ⟨ys, stub, ?_, ?_, hstub⟩
      · rw [harr, List.cons_append, ← hxs]
      · rw [harr, List.flatMap_cons, List.append_assoc, ← hp]
    · have harr : arrived encode (x :: xs) p.length = [] := by rw [arrived, if_neg hlen]
      refine ⟨x :: xs, p, by rw [harr]; rfl, by rw [harr]; rfl, h, ?_⟩
      rintro y hy
      obtain rfl : x = y := by simpa using hy
      exact Nat.lt_of_not_le hlen

/-- A stub is shorter than the longest encoding. -/
theorem Stub.length_lt {xs : List β} {p : List α} {bound : Nat} (hpos : 0 < bound)
    (hxs : ∀ x ∈ xs, (encode x).length ≤ bound) (h : Stub encode xs p) : p.length < bound := by
  cases xs with
  | nil => rw [h.nil_of_nil]; exact hpos
  | cons x xs => exact Nat.lt_of_lt_of_le (h.2 x rfl) (hxs x (by simp))

section
variable {front}

theorem Stub.incomplete {xs : List β} {p : List α} (hidle : front [] = .incomplete)
    (hxs : ∀ x ∈ xs, Reads front encode x) (h : Stub encode xs p) : front p = .incomplete := by
  cases xs with
  | nil => rw [h.nil_of_nil]; exact hidle
  | cons x xs => exact (hxs x (by simp)).part p h.prefix_head (h.2 x rfl)

/-- Whole items are taken off one by one, up to what is incomplete. -/
theorem drain_incomplete {tail : List α} (htail : front tail = .incomplete) (xs : List β)
    (hxs : ∀ x ∈ xs, Reads front encode x) (fuel : Nat)
    (hfuel : (xs.flatMap encode ++ tail).length < fuel) :
    drain front fuel (xs.flatMap encode ++ tail) = (.ok xs, tail) := by
  induction xs generalizing fuel with
  | nil =>
    obtain ⟨fuel, rfl⟩ := Nat.exists_eq_succ_of_ne_zero (Nat.ne_of_gt (Nat.zero_lt_of_lt hfuel))
    simp only [List.flatMap_nil, List.nil_append, drain, htail]
  | cons x xs ih =>
    obtain ⟨fuel, rfl⟩ := Nat.exists_eq_succ_of_ne_zero (Nat.ne_of_gt (Nat.zero_lt_of_lt hfuel))
    have hx : Reads front encode x := hxs x (by simp)
    have hpos : 0 < (encode x).length := List.length_pos_iff.mpr hx.nonempty
    have hrest : (xs.flatMap encode ++ tail).length < fuel := by
      simp only [List.flatMap_cons, List.append_assoc, List.length_append] at hfuel ⊢
      omega
    simp only [List.flatMap_cons, List.append_assoc, drain, hx.whole,
      ih (fun y hy => hxs y (by simp [hy])) fuel hrest]

/-- What is rejected takes the items before it along. -/
theorem drain_rejected {tail left : List α} {e : ε} (htail : front tail = .rejected e left)
    (xs : List β) (hxs : ∀ x ∈ xs, Reads front encode x) (fuel : Nat)
    (hfuel : (xs.flatMap encode ++ tail).length < fuel) :
    drain front fuel (xs.flatMap encode ++ tail) = (.error e, left) := by
  induction xs generalizing fuel with
  | nil =>
    obtain ⟨fuel, rfl⟩ := Nat.exists_eq_succ_of_ne_zero (Nat.ne_of_gt (Nat.zero_lt_of_lt hfuel))
    simp only [List.flatMap_nil, List.nil_append, drain, htail]
  | cons x xs ih =>
    obtain ⟨fuel, rfl⟩ := Nat.exists_eq_succ_of_ne_zero (Nat.ne_of_gt (Nat.zero_lt_of_lt hfuel))
    have hx : Reads front encode x := hxs x (by simp)
    have hpos : 0 < (encode x).length := List.length_pos_iff.mpr hx.nonempty
    have hrest : (xs.flatMap encode ++ tail).length < fuel := by
      simp only [List.flatMap_cons, List.append_assoc, List.length_append] at hfuel ⊢
      omega
    simp only [List.flatMap_cons, List.append_assoc, drain, hx.whole,
      ih (fun y hy => hxs y (by simp [hy])) fuel hrest]

/-- An error comes from what stands behind the items taken off. -/
theorem drain_error {good : β → Prop}
    (hitem : ∀ b x rest, front b = .item x rest → good x ∧ b = encode x ++ rest) {fuel : Nat}
    {buffer left : List α} {e : ε} (h : drain front fuel buffer = (.error e, left)) :
    ∃ (xs : List β) (tail : List α), (∀ x ∈ xs, good x) ∧ buffer = xs.flatMap encode ++ tail ∧
      front tail = .rejected e left := by
  induction fuel generalizing buffer with
  | zero => cases h
  | succ fuel ih =>
    rw [drain] at h
    cases hfront : front buffer with
    | incomplete => rw [hfront] at h; cases h
    | rejected e' rest =>
      rw [hfront] at h
      cases h
      exact ⟨[], buffer, by simp, rfl, hfront⟩
    | item x rest =>
      rw [hfront] at h
      simp only at h
      obtain ⟨hgood, rfl⟩ := hitem buffer x rest hfront
      cases hrest : drain front fuel rest with
      | mk result final =>
        rw [hrest] at h
        cases result with
        | ok xs => cases h
        | error e' =>
          cases h
          obtain ⟨xs, tail, hxs, rfl, htail⟩ := ih hrest
          refine ⟨x :: xs, tail, ?_, by simp, htail⟩
          intro y hy
          rcases List.mem_cons.mp hy with rfl | hy
          · exact hgood
          · exact hxs y hy

theorem feedAll_from {xs : List β} {buffer : List α} (hidle : front [] = .incomplete)
    (hxs : ∀ x ∈ xs, Reads front encode x) (chunks : List (List α))
    (hbuffer : Stub encode xs buffer) (hcut : buffer ++ chunks.flatten <+: xs.flatMap encode) :
    ∃ ys left, xs = arrived encode xs (buffer ++ chunks.flatten).length ++ ys ∧
      Stub encode ys left ∧ feedAll front buffer chunks =
        (.ok (arrived encode xs (buffer ++ chunks.flatten).length), left) := by
  induction chunks generalizing xs buffer with
  | nil =>
    refine ⟨xs, buffer, ?_, hbuffer, ?_⟩ <;> simp [hbuffer.arrived_nil, feedAll]
  | cons chunk rest ih =>
    rw [List.flatten_cons, ← List.append_assoc] at hcut ⊢
    obtain ⟨ys, stub, hsplit, hp, hstub⟩ :=
      split_prefix (List.IsPrefix.trans (List.prefix_append _ _) hcut)
    generalize arrived encode xs (buffer ++ chunk).length = done at hsplit hp
    subst hsplit
    have hys : ∀ y ∈ ys, Reads front encode y := fun y hy => hxs y (by simp [hy])
    have hdone : ∀ x ∈ done, Reads front encode x := fun x hx => hxs x (by simp [hx])
    have hfeed : feed front buffer chunk = (.ok done, stub) := by
      rw [feed, hp]
      exact drain_incomplete (hstub.incomplete hidle hys) done hdone _ (Nat.lt_succ_self _)
    have hrest : stub ++ rest.flatten <+: ys.flatMap encode := by
      rw [hp, List.append_assoc, List.flatMap_append] at hcut
      exact (List.prefix_append_right_inj _).mp hcut
    obtain ⟨zs, left, hzs, hleft, hall⟩ := ih hys hstub hrest
    have harr : arrived encode (done ++ ys) (buffer ++ chunk ++ rest.flatten).length
        = done ++ arrived encode ys (stub ++ rest.flatten).length := by
      rw [hp, List.append_assoc, List.length_append, arrived_append]
    refine ⟨zs, left, ?_, hleft, ?_⟩
    · rw [harr, List.append_assoc, ← hzs]
    · simp only [feedAll, hfeed, hall, harr]

/-- **However the stream is cut, what has been delivered after some chunks is
what has arrived in them**, and the buffer is the start of the next item. -/
theorem feedAll_arrived {xs : List β} (hidle : front [] = .incomplete)
    (hxs : ∀ x ∈ xs, Reads front encode x) (chunks : List (List α))
    (hcut : chunks.flatten <+: xs.flatMap encode) :
    ∃ ys left, xs = arrived encode xs chunks.flatten.length ++ ys ∧ Stub encode ys left ∧
      feedAll front [] chunks = (.ok (arrived encode xs chunks.flatten.length), left) := by
  have hempty : Stub encode xs [] := by
    refine ⟨List.nil_prefix, ?_⟩
    intro x hx
    exact List.length_pos_iff.mpr (hxs x (List.mem_of_mem_head? hx)).nonempty
  obtain ⟨ys, left, hsplit, hstub, hall⟩ := feedAll_from hidle hxs chunks hempty hcut
  exact ⟨ys, left, hsplit, hstub, hall⟩

/-- With the whole stream every item is delivered and nothing stays buffered. -/
theorem feedAll_complete {xs : List β} (hidle : front [] = .incomplete)
    (hxs : ∀ x ∈ xs, Reads front encode x) (chunks : List (List α))
    (hcut : chunks.flatten = xs.flatMap encode) : feedAll front [] chunks = (.ok xs, []) := by
  obtain ⟨ys, left, hsplit, hstub, hall⟩ :=
    feedAll_arrived hidle hxs chunks (hcut ▸ List.prefix_refl _)
  rw [hcut, arrived_all] at hsplit hall
  obtain rfl : ys = [] := by simpa using hsplit
  rw [hall, hstub.nil_of_nil]

/-- One item and an empty buffer come out exactly when the item is all of the
chunk. -/
theorem feed_single_iff (hidle : front [] = .incomplete) (b : List α) (x : β) :
    feed front [] b = (.ok [x], []) ↔ front b = .item x [] := by
  constructor
  · intro h
    simp only [feed, List.nil_append, drain] at h
    cases hb : front b with
    | incomplete => simp [hb] at h
    | rejected e rest => simp [hb] at h
    | item y rest =>
      cases hlen : b.length with
      | zero => simpa [hb, hlen, drain] using h
      | succ fuel =>
        cases hrest : front rest with
        | incomplete => simpa [hb, hlen, drain, hrest] using h
        | rejected e left => simp [hb, hlen, drain, hrest] at h
        | item z left =>
          cases hmore : drain front fuel left with
          | mk result final => cases result <;> simp [hb, hlen, drain, hrest, hmore] at h
  · intro h
    cases hlen : b.length <;> simp [feed, drain, h, hlen, hidle]

end

/-! ## Items before a rejection -/

/-- What the feeds return, one after another, also after a rejection. -/
def results : List α → List (List α) → List (Except ε (List β))
  | _, [] => []
  | buffer, chunk :: rest =>
    (feed front buffer chunk).1 :: results (feed front buffer chunk).2 rest

/-- The items in the results. -/
def delivered (rs : List (Except ε (List β))) : List β :=
  rs.flatMap fun r => match r with
    | .ok xs => xs
    | .error _ => []

/-- `bad` is rejected as soon as its first `n` elements are there, and no item
is found in it afterwards. -/
structure Malformed (bad : List α) (n : Nat) : Prop where
  pos : 0 < n
  le : n ≤ bad.length
  waits : ∀ k < n, front (bad.take k) = .incomplete
  rejects : ∀ k, n ≤ k → ∃ e left, front (bad.take k) = .rejected e left ∧
    (left = bad.take k ∨ left = [] ∧ bad.length ≤ k)

section
variable {front} {bad : List α} {n : Nat}

theorem Malformed.idle (hbad : Malformed front bad n) : front [] = .incomplete := hbad.waits 0 hbad.pos

/-- Nothing is delivered once `bad` has been rejected. -/
theorem Malformed.delivered_after (hbad : Malformed front bad n) (chunks : List (List α))
    {left : List α}
    (hleft : (∃ k, n ≤ k ∧ left = bad.take k ∧ left ++ chunks.flatten = bad) ∨
      left = [] ∧ chunks.flatten = []) : delivered (results front left chunks) = [] := by
  induction chunks generalizing left with
  | nil => rfl
  | cons chunk rest ih =>
    rw [List.flatten_cons] at hleft
    rcases hleft with ⟨k, hk, rfl, hall⟩ | ⟨rfl, hempty⟩
    · rw [← List.append_assoc] at hall
      -- the buffer still starts with all that was rejected
      obtain ⟨k', hk', hbuffer⟩ : ∃ k', n ≤ k' ∧ bad.take k ++ chunk = bad.take k' := by
        refine ⟨(bad.take k ++ chunk).length, ?_, ?_⟩
        · have := hbad.le
          rw [List.length_append, List.length_take]
          omega
        · exact List.prefix_iff_eq_take.mp ⟨rest.flatten, hall⟩
      obtain ⟨e, left, hrejected, hleft⟩ := hbad.rejects k' hk'
      have hfeed : feed front (bad.take k) chunk = (.error e, left) := by
        rw [feed, hbuffer, drain, hrejected]
      have hnext : (∃ k, n ≤ k ∧ left = bad.take k ∧ left ++ rest.flatten = bad) ∨
          left = [] ∧ rest.flatten = [] := by
        rcases hleft with rfl | ⟨rfl, hlong⟩
        · exact Or.inl ⟨k', hk', rfl, by rw [← hbuffer, hall]⟩
        · refine Or.inr ⟨rfl, ?_⟩
          rw [hbuffer, List.take_of_length_le hlong] at hall
          simpa using hall
      simp only [results, hfeed]
      exact ih hnext
    · obtain ⟨rfl, hrest⟩ := List.append_eq_nil_iff.mp hempty
      have hfeed : feed front [] [] = (.ok [], []) := by
        rw [feed, List.append_nil, drain, hbad.idle]
      simp only [results, hfeed]
      exact ih (Or.inr ⟨rfl, hrest⟩)

variable (encode) in
/-- The start of a stream of items and `bad`, not yet enough for a turn. -/
def Waiting (xs : List β) (bad : List α) (n : Nat) (buffer : List α) : Prop :=
  (xs ≠ [] ∧ Stub encode xs buffer) ∨ (xs = [] ∧ ∃ k < n, buffer = bad.take k)

theorem Waiting.length_lt {xs : List β} {buffer : List α} (hpos : 0 < n)
    (h : Waiting encode xs bad n buffer) :
    buffer.length < (xs.flatMap encode).length + n ∧
      (xs ≠ [] → buffer.length < (xs.flatMap encode).length) := by
  rcases h with ⟨hne, hstub⟩ | ⟨rfl, k, hk, rfl⟩
  · obtain ⟨x, rest, rfl⟩ := List.exists_cons_of_ne_nil hne
    have hlt : buffer.length < (encode x).length := hstub.2 x rfl
    rw [List.flatMap_cons, List.length_append]
    exact ⟨by omega, fun _ => by omega⟩
  · refine ⟨?_, fun h => absurd rfl h⟩
    rw [List.length_take, List.flatMap_nil, List.length_nil]
    omega

/-- A feed ends inside an item, or behind them all, before the rejection or
with it. -/
theorem Malformed.feed_cases (hbad : Malformed front bad n) {xs : List β} {buffer chunk : List α}
    (hxs : ∀ x ∈ xs, Reads front encode x)
    (hfront : buffer ++ chunk <+: xs.flatMap encode ++ bad) :
    (∃ done ys stub, xs = done ++ ys ∧ ys ≠ [] ∧ Stub encode ys stub ∧
      buffer ++ chunk = done.flatMap encode ++ stub ∧ feed front buffer chunk = (.ok done, stub)) ∨
    ∃ tail, buffer ++ chunk = xs.flatMap encode ++ tail ∧ tail = bad.take tail.length ∧
      ((tail.length < n ∧ feed front buffer chunk = (.ok xs, tail)) ∨
        (n ≤ tail.length ∧ ∃ e left, feed front buffer chunk = (.error e, left) ∧
          (left = tail ∨ left = [] ∧ bad.length ≤ tail.length))) := by
  rcases Nat.lt_or_ge (buffer ++ chunk).length (xs.flatMap encode).length with hshort | hlong
  · left
    obtain ⟨ys, stub, hsplit, hp, hstub⟩ :=
      split_prefix (List.prefix_of_prefix_length_le hfront (List.prefix_append _ _) hshort.le)
    generalize arrived encode xs (buffer ++ chunk).length = done at hsplit hp
    subst hsplit
    have hys : ∀ y ∈ ys, Reads front encode y := fun y hy => hxs y (by simp [hy])
    have hdone : ∀ x ∈ done, Reads front encode x := fun x hx => hxs x (by simp [hx])
    refine ⟨done, ys, stub, rfl, ?_, hstub, hp, ?_⟩
    · rintro rfl
      rw [hp, hstub.nil_of_nil, List.append_nil, List.append_nil] at hshort
      exact Nat.lt_irrefl _ hshort
    · rw [feed, hp]
      exact drain_incomplete (hstub.incomplete hbad.idle hys) done hdone _ (Nat.lt_succ_self _)
  · right
    obtain ⟨tail, htail⟩ : xs.flatMap encode <+: buffer ++ chunk :=
      List.prefix_of_prefix_length_le (List.prefix_append _ _) hfront hlong
    have htake : tail = bad.take tail.length := by
      rw [← htail, List.prefix_append_right_inj] at hfront
      exact List.prefix_iff_eq_take.mp hfront
    refine ⟨tail, htail.symm, htake, ?_⟩
    rw [feed, ← htail]
    rcases Nat.lt_or_ge tail.length n with hbefore | hafter
    · refine Or.inl ⟨hbefore, drain_incomplete ?_ xs hxs _ (Nat.lt_succ_self _)⟩
      rw [htake]
      exact hbad.waits _ hbefore
    · obtain ⟨e, left, hrejected, hleft⟩ := hbad.rejects _ hafter
      rw [← htake] at hrejected hleft
      exact Or.inr ⟨hafter, e, left, drain_rejected hrejected xs hxs _ (Nat.lt_succ_self _), hleft⟩

/-- **All items before `bad` are delivered exactly when some feed ends between
the last of them and the rejection.** -/
theorem Malformed.delivered_from (hbad : Malformed front bad n) (chunks : List (List α))
    {xs : List β} {buffer : List α} (hxs : ∀ x ∈ xs, Reads front encode x)
    (hbuffer : Waiting encode xs bad n buffer)
    (hcut : buffer ++ chunks.flatten = xs.flatMap encode ++ bad) :
    delivered (results front buffer chunks) = xs ↔
      ∃ m, (xs.flatMap encode).length ≤ (buffer ++ (chunks.take m).flatten).length ∧
        (buffer ++ (chunks.take m).flatten).length < (xs.flatMap encode).length + n := by
  induction chunks generalizing xs buffer with
  | nil =>
    have hlt := (hbuffer.length_lt hbad.pos).1
    have hlength := congrArg List.length hcut
    have := hbad.le
    simp only [List.flatten_nil, List.append_nil, List.length_append] at hlength
    omega
  | cons chunk rest ih =>
    rw [List.flatten_cons, ← List.append_assoc] at hcut
    have hsteps (m : Nat) : (buffer ++ ((chunk :: rest).take (m + 1)).flatten).length =
        (buffer ++ chunk).length + (rest.take m).flatten.length := by
      simp only [List.take_succ_cons, List.flatten_cons, List.length_append]
      omega
    obtain ⟨hlt, hsome⟩ := hbuffer.length_lt hbad.pos
    rcases hbad.feed_cases hxs ⟨rest.flatten, hcut⟩ with
      ⟨done, ys, stub, rfl, hne, hstub, hp, hfeed⟩ | ⟨tail, hp, htake, hfed⟩
    · have hrest : stub ++ rest.flatten = ys.flatMap encode ++ bad := by
        rw [hp, List.append_assoc, List.flatMap_append, List.append_assoc] at hcut
        exact List.append_cancel_left hcut
      have hstep := ih (fun y hy => hxs y (by simp [hy])) (Or.inl ⟨hne, hstub⟩) hrest
      have hresult : delivered (results front buffer (chunk :: rest)) =
          done ++ delivered (results front stub rest) := by
        simp only [results, hfeed, delivered, List.flatMap_cons]
      have hlength := congrArg List.length hp
      have hbehind := hsome (by simp [hne])
      rw [hresult, List.append_right_inj, hstep]
      rw [List.flatMap_append, List.length_append] at hbehind ⊢
      simp only [List.length_append] at hlength hsteps ⊢
      constructor
      · rintro ⟨m, hge, hm⟩
        exact ⟨m + 1, by rw [hsteps]; omega⟩
      · rintro ⟨m, hge, hm⟩
        cases m with
        | zero =>
          rw [List.take_zero, List.flatten_nil, List.length_nil] at hge
          omega
        | succ m => exact ⟨m, by rw [hsteps] at hge hm; omega⟩
    · have hbadTail : tail ++ rest.flatten = bad := by
        rw [hp, List.append_assoc] at hcut
        exact List.append_cancel_left hcut
      have hlength := congrArg List.length hp
      have hboth : (buffer ++ chunk).length = (xs.flatMap encode).length + tail.length := by
        rw [hlength, List.length_append]
      rcases hfed with ⟨hbefore, hfeed⟩ | ⟨hafter, e, left, hfeed, hleft⟩
      · have hnone : delivered (results front tail rest) = [] := by
          refine (ih (by simp) (Or.inr ⟨rfl, _, hbefore, htake⟩) hbadTail).mpr ⟨0, ?_⟩
          simpa using hbefore
        refine iff_of_true ?_ ⟨1, ?_⟩
        · simp only [results, hfeed, delivered, List.flatMap_cons]
          rw [← delivered, hnone, List.append_nil]
        · rw [hsteps, List.take_zero, List.flatten_nil, List.length_nil]
          omega
      · have hnone : delivered (results front left rest) = [] := by
          apply hbad.delivered_after rest
          rcases hleft with rfl | ⟨rfl, hall⟩
          · exact Or.inl ⟨_, hafter, htake, hbadTail⟩
          · rw [← hbadTail, List.length_append] at hall
            exact Or.inr ⟨rfl, List.length_eq_zero_iff.mp (by omega)⟩
        have hresult : delivered (results front buffer (chunk :: rest)) = [] := by
          simp only [results, hfeed, delivered, List.flatMap_cons, List.nil_append]
          exact hnone
        rw [hresult]
        constructor
        · rintro rfl
          exact ⟨0, by simp, by simpa using hlt⟩
        · rintro ⟨m, hge, hm⟩
          cases m with
          | zero =>
            simp only [List.take_zero, List.flatten_nil, List.append_nil] at hge
            by_contra hne
            have := hsome fun h => hne h.symm
            omega
          | succ m =>
            rw [hsteps] at hm
            omega

end

end StreamCode
