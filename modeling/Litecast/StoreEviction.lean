import Litecast.StoreShape

/-! Which versions the store gives up for new bytes, and what a refused write
has given up already. -/

namespace Litecast.CheckpointStore

/-- What the versions inserted before `name` hold. -/
def bytesBefore (s : CheckpointStore) (name : Str) : Nat :=
  OrderedDict.total StoredVersion.storedBytes (s.versions.entries.takeWhile fun e => e.1 ≠ name)

/-! ## Fewest and oldest -/

/-- The versions `gone` are the oldest, and fewer would not have made room for
`need` bytes by the store's counter. -/
structure Fewest (s : CheckpointStore) (need : Int) (gone kept : List (Str × StoredVersion)) :
    Prop where
  split : s.versions.entries = gone ++ kept
  needed : ∀ k < gone.length,
    (s.capacity : Int) < s.size - OldestFirst.weightOf (fun e => e.2.storedBytes) k gone + need

theorem fewest_evicted (s : CheckpointStore) (need : Int) (keep : Str → Bool) :
    Fewest s need (s.versions.entries.take (s.evictions need keep))
      (s.versions.entries.drop (s.evictions need keep)) where
  split := (List.take_append_drop _ _).symm
  needed := by
    intro k hk
    rw [List.length_take, Nat.lt_min] at hk
    have hexcess := OldestFirst.excess_of_lt_count hk.1
    have hsame : OldestFirst.weightOf (fun e : Str × StoredVersion => e.2.storedBytes) k
        (s.versions.entries.take (s.evictions need keep)) =
          OldestFirst.weightOf (fun e => e.2.storedBytes) k s.versions.entries := by
      rw [OldestFirst.weightOf, OldestFirst.weightOf, List.take_take, Nat.min_eq_left hk.1.le]
    rw [hsame]
    omega

theorem popped_eq_remove (s : CheckpointStore) (name : Str) : s.popped name = (s.remove name).2 := by
  rw [popped, remove]
  cases s.versions.get? name <;> rfl

theorem storeComplete_entries (s : CheckpointStore) (metadata : VersionMetadata) (retained : Bytes)
    (shardChecksums : List Str) :
    ∃ gone kept, Fewest (s.remove metadata.name).2 retained.length gone kept ∧
      (s.storeComplete metadata retained shardChecksums).versions.entries =
        kept ++ [(metadata.name, { metadata, data := some retained, shardChecksums })] := by
  refine ⟨_, _, fewest_evicted (s.remove metadata.name).2 retained.length fun _ => false, ?_⟩
  have habsent : ((s.popped metadata.name).evict retained.length fun _ => false).versions.get?
      metadata.name = none := by
    rw [Option.eq_none_iff_forall_not_mem]
    intro v hv
    have hpopped := get?_evictOldest hv
    rw [popped_absent] at hpopped
    cases hpopped
  rw [storeComplete_eq, OrderedDict.entries_insert_of_absent _ habsent, evict_eq, popped_eq_remove]
  rfl

/-- The loop of `_put_shard` stops at the version being written. -/
theorem shard_entries {s : CheckpointStore} {name : Str} {v : StoredVersion}
    (hv : s.versions.get? name = some v) (need : Int) :
    ∃ gone front back, Fewest s need gone (front ++ (name, v) :: back) ∧
      (s.evict need fun oldest => oldest = name).versions.entries = front ++ (name, v) :: back ∧
      ∀ w, ((s.evict need fun oldest => oldest = name).versions.insert name w).entries =
        front ++ (name, w) :: back := by
  have hfewest := fewest_evicted s need fun oldest => decide (oldest = name)
  have hkept : (s.evict need fun oldest => decide (oldest = name)).versions.get? name = some v := by
    have hmem := OrderedDict.get?_eq_some_iff.mp hv
    rw [hfewest.split, List.mem_append] at hmem
    rw [evict_eq, OrderedDict.get?_eq_some_iff]
    refine hmem.resolve_left fun htaken => ?_
    have hspared := OldestFirst.not_keep_of_mem_take htaken
    simp at hspared
  obtain ⟨front, back, hentries, hinserted⟩ := OrderedDict.entries_insert_of_present hkept
  refine ⟨s.versions.entries.take (s.evictions need fun oldest => decide (oldest = name)), front,
    back, ?_, hentries, hinserted⟩
  rw [← hentries, evict_eq]
  exact hfewest

/-- The store after a complete version is written: it is the newest, and the
others it displaced, after the one it replaced, are the oldest and fewest. -/
def PutEvicts (s t : CheckpointStore) (metadata : VersionMetadata) (data : Bytes)
    (shardChecksums : List Str) : Prop :=
  ∃ gone kept, Fewest (s.remove metadata.name).2 data.length gone kept ∧
    t.versions.entries = kept ++ [(metadata.name, { metadata, data := some data, shardChecksums })]

/-- The store after a shard is written: its version stands where it stood. -/
def ShardEvicts (s t : CheckpointStore) (name : Str) (index : Int) (data : Bytes) : Prop :=
  ∃ stored gone front back,
    Fewest s (additionalBytes stored index.toNat data) gone (front ++ (name, stored) :: back) ∧
    t.versions.entries =
      front ++ (name, { stored with shards := stored.shards.insert index.toNat data }) :: back

section
variable [Library] {s t : CheckpointStore}

/-- A complete version is refused at once or stored. -/
theorem put_cases (s : CheckpointStore) (name : Str) (data : Bytes) (shardSize : Int)
    (checksum : Option Str) (shardChecksums : List Str) :
    (∃ e, s.put name data shardSize checksum shardChecksums = (.error e, s)) ∨
      ∃ metadata, metadata.name = name ∧ s.put name data shardSize checksum shardChecksums =
        (.ok metadata, s.storeComplete metadata data shardChecksums) := by
  rw [put]
  split
  · exact Or.inl ⟨_, rfl⟩
  split_ifs
  · exact Or.inl ⟨_, rfl⟩
  · exact Or.inl ⟨_, rfl⟩
  · simp only
    split
    · exact Or.inl ⟨_, rfl⟩
    · exact Or.inr ⟨_, rfl, rfl⟩

theorem putVerified_cases (s : CheckpointStore) (name : Str) (data : Bytes) (shardSize : Int)
    (checksum : Str) (shardChecksums : List Str) :
    (∃ e, s.putVerified name data shardSize checksum shardChecksums = (.error e, s)) ∨
      ∃ metadata, metadata.name = name ∧ s.putVerified name data shardSize checksum shardChecksums =
        (.ok metadata, s.storeComplete metadata data shardChecksums) := by
  rw [putVerified]
  split
  · exact Or.inl ⟨_, rfl⟩
  split_ifs
  · exact Or.inl ⟨_, rfl⟩
  · exact Or.inl ⟨_, rfl⟩
  · simp only
    split
    · exact Or.inl ⟨_, rfl⟩
    · exact Or.inr ⟨_, rfl, rfl⟩

theorem putShardCore_ok {name : Str} {index : Int} {data shard : Bytes}
    {verifiedChecksum : Option Str}
    (h : s.putShardCore name index data verifiedChecksum = (.ok shard, t)) :
    ShardEvicts s t name index data := by
  rw [putShardCore] at h
  split at h
  · cases h
  next stored hstored =>
  split at h
  · cases h
  simp only at h
  split_ifs at h
  · cases h
  · obtain ⟨gone, front, back, hfewest, -, hinserted⟩ :=
      shard_entries hstored (additionalBytes stored index.toNat data)
    refine ⟨stored, gone, front, back, hfewest, ?_⟩
    obtain ⟨-, rfl⟩ := Prod.mk.inj h
    exact hinserted _

/-- **A write displaces the oldest versions, and no more of them than the
store's counter says it must.** -/
theorem displaces_oldest_fewest (s t : CheckpointStore) (name : Str) (data : Bytes) :
    (∀ shardSize checksum shardChecksums metadata,
      s.put name data shardSize checksum shardChecksums = (.ok metadata, t) →
        metadata.name = name ∧ PutEvicts s t metadata data shardChecksums) ∧
    (∀ shardSize checksum shardChecksums metadata,
      s.putVerified name data shardSize checksum shardChecksums = (.ok metadata, t) →
        metadata.name = name ∧ PutEvicts s t metadata data shardChecksums) ∧
    (∀ index shard, s.putShard name index data = (.ok shard, t) → ShardEvicts s t name index data) ∧
    (∀ index shard checksum, s.putVerifiedShard name index data checksum = (.ok shard, t) →
      ShardEvicts s t name index data) := by
  refine ⟨?_, ?_, fun index shard h => putShardCore_ok h, fun index shard checksum h =>
    putShardCore_ok h⟩
  · intro shardSize checksum shardChecksums metadata h
    rcases s.put_cases name data shardSize checksum shardChecksums with ⟨e, hput⟩ | ⟨m, hname, hput⟩
    · cases hput.symm.trans h
    · cases hput.symm.trans h
      exact ⟨hname, storeComplete_entries s metadata data shardChecksums⟩
  · intro shardSize checksum shardChecksums metadata h
    rcases s.putVerified_cases name data shardSize checksum shardChecksums with
      ⟨e, hput⟩ | ⟨m, hname, hput⟩
    · cases hput.symm.trans h
    · cases hput.symm.trans h
      exact ⟨hname, storeComplete_entries s metadata data shardChecksums⟩

end

/-- Three versions of one byte each, and one of two bytes written to them. -/
theorem displaces_oldest_fewest_two_of_three :
    letI := asciiLibrary
    let ops : List StoreOp := [.put (str "v1") [1] 1 none [], .put (str "v2") [2] 1 none [],
      .put (str "v3") [3] 1 none []]
    let s := ops.foldl apply (new 3)
    let t := (s.put (str "v4") [4, 5] 2 none []).2
    PutEvicts s t ⟨str "v4", 2, 2, 1, hexdigest [4, 5]⟩ [4, 5] [] ∧
      t.versions.keys = [str "v3", str "v4"] := by
  let _ := asciiLibrary
  intro ops s t
  exact ⟨((displaces_oldest_fewest s t (str "v4") [4, 5]).1 2 none [] _ rfl).2, by decide +kernel⟩

/-! ## What a refused write has given up -/

def error? {α : Type} : Except Exc α → Option Exc
  | .ok _ => none
  | .error e => some e

section
variable [Library]

/-- What the operation raises. -/
def raised? (s : CheckpointStore) : StoreOp → Option Exc
  | .put name data shardSize checksum shardChecksums =>
    error? (s.put name data shardSize checksum shardChecksums).1
  | .putVerified name data shardSize checksum shardChecksums =>
    error? (s.putVerified name data shardSize checksum shardChecksums).1
  | .beginVersion metadata shardChecksums => error? (s.beginVersion metadata shardChecksums).1
  | .putShard name index data => error? (s.putShard name index data).1
  | .putVerifiedShard name index data verifiedChecksum =>
    error? (s.putVerifiedShard name index data verifiedChecksum).1
  | .remove _ => none
  | .clear => none

/-- A shard passes the checks and does not fit even without all the versions
inserted before its own, of which there are some. -/
def SpillsShard (s : CheckpointStore) (name : Str) (index : Int) (data : Bytes)
    (verifiedChecksum : Option Str) : Prop :=
  ∃ stored, s.versions.get? name = some stored ∧
    shardRejection stored index data verifiedChecksum = none ∧
    s.versions.keys.head? ≠ some name ∧
    (s.capacity : Int) < s.size - s.bytesBefore name + additionalBytes stored index.toNat data

def Spills (s : CheckpointStore) : StoreOp → Prop
  | .putShard name index data => s.SpillsShard name index data none
  | .putVerifiedShard name index data verifiedChecksum =>
    s.SpillsShard name index data (some (lower verifiedChecksum))
  | _ => False

variable {s : CheckpointStore}

omit [Library] in
theorem beginVersion_error {metadata : VersionMetadata} {shardChecksums : List Str} {e : Exc}
    (h : (s.beginVersion metadata shardChecksums).1 = .error e) :
    (s.beginVersion metadata shardChecksums).2 = s := by
  rw [beginVersion] at h ⊢
  split
  · rfl
  next hvalid =>
  simp only [hvalid] at h
  split_ifs at h ⊢
  · rfl
  · split
    · next existing hexisting =>
      simp only [hexisting] at h
      split_ifs at h ⊢
      · rfl
    · next habsent =>
      simp only [habsent] at h
      cases h

omit [Library] in
theorem size_of_taken {need : Int} {name : Str}
    (h : s.versions.entries.take (s.evictions need fun oldest => oldest = name) =
      s.versions.entries.takeWhile fun e => e.1 ≠ name) :
    (s.evict need fun oldest => oldest = name).size = s.size - s.bytesBefore name := by
  rw [evict_eq, dropOldest, OldestFirst.weightOf, h]
  rfl

omit [Library] in
theorem evict_capacity (need : Int) (keep : Str → Bool) :
    (s.evict need keep).capacity = s.capacity := by
  rw [evict_eq, dropOldest]

omit [Library] in
/-- If what is left is still too much, all versions before the one being
written are gone. -/
theorem taken_of_full {name : Str} {need : Int}
    (hfull : (s.capacity : Int) < (s.evict need fun oldest => oldest = name).size + need) :
    s.versions.entries.take (s.evictions need fun oldest => oldest = name) =
      s.versions.entries.takeWhile fun e => e.1 ≠ name := by
  have hstopped := s.evictions_stopped need fun oldest => decide (oldest = name)
  have hskip : ∀ e ∈ s.versions.entries.take (s.evictions need fun oldest => decide (oldest = name)),
      decide (e.1 ≠ name) = true := by
    intro e he
    simpa using OldestFirst.not_keep_of_mem_take he
  rw [evict_eq] at hfull
  have hkept := hstopped.resolve_left (by omega)
  have hsplit := List.take_append_drop (s.evictions need fun oldest => decide (oldest = name))
    s.versions.entries
  conv_rhs => rw [← hsplit, List.takeWhile_append_of_pos hskip]
  cases hleft : s.versions.entries.drop (s.evictions need fun oldest => decide (oldest = name)) with
  | nil => simp
  | cons first rest =>
    have hfirst : first.1 = name := by
      have hname := hkept first (by
        rw [dropOldest, OrderedDict.drop]
        simp only [hleft]
        rfl)
      simpa using hname
    rw [List.takeWhile_cons_of_neg (by simp [hfirst]), List.append_nil]

omit [Library] in
theorem full_iff (name : Str) (need : Int) :
    (s.capacity : Int) < (s.evict need fun oldest => oldest = name).size + need ↔
      (s.capacity : Int) < s.size - s.bytesBefore name + need := by
  constructor
  · intro hfull
    rwa [size_of_taken (taken_of_full hfull)] at hfull
  · intro hshort
    have htaken : s.versions.entries.take (s.evictions need fun oldest => decide (oldest = name)) =
        s.versions.entries.takeWhile fun e => e.1 ≠ name := by
      have hsame : (fun e : Str × StoredVersion => decide (e.1 ≠ name)) =
          fun e => !decide (e.1 = name) := by
        funext e
        exact decide_not
      rw [hsame]
      apply OldestFirst.take_count_of_short
      rw [← hsame]
      rw [bytesBefore, OrderedDict.total] at hshort
      omega
    rwa [size_of_taken htaken]

omit [Library] in
/-- A loop that leaves too much has popped nothing only where there was
nothing to pop. -/
theorem evict_eq_self_iff {name : Str} {v : StoredVersion} (hv : s.versions.get? name = some v)
    {need : Int}
    (hfull : (s.capacity : Int) < (s.evict need fun oldest => oldest = name).size + need) :
    (s.evict need fun oldest => oldest = name) = s ↔ s.versions.keys.head? = some name := by
  have htaken := taken_of_full hfull
  obtain ⟨first, rest, hentries⟩ := List.exists_cons_of_ne_nil
    (List.ne_nil_of_mem (OrderedDict.get?_eq_some_iff.mp hv))
  have hhead : s.versions.keys.head? = some first.1 := by
    rw [OrderedDict.keys, hentries]
    rfl
  rw [hhead, Option.some_inj]
  constructor
  · intro hsame
    by_contra hother
    rw [hentries, List.takeWhile_cons_of_pos (by simpa using hother)] at htaken
    have hpositive : 0 < s.evictions need fun oldest => decide (oldest = name) := by
      apply Nat.pos_of_ne_zero
      intro hzero
      rw [hzero] at htaken
      cases htaken
    have hlength := congrArg (fun t => t.versions.entries.length) hsame
    rw [evict_eq] at hlength
    simp only [dropOldest, OrderedDict.drop, List.length_drop, hentries, List.length_cons] at hlength
    omega
  · intro hfirst
    rw [hentries, List.takeWhile_cons_of_neg (by simpa using hfirst), List.take_eq_nil_iff] at htaken
    rw [evict_eq, htaken.resolve_right (List.cons_ne_nil _ _), dropOldest_zero]

/-- A refused shard leaves the store alone exactly when it spills nothing. -/
theorem putShardCore_unchanged_iff (s : CheckpointStore) (name : Str) (index : Int) (data : Bytes)
    (verifiedChecksum : Option Str) :
    (error? (s.putShardCore name index data verifiedChecksum).1 ≠ none →
        (s.putShardCore name index data verifiedChecksum).2 = s) ↔
      ¬ s.SpillsShard name index data verifiedChecksum := by
  rw [putShardCore]
  cases hv : s.versions.get? name with
  | none =>
    refine iff_of_true (fun _ => rfl) ?_
    rintro ⟨stored, hstored, -⟩
    cases hv.symm.trans hstored
  | some stored =>
    simp only
    cases hreject : shardRejection stored index data verifiedChecksum with
    | some e =>
      refine iff_of_true (fun _ => rfl) ?_
      rintro ⟨stored', hstored, haccepted, -⟩
      cases hv.symm.trans hstored
      cases hreject.symm.trans haccepted
    | none =>
      have hfull := s.full_iff name (additionalBytes stored index.toNat data)
      simp only [evict_capacity]
      split_ifs with hroom
      · have hpopped := evict_eq_self_iff hv hroom
        have hspills : s.SpillsShard name index data verifiedChecksum ↔
            s.versions.keys.head? ≠ some name := by
          constructor
          · rintro ⟨-, -, -, hhead, -⟩
            exact hhead
          · intro hhead
            exact ⟨stored, hv, hreject, hhead, hfull.mp hroom⟩
        rw [hspills, not_not, ← hpopped]
        exact ⟨fun h => h (by rintro hnone; cases hnone), fun h _ => h⟩
      · refine iff_of_true (fun h => absurd rfl h) ?_
        rintro ⟨stored', hstored, -, -, hshort⟩
        cases hv.symm.trans hstored
        exact hroom (hfull.mpr hshort)

/-- **A call that raises has changed nothing, unless it is a shard that passed
the checks and did not fit after versions older than its own were evicted.** -/
theorem raised_unchanged_iff (s : CheckpointStore) (op : StoreOp) :
    (s.raised? op ≠ none → s.apply op = s) ↔ ¬ s.Spills op := by
  cases op with
  | put name data shardSize checksum shardChecksums =>
    refine iff_of_true (fun hraised => ?_) id
    rcases s.put_cases name data shardSize checksum shardChecksums with ⟨e, hput⟩ | ⟨m, -, hput⟩
    · rw [apply, hput]
    · rw [raised?, hput] at hraised
      exact absurd rfl hraised
  | putVerified name data shardSize checksum shardChecksums =>
    refine iff_of_true (fun hraised => ?_) id
    rcases s.putVerified_cases name data shardSize checksum shardChecksums with
      ⟨e, hput⟩ | ⟨m, -, hput⟩
    · rw [apply, hput]
    · rw [raised?, hput] at hraised
      exact absurd rfl hraised
  | beginVersion metadata shardChecksums =>
    refine iff_of_true (fun hraised => ?_) id
    rw [raised?] at hraised
    cases hbegun : (s.beginVersion metadata shardChecksums).1 with
    | ok m =>
      rw [hbegun] at hraised
      exact absurd rfl hraised
    | error e => exact beginVersion_error hbegun
  | putShard name index data => exact s.putShardCore_unchanged_iff name index data none
  | putVerifiedShard name index data verifiedChecksum =>
    exact s.putShardCore_unchanged_iff name index data (some (lower verifiedChecksum))
  | remove name => exact iff_of_true (fun hraised => absurd rfl hraised) id
  | clear => exact iff_of_true (fun hraised => absurd rfl hraised) id

end

/-- Four bytes of capacity: a shard of six evicts the two bytes of `v1` and is
refused. -/
theorem refused_shard_evicts :
    letI := asciiLibrary
    ∃ (s : CheckpointStore) (op : StoreOp), s.Reached ∧ s.raised? op ≠ none ∧
      (s.apply op).versions.keys ≠ s.versions.keys := by
  let _ := asciiLibrary
  let ops : List StoreOp := [.put (str "v1") [1, 2] 2 none [],
    .beginVersion ⟨str "v2", 6, 6, 1, str "sum"⟩ [hexdigest [1, 2, 3, 4, 5, 6]]]
  refine ⟨ops.foldl apply (new 4), .putShard (str "v2") 0 [1, 2, 3, 4, 5, 6],
    ⟨4, ops, rfl⟩, ?_, ?_⟩
  · decide +kernel
  · decide +kernel

end Litecast.CheckpointStore
