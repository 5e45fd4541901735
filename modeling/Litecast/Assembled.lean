import Litecast.Geometry
import Litecast.StoreDigests
import Litecast.StoreEviction

/-! A version written shard by shard is read like one written whole. -/

namespace Litecast.CheckpointStore

open Pieces (piece)

section
variable [Library]

/-- What `put` records of the bytes. -/
def recordOf (name : Str) (data : Bytes) (shardSize : Nat) : VersionMetadata :=
  { name, totalSize := data.length, shardSize
    shardCount := shardCountOf data.length shardSize, checksum := hexdigest data }

def pieceChecksums (data : Bytes) (shardSize : Nat) : List Str :=
  (List.range (shardCountOf data.length shardSize)).map fun i => hexdigest (piece shardSize data i)

/-- `put_shard` of the pieces at `indices`, one after the other. -/
def fill (s : CheckpointStore) (name : Str) (data : Bytes) (shardSize : Nat) (indices : List Nat) :
    CheckpointStore :=
  indices.foldl (fun t (i : Nat) => (t.putShard name i (piece shardSize data i)).2) s

end

/-- The indices `inserted` of `t` are read as in `whole`; the others are not
available. -/
structure ReadsAs [Library] (t whole : CheckpointStore) (name : Str) (inserted : List Nat) :
    Prop where
  hasShard : ∀ index, t.hasShard name index = true ↔
    whole.hasShard name index = true ∧ index.toNat ∈ inserted
  available : t.availableShards name = (whole.availableShards name).filter (· ∈ inserted)
  complete : t.isComplete name = true ↔ ∀ index ∈ whole.availableShards name, index ∈ inserted
  shard : ∀ index, t.getShard name index =
    if whole.hasShard name index = true ∧ index.toNat ∉ inserted then
      .error ⟨.versionNotFoundError,
        name ++ str " shard " ++ decimal index.toNat ++ str " is not available"⟩
    else whole.getShard name index
  withChecksum : ∀ index, t.getShardWithChecksum name index =
    if whole.hasShard name index = true ∧ index.toNat ∉ inserted then
      .error ⟨.versionNotFoundError,
        name ++ str " shard " ++ decimal index.toNat ++ str " is not available"⟩
    else whole.getShardWithChecksum name index

/-- The version is read alike, and as much is counted as used. -/
structure ReadsAlike [Library] (t whole : CheckpointStore) (name : Str) : Prop where
  hasShard : t.hasShard name = whole.hasShard name
  available : t.availableShards name = whole.availableShards name
  complete : t.isComplete name = whole.isComplete name
  shard : t.getShard name = whole.getShard name
  withChecksum : t.getShardWithChecksum name = whole.getShardWithChecksum name
  used : t.size = whole.size

/-- Nothing is evicted for what fits. -/
theorem evict_of_room {s : CheckpointStore} {need : Int} (h : s.size + need ≤ s.capacity)
    (keep : Str → Bool) : s.evict need keep = s := by
  have hnone : s.evictions need keep = 0 := by
    rw [evictions]
    cases s.versions.entries with
    | nil => rfl
    | cons e rest =>
      rw [OldestFirst.count, if_neg]
      rintro ⟨hexcess, -⟩
      omega
  rw [evict_eq, hnone, dropOldest_zero]

section
variable [Library] {s t : CheckpointStore} {name : Str} {data : Bytes} {shardSize : Nat}

theorem put_of_room (hname : name ≠ []) (hsize : 0 < shardSize)
    (habsent : s.versions.get? name = none) (hroom : s.size + data.length ≤ s.capacity)
    (hfits : data.length ≤ s.capacity) :
    ∃ whole, s.put name data shardSize none (pieceChecksums data shardSize) =
        (.ok (recordOf name data shardSize), whole) ∧
      whole.versions.get? name = some
        { metadata := recordOf name data shardSize, data := some data
          shardChecksums := pieceChecksums data shardSize } ∧
      whole.size = s.size + data.length := by
  have hchecksums : validateShardChecksums (pieceChecksums data shardSize)
      (shardCountOf data.length shardSize) = none := by
    rw [validateShardChecksums, if_neg, if_neg]
    · simp [pieceChecksums, length_hexdigest]
    · simp [pieceChecksums]
  have hpopped : s.popped name = s := by
    rw [popped, habsent]
  have hstored : s.storeComplete (recordOf name data shardSize) data (pieceChecksums data shardSize) =
      { s with
        versions := s.versions.insert name
          { metadata := recordOf name data shardSize, data := some data
            shardChecksums := pieceChecksums data shardSize }
        size := s.size + data.length } := by
    rw [storeComplete_eq]
    simp only [recordOf, hpopped, evict_of_room hroom]
  refine ⟨s.storeComplete (recordOf name data shardSize) data (pieceChecksums data shardSize), ?_, ?_, ?_⟩
  · rw [put, validated_of_pos hname hsize]
    simp only
    rw [if_neg (by omega), if_neg (by simp)]
    simp only [Int.toNat_natCast, hchecksums]
    rfl
  · rw [hstored, OrderedDict.get?_insert, if_pos rfl]
  · rw [hstored]

/-! ## While shards come in -/

omit [Library] in
variable (data shardSize) in
/-- The shards at `inserted`, each its piece of the bytes. -/
def ArePieces (inserted : List Nat) (shards : OrderedDict Nat Bytes) : Prop :=
  ∀ i, shards.get? i = if i ∈ inserted then some (piece shardSize data i) else none

variable (s name data shardSize) in
/-- `t` is `s` with these pieces written to a version begun. -/
structure Filling (t : CheckpointStore) (inserted : List Nat) (shards : OrderedDict Nat Bytes) :
    Prop where
  get : t.versions.get? name = some
    { metadata := recordOf name data shardSize, shards
      shardChecksums := pieceChecksums data shardSize }
  pieces : ArePieces data shardSize inserted shards
  range : ∀ i ∈ inserted, i < shardCountOf data.length shardSize
  size : t.size = s.size + shards.sum List.length
  capacity : t.capacity = s.capacity

section
omit [Library]
variable {inserted : List Nat} {shards : OrderedDict Nat Bytes}

theorem ArePieces.mem_keys_iff (h : ArePieces data shardSize inserted shards) {i : Nat} :
    i ∈ shards.keys ↔ i ∈ inserted := by
  rw [OrderedDict.mem_keys_iff, h i]
  split_ifs with hin <;> simp [hin]

theorem ArePieces.sum_eq (h : ArePieces data shardSize inserted shards) :
    shards.sum List.length = (shards.keys.map fun i => (piece shardSize data i).length).sum := by
  apply OrderedDict.sum_eq_keys
  intro i shard hshard
  rw [h i] at hshard
  split_ifs at hshard
  rw [← Option.some.inj hshard]

/-- The pieces written so far take no more than the bytes they are of. -/
theorem ArePieces.sum_le (h : ArePieces data shardSize inserted shards) (hsize : 0 < shardSize)
    (hrange : ∀ i ∈ inserted, i < shardCountOf data.length shardSize) :
    shards.sum List.length ≤ data.length := by
  rw [h.sum_eq]
  apply Pieces.sum_length_pieces_le hsize shards.nodup
  intro i hi
  rw [← shardCountOf_eq_ceilDiv]
  exact hrange i (h.mem_keys_iff.mp hi)

theorem ArePieces.sum_all (h : ArePieces data shardSize inserted shards) (hsize : 0 < shardSize)
    (hall : ∀ i, i ∈ inserted ↔ i < shardCountOf data.length shardSize) :
    shards.sum List.length = data.length := by
  rw [h.sum_eq]
  apply Pieces.sum_length_all hsize shards.nodup
  intro i
  rw [← shardCountOf_eq_ceilDiv, ← hall]
  exact h.mem_keys_iff

theorem ArePieces.insert (h : ArePieces data shardSize inserted shards) (i : Nat) :
    ArePieces data shardSize (inserted ++ [i]) (shards.insert i (piece shardSize data i)) := by
  intro j
  rw [OrderedDict.get?_insert, h j]
  by_cases hj : j = i
  · simp [hj]
  · simp [hj]

end

theorem piece_accepted (hsize : 0 < shardSize) {i : Nat}
    (hi : i < shardCountOf data.length shardSize) (shards : OrderedDict Nat Bytes) :
    shardRejection { metadata := recordOf name data shardSize, shards
                     shardChecksums := pieceChecksums data shardSize }
      i (piece shardSize data i) none = none := by
  have hlt : i * shardSize < data.length := by
    rwa [shardCountOf_eq_ceilDiv, Pieces.lt_count_iff hsize] at hi
  have hlength : ((piece shardSize data i).length : Int) =
      expectedSize (recordOf name data shardSize) i := by
    rw [Pieces.length_piece]
    simp only [Pieces.span, expectedSize, recordOf, Nat.add_one_mul]
    omega
  have hrange : ¬ ((i : Int) < 0 ∨ ((recordOf name data shardSize).shardCount : Int) ≤ i) := by
    simp only [recordOf]
    omega
  have hchecksum : (pieceChecksums data shardSize)[i]? =
      some (hexdigest (piece shardSize data i)) := by
    rw [pieceChecksums, List.getElem?_map, List.getElem?_range hi]
    rfl
  rw [shardRejection, if_neg hrange, if_neg (not_not.mpr hlength)]
  split_ifs
  · rfl
  · simp only [Int.toNat_natCast, hchecksum, Option.getD_none, ne_eq, not_true_eq_false, if_false]

/-- A piece written, for the first time or again. -/
theorem Filling.putShard {inserted : List Nat} {shards : OrderedDict Nat Bytes}
    (ht : Filling s name data shardSize t inserted shards) (hsize : 0 < shardSize)
    (hroom : s.size + data.length ≤ s.capacity) {i : Nat}
    (hi : i < shardCountOf data.length shardSize) :
    ∃ u, t.putShard name i (piece shardSize data i) = (.ok (piece shardSize data i), u) ∧
      Filling s name data shardSize u (inserted ++ [i])
        (shards.insert i (piece shardSize data i)) := by
  have hpieces := ht.pieces.insert i
  have hrange : ∀ j ∈ inserted ++ [i], j < shardCountOf data.length shardSize := by
    intro j hj
    rw [List.mem_append, List.mem_singleton] at hj
    rcases hj with hj | rfl
    · exact ht.range j hj
    · exact hi
  have hbytes := hpieces.sum_le hsize hrange
  have hadded := storedBytes_with_shard
    (v := { metadata := recordOf name data shardSize, shards
            shardChecksums := pieceChecksums data shardSize }) rfl i (piece shardSize data i)
  simp only [StoredVersion.storedBytes] at hadded
  have htsize := ht.size
  have htcapacity := ht.capacity
  have hfits : t.size + additionalBytes
      { metadata := recordOf name data shardSize, shards
        shardChecksums := pieceChecksums data shardSize } i (piece shardSize data i) ≤
      t.capacity := by
    omega
  rw [CheckpointStore.putShard, putShardCore, ht.get]
  simp only [piece_accepted hsize hi, Int.toNat_natCast, evict_of_room hfits]
  rw [if_neg (by omega)]
  refine ⟨_, rfl, ?_, hpieces, hrange, ?_, htcapacity⟩
  · rw [OrderedDict.get?_insert, if_pos rfl]
  · simp only
    omega

theorem Filling.fill {inserted : List Nat} {shards : OrderedDict Nat Bytes}
    (ht : Filling s name data shardSize t inserted shards) (hsize : 0 < shardSize)
    (hroom : s.size + data.length ≤ s.capacity) {indices : List Nat}
    (hindices : ∀ i ∈ indices, i < shardCountOf data.length shardSize) :
    ∃ shards, Filling s name data shardSize (t.fill name data shardSize indices)
      (inserted ++ indices) shards := by
  induction indices generalizing t inserted shards with
  | nil => exact ⟨shards, by simpa [CheckpointStore.fill] using ht⟩
  | cons i rest ih =>
    obtain ⟨u, hput, hu⟩ := ht.putShard hsize hroom (hindices i (by simp))
    obtain ⟨filled, hfilled⟩ := ih hu fun j hj => hindices j (by simp [hj])
    refine ⟨filled, ?_⟩
    rw [List.append_assoc, List.singleton_append] at hfilled
    rw [CheckpointStore.fill, List.foldl_cons, hput]
    exact hfilled

variable (data) in
theorem filling_begun (hname : name ≠ []) (hsize : 0 < shardSize)
    (habsent : s.versions.get? name = none) :
    ∃ begun, s.beginVersion (recordOf name data shardSize) (pieceChecksums data shardSize) =
        (.ok (recordOf name data shardSize), begun) ∧
      Filling s name data shardSize begun [] .empty := by
  have hvalid : (validateName (recordOf name data shardSize).name).or
      (validateShardSize (recordOf name data shardSize).shardSize) = none :=
    validated_of_pos hname hsize
  have hcount : ¬ (pieceChecksums data shardSize).length ≠
      (recordOf name data shardSize).shardCount := by
    simp [pieceChecksums, recordOf]
  have habsent' : s.versions.get? (recordOf name data shardSize).name = none := habsent
  rw [beginVersion, hvalid]
  simp only
  rw [if_neg hcount]
  simp only [habsent']
  refine ⟨_, rfl, ?_, fun i => rfl, by simp, by simp, rfl⟩
  exact (OrderedDict.get?_insert _ _ _ _).trans (if_pos rfl)

/-! ## What is read -/

section
variable {inserted : List Nat} {shards : OrderedDict Nat Bytes}

omit [Library] in
theorem ArePieces.perm_keys (h : ArePieces data shardSize inserted shards)
    (hrange : ∀ i ∈ inserted, i < shardCountOf data.length shardSize) :
    shards.keys.Perm
      ((List.range (shardCountOf data.length shardSize)).filter (· ∈ inserted)) := by
  apply (List.perm_ext_iff_of_nodup shards.nodup (List.nodup_range.filter _)).mpr
  intro i
  rw [List.mem_filter, List.mem_range, decide_eq_true_eq]
  constructor
  · intro hi
    have hin := h.mem_keys_iff.mp hi
    exact ⟨hrange i hin, hin⟩
  · intro hi
    exact h.mem_keys_iff.mpr hi.2

theorem Filling.hasShard_iff (ht : Filling s name data shardSize t inserted shards)
    (index : Int) : t.hasShard name index = true ↔ 0 ≤ index ∧ index.toNat ∈ inserted := by
  rw [hasShard, ht.get]
  apply decide_eq_true_iff.trans
  rw [OrderedDict.contains, Option.isSome_iff_exists, ← OrderedDict.mem_keys_iff,
    ht.pieces.mem_keys_iff]

theorem Filling.availableShards_eq (ht : Filling s name data shardSize t inserted shards) :
    t.availableShards name =
      (List.range (shardCountOf data.length shardSize)).filter (· ∈ inserted) := by
  rw [availableShards, ht.get]
  simp only
  apply List.Perm.eq_of_pairwise' (r := (· ≤ ·)) (List.pairwise_insertionSort _ _)
  · exact (List.pairwise_le_range).filter _
  · exact (List.perm_insertionSort _ _).trans (ht.pieces.perm_keys ht.range)

theorem Filling.isComplete_iff (ht : Filling s name data shardSize t inserted shards) :
    t.isComplete name = true ↔ ∀ i < shardCountOf data.length shardSize, i ∈ inserted := by
  have hlength : shards.length = ((List.range (shardCountOf data.length shardSize)).filter
      (· ∈ inserted)).length := by
    rw [← (ht.pieces.perm_keys ht.range).length_eq, OrderedDict.keys, List.length_map,
      OrderedDict.length]
  have hall := List.length_filter_eq_length_iff (p := fun i => decide (i ∈ inserted))
    (l := List.range (shardCountOf data.length shardSize))
  rw [List.length_range, ← hlength] at hall
  rw [isComplete, ht.get]
  simp only [Option.isSome_none, Bool.false_or, decide_eq_true_eq, recordOf, hall, List.mem_range]

theorem Filling.getShard_eq (ht : Filling s name data shardSize t inserted shards) (index : Int) :
    t.getShard name index =
      if index < 0 ∨ (shardCountOf data.length shardSize : Int) ≤ index then
        .error ⟨.invalidShardIndexError, []⟩
      else if index.toNat ∈ inserted then .ok (piece shardSize data index.toNat)
      else .error ⟨.versionNotFoundError,
        name ++ str " shard " ++ decimal index.toNat ++ str " is not available"⟩ := by
  rw [getShard, ht.get]
  simp only [recordOf, ht.pieces index.toNat]
  split_ifs <;> rfl

variable {whole : CheckpointStore}

variable (name data shardSize) in
/-- The version written whole. -/
def Whole (whole : CheckpointStore) : Prop :=
  whole.versions.get? name = some
    { metadata := recordOf name data shardSize, data := some data
      shardChecksums := pieceChecksums data shardSize }

theorem Whole.hasShard_iff (hwhole : Whole name data shardSize whole) (index : Int) :
    whole.hasShard name index = true ↔
      0 ≤ index ∧ index < shardCountOf data.length shardSize := by
  rw [hasShard, hwhole]
  exact decide_eq_true_iff

theorem Whole.getShard_eq (hwhole : Whole name data shardSize whole) (index : Int) :
    whole.getShard name index =
      if index < 0 ∨ (shardCountOf data.length shardSize : Int) ≤ index then
        .error ⟨.invalidShardIndexError, []⟩
      else .ok (piece shardSize data index.toNat) := by
  rw [getShard, hwhole]
  simp only [shardSpan_eq_span, recordOf]
  split_ifs <;> rfl

/-- What was written shard by shard is the whole version, as far as it goes. -/
theorem Filling.readsAs (ht : Filling s name data shardSize t inserted shards)
    (hwhole : Whole name data shardSize whole) : ReadsAs t whole name inserted := by
  have havailable : whole.availableShards name =
      List.range (shardCountOf data.length shardSize) := by
    rw [availableShards, hwhole]
    rfl
  have hshard (index : Int) : t.getShard name index =
      if whole.hasShard name index = true ∧ index.toNat ∉ inserted then
        .error ⟨.versionNotFoundError,
          name ++ str " shard " ++ decimal index.toNat ++ str " is not available"⟩
      else whole.getShard name index := by
    have hthere := hwhole.hasShard_iff index
    rw [ht.getShard_eq, hwhole.getShard_eq]
    by_cases hrange : index < 0 ∨ (shardCountOf data.length shardSize : Int) ≤ index
    · have hnot : ¬ (whole.hasShard name index = true ∧ index.toNat ∉ inserted) := by
        rintro ⟨hhas, -⟩
        have hbounds := hthere.mp hhas
        omega
      rw [if_pos hrange, if_neg hnot, if_pos hrange]
    · rw [if_neg hrange, if_neg hrange]
      by_cases hin : index.toNat ∈ inserted
      · rw [if_pos hin, if_neg fun h => h.2 hin]
      · rw [if_neg hin, if_pos ⟨hthere.mpr (by omega), hin⟩]
  exact {
    hasShard := by
      intro index
      rw [ht.hasShard_iff, hwhole.hasShard_iff]
      constructor
      · rintro ⟨hpos, hin⟩
        have hlt := ht.range _ hin
        exact ⟨by omega, hin⟩
      · rintro ⟨⟨hpos, -⟩, hin⟩
        exact ⟨hpos, hin⟩
    available := by rw [ht.availableShards_eq, havailable]
    complete := by
      rw [ht.isComplete_iff, havailable]
      simp only [List.mem_range]
    shard := hshard
    withChecksum := by
      intro index
      have hchecksums : (t.versions.get? name).elim [] StoredVersion.shardChecksums =
          (whole.versions.get? name).elim [] StoredVersion.shardChecksums := by
        rw [ht.get, hwhole]
        rfl
      rw [getShardWithChecksum, getShardWithChecksum, hshard index, hchecksums]
      split_ifs with hmissing
      · rfl
      · rfl }

theorem Filling.readsAlike (ht : Filling s name data shardSize t inserted shards)
    (hwhole : Whole name data shardSize whole) (hsize : 0 < shardSize)
    (hused : whole.size = s.size + data.length)
    (hall : ∀ i < shardCountOf data.length shardSize, i ∈ inserted) :
    ReadsAlike t whole name := by
  have hreads := ht.readsAs hwhole
  have hthere : ∀ index, whole.hasShard name index = true → index.toNat ∈ inserted := by
    intro index hhas
    have hbounds := (hwhole.hasShard_iff index).mp hhas
    exact hall _ (by omega)
  have hnone : ∀ index, ¬ (whole.hasShard name index = true ∧ index.toNat ∉ inserted) :=
    fun index h => h.2 (hthere index h.1)
  have hin : ∀ index ∈ whole.availableShards name, index ∈ inserted := by
    intro index hindex
    rw [availableShards, hwhole] at hindex
    exact hall index (List.mem_range.mp hindex)
  exact {
    hasShard := by
      funext index
      rw [Bool.eq_iff_iff, hreads.hasShard]
      exact ⟨And.left, fun hhas => ⟨hhas, hthere index hhas⟩⟩
    available := by
      rw [hreads.available, List.filter_eq_self]
      intro index hindex
      exact decide_eq_true (hin index hindex)
    complete := by
      have hcomplete : whole.isComplete name = true := by
        rw [isComplete, hwhole]
        rfl
      rw [hcomplete]
      exact hreads.complete.mpr hin
    shard := by
      funext index
      rw [hreads.shard, if_neg (hnone index)]
    withChecksum := by
      funext index
      rw [hreads.withChecksum, if_neg (hnone index)]
    used := by
      have hsum := ht.pieces.sum_all hsize fun i => ⟨ht.range i, hall i⟩
      rw [ht.size, hused, hsum] }

end

/-- **Shard by shard or whole, a version is read the same.** The shards come
in any order, each any number of times; until all are there the missing ones
are not available. -/
theorem filled_reads_as_whole (s : CheckpointStore) (name : Str) (data : Bytes) (shardSize : Nat)
    (hname : name ≠ []) (hsize : 0 < shardSize) (habsent : s.versions.get? name = none)
    (hroom : s.size + data.length ≤ s.capacity) (hfits : data.length ≤ s.capacity) :
    ∃ whole begun,
      s.put name data shardSize none (pieceChecksums data shardSize) =
        (.ok (recordOf name data shardSize), whole) ∧
      s.beginVersion (recordOf name data shardSize) (pieceChecksums data shardSize) =
        (.ok (recordOf name data shardSize), begun) ∧
      ∀ indices : List Nat, (∀ i ∈ indices, i < shardCountOf data.length shardSize) →
        (∀ i < shardCountOf data.length shardSize,
          ((begun.fill name data shardSize indices).putShard name i (piece shardSize data i)).1 =
            .ok (piece shardSize data i)) ∧
        ReadsAs (begun.fill name data shardSize indices) whole name indices ∧
        ((∀ i < shardCountOf data.length shardSize, i ∈ indices) →
          ReadsAlike (begun.fill name data shardSize indices) whole name) := by
  obtain ⟨whole, hput, hwhole, hused⟩ := put_of_room hname hsize habsent hroom hfits
  obtain ⟨begun, hbegun, hbegin⟩ := filling_begun data hname hsize habsent
  refine ⟨whole, begun, hput, hbegun, ?_⟩
  intro indices hindices
  obtain ⟨shards, ht⟩ := hbegin.fill hsize hroom hindices
  rw [List.nil_append] at ht
  refine ⟨?_, ht.readsAs hwhole, fun hall => ht.readsAlike hwhole hsize hused hall⟩
  intro i hi
  obtain ⟨u, hagain, -⟩ := ht.putShard hsize hroom hi
  rw [hagain]

end

/-- Three bytes in two shards, the last of them first and once more. -/
theorem filled_reads_as_whole_three_bytes :
    letI := asciiLibrary
    ∃ whole begun,
      (new 8).put (str "v1") [1, 2, 3] 2 none (pieceChecksums [1, 2, 3] 2) =
        (.ok (recordOf (str "v1") [1, 2, 3] 2), whole) ∧
      (new 8).beginVersion (recordOf (str "v1") [1, 2, 3] 2) (pieceChecksums [1, 2, 3] 2) =
        (.ok (recordOf (str "v1") [1, 2, 3] 2), begun) ∧
      ReadsAlike (begun.fill (str "v1") [1, 2, 3] 2 [1, 0, 1]) whole (str "v1") := by
  let _ := asciiLibrary
  obtain ⟨whole, begun, hput, hbegun, hfilled⟩ :=
    filled_reads_as_whole (new 8) (str "v1") [1, 2, 3] 2 (by decide) (by decide) rfl (by decide)
      (by decide)
  exact ⟨whole, begun, hput, hbegun, (hfilled [1, 0, 1] (by decide)).2.2 (by decide)⟩

end Litecast.CheckpointStore
