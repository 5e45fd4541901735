import Litecast.ManifestRoundTrip
import Litecast.StoreAccounting
import Litecast.Ucxx

/-! Every place that cuts a version into shards cuts it the same way. -/

namespace Litecast

open Pieces (piece span spans Consecutive)

/-! ## The formulas -/

theorem shardCountOf_eq_ceilDiv (totalSize shardSize : Nat) :
    shardCountOf totalSize shardSize = totalSize ⌈/⌉ shardSize := by
  rw [shardCountOf]
  split_ifs with hzero
  · rw [hzero, zero_ceilDiv]
  · rfl

theorem eq_zero_of_shardCountOf {totalSize shardSize : Nat} (hsize : 0 < shardSize)
    (h : shardCountOf totalSize shardSize = 0) : totalSize = 0 := by
  by_contra hne
  have hfirst : 0 < totalSize ⌈/⌉ shardSize := by
    rw [Pieces.lt_count_iff hsize, Nat.zero_mul]
    exact Nat.pos_of_ne_zero hne
  rw [← shardCountOf_eq_ceilDiv, h] at hfirst
  exact Nat.lt_irrefl _ hfirst

theorem shardSpan_eq_span (metadata : VersionMetadata) (index : Nat) :
    CheckpointStore.shardSpan metadata index =
      span metadata.shardSize metadata.totalSize index := by
  simp only [CheckpointStore.shardSpan, span, Nat.add_one_mul]

theorem chunkSpan_eq_span (metadata : VersionMetadata) (index : Nat) :
    Ucxx.chunkSpan metadata index = span metadata.shardSize metadata.totalSize index := by
  simp only [Ucxx.chunkSpan, span, Nat.add_one_mul]

namespace ShardManifest

/-- A manifest that counts its shards as the ceiling does. -/
structure Counted (m : ShardManifest) : Prop where
  shardSize_pos : 0 < m.shardSize
  shardCount_eq : m.shardCount = m.totalSize ⌈/⌉ m.shardSize

theorem Consistent.counted [Library] {m : ShardManifest} (hm : m.Consistent) : m.Counted where
  shardSize_pos := hm.shardSize_pos
  shardCount_eq := by rw [hm.shardCount_eq, shardCountOf_eq_ceilDiv]

theorem Counted.shardLength {m : ShardManifest} (hm : m.Counted) {index : Nat}
    (hindex : index < m.shardCount) :
    m.shardLength index = .ok ((span m.shardSize m.totalSize index).2 -
      (span m.shardSize m.totalSize index).1 : Nat) := by
  have hlt := (Pieces.lt_count_iff hm.shardSize_pos).mp (hm.shardCount_eq ▸ hindex)
  have hrange : ¬ ((index : Int) < 0 ∨ (m.shardCount : Int) ≤ index) := by omega
  rw [ShardManifest.shardLength, if_neg hrange]
  congr 1
  simp only [span, Nat.add_one_mul]
  omega

theorem Counted.targetSpan {m : ShardManifest} (hm : m.Counted) {index : Nat}
    (hindex : index < m.shardCount) :
    m.targetSpan index = .ok (span m.shardSize m.totalSize index) := by
  have hlt := Pieces.span_nonempty hm.shardSize_pos (hm.shardCount_eq ▸ hindex)
  rw [ShardManifest.targetSpan, hm.shardLength hindex]
  simp only [bind, Except.bind, pure, Except.pure, Int.toNat_natCast, Except.ok.injEq]
  simp only [span] at hlt ⊢
  congr 1
  omega

/-- The targets of a version are consecutive slices that make up its buffer. -/
theorem Counted.targets {m : ShardManifest} (hm : m.Counted) :
    (List.range m.shardCount).mapM m.targetSpan = .ok (spans m.shardSize m.totalSize) ∧
      Consecutive 0 (spans m.shardSize m.totalSize) m.totalSize := by
  refine ⟨?_, Pieces.consecutive_spans hm.shardSize_pos _⟩
  rw [mapM_eq_ok, spans, ← hm.shardCount_eq, List.forall₂_map_right_iff, List.forall₂_same]
  intro index hindex
  exact hm.targetSpan (List.mem_range.mp hindex)

end ShardManifest

/-! ## The store -/

namespace CheckpointStore

/-- The version is in the store after a `put` or `put_verified` of its bytes
that returned. -/
def Stores [Library] (s t : CheckpointStore) (name : Str) (data : Bytes) (shardSize : Int)
    (metadata : VersionMetadata) : Prop :=
  ∃ shardChecksums,
    (∃ checksum, s.put name data shardSize checksum shardChecksums = (.ok metadata, t)) ∨
      ∃ checksum, s.putVerified name data shardSize checksum shardChecksums = (.ok metadata, t)

theorem Stores.spec [Library] {s t : CheckpointStore} {name : Str} {data : Bytes}
    {shardSize : Int} {metadata : VersionMetadata} (h : s.Stores t name data shardSize metadata) :
    metadata.name = name ∧ metadata.totalSize = data.length ∧
      metadata.shardSize = shardSize.toNat ∧
      metadata.shardCount = shardCountOf data.length shardSize.toNat ∧
      ∃ shardChecksums, t = s.storeComplete metadata data shardChecksums := by
  obtain ⟨shardChecksums, ⟨checksum, h⟩ | ⟨checksum, h⟩⟩ := h
  · simp only [put] at h
    repeat' split at h
    all_goals cases h
    exact ⟨rfl, rfl, rfl, rfl, shardChecksums, rfl⟩
  · simp only [putVerified] at h
    repeat' split at h
    all_goals cases h
    exact ⟨rfl, rfl, rfl, rfl, shardChecksums, rfl⟩

/-- A shard of a version held as one buffer is a piece of the buffer. -/
theorem getShard_of_data {s : CheckpointStore} {name : Str} {stored : StoredVersion}
    {data : Bytes} (hstored : s.versions.get? name = some stored) (hdata : stored.data = some data)
    (htotal : stored.metadata.totalSize = data.length) (index : Nat)
    (hindex : index < stored.metadata.shardCount) :
    s.getShard name index = .ok (piece stored.metadata.shardSize data index) := by
  have hrange : ¬ ((index : Int) < 0 ∨ (stored.metadata.shardCount : Int) ≤ index) := by omega
  simp only [getShard, hstored, hdata, hrange, if_false, Int.toNat_natCast, shardSpan_eq_span,
    htotal, piece]

/-- The shards of a whole version read into a dictionary, one after the other. -/
theorem readShards_of_data {s : CheckpointStore} {name : Str} {stored : StoredVersion}
    {data : Bytes} (hstored : s.versions.get? name = some stored) (hdata : stored.data = some data)
    (htotal : stored.metadata.totalSize = data.length) (shards : OrderedDict Nat Bytes) (n : Nat)
    (hn : n ≤ stored.metadata.shardCount) :
    ∃ files, (List.range n).foldlM (fun files (index : Nat) => do
        return OrderedDict.insert files index (← s.getShard name index)) shards =
          Except.ok files ∧
      ∀ index, files.get? index =
        if index < n then some (piece stored.metadata.shardSize data index)
        else shards.get? index := by
  induction n with
  | zero => exact ⟨shards, rfl, fun index => by rw [if_neg (Nat.not_lt_zero index)]⟩
  | succ n ih =>
    obtain ⟨files, hfiles, hget⟩ := ih (by omega)
    have hshard := getShard_of_data hstored hdata htotal n (by omega)
    refine ⟨files.insert n (piece stored.metadata.shardSize data n), ?_, ?_⟩
    · rw [List.range_succ, List.foldlM_append, hfiles]
      simp only [bind, Except.bind, List.foldlM_cons, List.foldlM_nil, hshard, pure, Except.pure]
    · intro index
      rw [OrderedDict.get?_insert, hget]
      by_cases hlast : index = n
      · rw [if_pos hlast, if_pos (by omega), hlast]
      · rw [if_neg hlast]
        by_cases hlt : index < n
        · rw [if_pos hlt, if_pos (by omega)]
        · rw [if_neg hlt, if_neg (by omega)]

end CheckpointStore

/-! ## One partition -/

theorem manifestSlice_eq_piece (view : Bytes) (shardSize index : Nat) :
    manifestSlice view shardSize index = piece shardSize view index := rfl

/-- Copy shard `index` of the store into the client's slice of the buffer. -/
def copyShard (m : ShardManifest) (store : CheckpointStore) (buffer : Bytes) (index : Nat) :
    Except Exc Bytes := do
  let (start, _) ← m.targetSpan index
  let shard ← store.getShard m.name index
  return Pieces.write buffer start shard

theorem foldlM_copyShard {m : ShardManifest} {store : CheckpointStore} {data : Bytes}
    (hspan : ∀ index < m.shardCount, m.targetSpan index = .ok (span m.shardSize data.length index))
    (hshard : ∀ index < m.shardCount, store.getShard m.name index = .ok (piece m.shardSize data index))
    (order : List Nat) (horder : ∀ index ∈ order, index < m.shardCount) (buffer : Bytes) :
    order.foldlM (copyShard m store) buffer =
      .ok (Pieces.writeAll m.shardSize data order buffer) := by
  induction order generalizing buffer with
  | nil => rfl
  | cons index order ih =>
    have hindex := horder index (by simp)
    have hcopy : copyShard m store buffer index =
        .ok (Pieces.write buffer (index * m.shardSize) (piece m.shardSize data index)) := by
      simp only [copyShard, hspan index hindex, hshard index hindex, bind, Except.bind, pure,
        Except.pure, span]
    rw [List.foldlM_cons, hcopy]
    exact ih (fun i hi => horder i (by simp [hi])) _

section
variable [Library]

/-- A manifest can be built of any bytes. -/
theorem buildManifest_total {name : Str} (hname : name ≠ []) (view : Bytes) {shardSize : Nat}
    (hsize : 0 < shardSize) : ∃ m, buildManifest name view shardSize = .ok m := by
  obtain ⟨root, hroot⟩ := ShardManifest.merkleRoot_digests
    ((List.range (shardCountOf view.length shardSize)).map fun index =>
      (blake3 (manifestSlice view shardSize index)).bytes)
  have hpos : ¬ (shardSize : Int) ≤ 0 := by omega
  simp only [List.map_map, Function.comp_def] at hroot
  rw [buildManifest, if_neg hname, if_neg hpos]
  simp only [Int.toNat_natCast, hexdigest, Digest.hex, hroot, bind, Except.bind]
  exact ⟨_, rfl⟩

/-- A manifest cuts the bytes into their pieces and names the digests of these. -/
structure ShardManifest.Partitions (m : ShardManifest) (data : Bytes) : Prop where
  totalSize : m.totalSize = data.length
  shardCount : m.shardCount = data.length ⌈/⌉ m.shardSize
  consecutive : Consecutive 0 (spans m.shardSize data.length) data.length
  built : ∀ index < m.shardCount,
    manifestSpan m.shardSize data.length index = span m.shardSize data.length index
  target : ∀ index < m.shardCount,
    m.targetSpan index = .ok (span m.shardSize data.length index)
  length : ∀ index < m.shardCount,
    m.shardLength index = .ok (piece m.shardSize data index).length
  digest : ∀ index < m.shardCount,
    m.shardChecksums[index]? = some (hexdigest (piece m.shardSize data index))

/-- A stored version is cut and sent as its manifest says, and its shards make
up the bytes in whatever order they are copied. -/
structure ShardManifest.StoredAlike (m : ShardManifest) (data : Bytes) (store : CheckpointStore)
    (metadata : VersionMetadata) : Prop where
  shardCount : metadata.shardCount = m.shardCount
  stored : ∀ index < m.shardCount,
    CheckpointStore.shardSpan metadata index = span m.shardSize data.length index
  chunk : ∀ index < m.shardCount,
    Ucxx.chunkSpan metadata index = span m.shardSize data.length index
  shard : ∀ index < m.shardCount,
    store.getShard m.name index = .ok (piece m.shardSize data index)
  chunks : Ucxx.versionChunks metadata data =
    (List.range m.shardCount).map fun index => .buffer (piece m.shardSize data index)
  copied : ∀ (order : List Nat) (buffer : Bytes), (∀ index ∈ order, index < m.shardCount) →
    (∀ index < m.shardCount, index ∈ order) → buffer.length = data.length →
      order.foldlM (copyShard m store) buffer = .ok data

theorem buildManifest_partitions {name : Str} {data : Bytes} {shardSize : Int} {m : ShardManifest}
    (h : buildManifest name data shardSize = .ok m) : m.Partitions data := by
  have hm := (ShardManifest.buildManifest_consistent h).counted
  obtain ⟨-, -, root, -, rfl⟩ := ShardManifest.buildManifest_eq_ok h
  exact {
    totalSize := rfl, shardCount := hm.shardCount_eq
    consecutive := hm.targets.2, built := fun _ _ => rfl
    target := fun index hindex => hm.targetSpan hindex
    length := by
      intro index hindex
      rw [hm.shardLength hindex, Pieces.length_piece]
    digest := by
      intro index hindex
      simp only [List.getElem?_map, List.getElem?_range hindex, Option.map_some,
        manifestSlice_eq_piece] }

theorem stored_alike {m : ShardManifest} {data : Bytes} {store store' : CheckpointStore}
    {metadata : VersionMetadata} (hm : m.Counted) (htotal : m.totalSize = data.length)
    (hstore : store.Stores store' m.name data m.shardSize metadata) :
    m.StoredAlike data store' metadata := by
  obtain ⟨hname, hlength, hsize, hcount, shardChecksums, rfl⟩ := hstore.spec
  rw [Int.toNat_natCast] at hsize hcount
  have hcounts : metadata.shardCount = m.shardCount := by
    rw [hcount, shardCountOf_eq_ceilDiv, hm.shardCount_eq, htotal]
  have hchunk (index : Nat) :
      Ucxx.chunkSpan metadata index = span m.shardSize data.length index := by
    rw [chunkSpan_eq_span, hsize, hlength]
  have hshard : ∀ index < m.shardCount,
      (store.storeComplete metadata data shardChecksums).getShard m.name index =
        .ok (piece m.shardSize data index) := by
    intro index hindex
    have hget := CheckpointStore.get?_storeComplete store metadata data shardChecksums
    rw [hname] at hget
    have h := CheckpointStore.getShard_of_data hget rfl hlength index
      (by simp only; omega)
    rwa [hsize] at h
  have htarget : ∀ index < m.shardCount,
      m.targetSpan index = .ok (span m.shardSize data.length index) := by
    intro index hindex
    rw [hm.targetSpan hindex, htotal]
  exact {
    shardCount := hcounts
    stored := by
      intro index _
      rw [shardSpan_eq_span, hsize, hlength]
    chunk := fun index _ => hchunk index
    shard := hshard
    chunks := by
      simp only [Ucxx.versionChunks, hcounts, hchunk]
      rfl
    copied := by
      intro order buffer horder hall hbuffer
      rw [foldlM_copyShard htarget hshard order horder]
      have hcount' : m.shardCount = data.length ⌈/⌉ m.shardSize := by
        rw [hm.shardCount_eq, htotal]
      rw [hcount'] at horder hall
      rw [Pieces.writeAll_eq hm.shardSize_pos horder hall hbuffer] }

/-- **One partition.** `build_manifest`, the store, `shard_length`, the
client's slices and the chunk loops all cut `n` bytes into the same `ceil(n / s)`
consecutive non-empty pieces. So every shard of the stored version has its
digest in the manifest, and copying the shards in any order gives back the
bytes. Accepted manifests have the same partition. -/
theorem one_partition :
    (∀ (name : Str) (data : Bytes) (s : Nat), name ≠ [] → 0 < s →
      ∃ m, buildManifest name data s = .ok m ∧ m.name = name ∧ m.shardSize = s ∧
        m.Partitions data ∧
        ∀ (store store' : CheckpointStore) (metadata : VersionMetadata),
          store.Stores store' name data s metadata → m.StoredAlike data store' metadata) ∧
    ∀ (raw : Bytes) (m : ShardManifest), ShardManifest.fromBytes raw = .ok m →
      m.shardCount = m.totalSize ⌈/⌉ m.shardSize ∧
      Consecutive 0 (spans m.shardSize m.totalSize) m.totalSize ∧
      (∀ index < m.shardCount, m.shardLength index =
        .ok ((span m.shardSize m.totalSize index).2 - (span m.shardSize m.totalSize index).1 :
          Nat)) ∧
      (List.range m.shardCount).mapM m.targetSpan = .ok (spans m.shardSize m.totalSize) := by
  constructor
  · intro name data s hname hs
    obtain ⟨m, hm⟩ := buildManifest_total hname data hs
    have hcounted := (ShardManifest.buildManifest_consistent hm).counted
    have hpartitions := buildManifest_partitions hm
    obtain ⟨-, -, root, -, hfields⟩ := ShardManifest.buildManifest_eq_ok hm
    have hmname : m.name = name := by rw [hfields]
    have hmsize : m.shardSize = s := by rw [hfields, Int.toNat_natCast]
    refine ⟨m, hm, hmname, hmsize, hpartitions, ?_⟩
    intro store store' metadata hstore
    rw [← hmname, ← hmsize] at hstore
    exact stored_alike hcounted hpartitions.totalSize hstore
  · intro raw m hraw
    have hm := (ShardManifest.fromBytes_consistent hraw).counted
    exact ⟨hm.shardCount_eq, hm.targets.2, fun _ hindex => hm.shardLength hindex, hm.targets.1⟩

end

/-- Two shards of three bytes are built, stored, and copied with the last one
first; and the manifest that is read is cut the same way. -/
theorem one_partition_three_bytes :
    let _ := asciiLibrary
    (∃ m store metadata, buildManifest (str "v1") [1, 2, 3] (2 : Nat) = .ok m ∧
      m.Partitions [1, 2, 3] ∧
      (CheckpointStore.new 8).Stores store (str "v1") [1, 2, 3] (2 : Nat) metadata ∧
      Ucxx.versionChunks metadata [1, 2, 3] =
        (List.range m.shardCount).map (fun index => .buffer (piece m.shardSize [1, 2, 3] index)) ∧
      [1, 0, 1].foldlM (copyShard m store) [9, 9, 9] = .ok [1, 2, 3]) ∧
    ∃ m, ShardManifest.fromBytes (dumps ShardManifest.threeBytesManifest.toDict) = .ok m ∧
      (List.range m.shardCount).mapM m.targetSpan = .ok [(0, 2), (2, 3)] := by
  let _ := asciiLibrary
  constructor
  · obtain ⟨m, hm, hname, hsize, hpartitions, hstored⟩ :=
      one_partition.1 (str "v1") [1, 2, 3] 2 (by decide) (by decide)
    have hput : (CheckpointStore.new 8).Stores _ (str "v1") [1, 2, 3] (2 : Nat) _ :=
      ⟨[], Or.inl ⟨none, Prod.ext (by rfl) rfl⟩⟩
    have halike := hstored _ _ _ hput
    have hcount : m.shardCount = 2 := halike.shardCount.symm
    refine ⟨m, _, _, hm, hpartitions, hput, halike.chunks, halike.copied _ _ ?_ ?_ rfl⟩
    · simp [hcount]
    · intro index hindex
      rw [hcount] at hindex
      interval_cases index <;> simp
  · have hread := ShardManifest.fromBytes_dumps
      (ShardManifest.buildManifest_consistent ShardManifest.threeBytesManifest_built)
      ShardManifest.threeBytesManifest_size ShardManifest.threeBytesManifest_legible.roundTrips
    refine ⟨_, hread, ?_⟩
    obtain ⟨-, -, -, htargets⟩ := one_partition.2 _ _ hread
    exact htargets

end Litecast
