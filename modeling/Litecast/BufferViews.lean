import Litecast.FailedBroadcasts

/-! Broadcasts of any contiguous buffer: `build_manifest` measures the view it
is given, and the store its bytes. -/

namespace Litecast

/-- A contiguous buffer: the lengths of its dimensions, the size of an item, and
its bytes. -/
structure BufferView where
  shape : List Nat
  itemSize : Nat
  raw : Bytes
  length_raw : raw.length = shape.prod * itemSize

namespace BufferView

/-- `bytes` and `bytearray` -/
def ofBytes (data : Bytes) : BufferView where
  shape := [data.length]
  itemSize := 1
  raw := data
  length_raw := by simp

/-- The bytes behind one index of the first dimension. -/
def rowBytes (view : BufferView) : Nat := view.shape.tail.prod * view.itemSize

/-- `view[start:stop]` -/
def slice (view : BufferView) (start stop : Nat) : Bytes :=
  Pieces.slice view.raw (start * view.rowBytes) (stop * view.rowBytes)

/-- `build_manifest`; `len` of a view is the length of its first dimension, and
there is none without a dimension. -/
def buildManifest [Library] (view : BufferView) (name : Str) (shardSize : Int) :
    Except Exc ShardManifest := do
  if name = [] then valueError (str "name must be a non-empty string")
  else if shardSize ≤ 0 then valueError (str "shard_size must be positive")
  else
    match view.shape with
    | [] => .error ⟨.typeError, str "0-dim memory has no length"⟩
    | totalSize :: _ =>
      let shardSize := shardSize.toNat
      let shardCount := shardCountOf totalSize shardSize
      let shardChecksums := (List.range shardCount).map fun index =>
        let (start, stop) := manifestSpan shardSize totalSize index
        hexdigest (view.slice start stop)
      let root ← merkleRoot shardChecksums
      return { name, totalSize, shardSize, shardCount, checksum := hexdigest view.raw
               shardChecksums, merkleRoot := some root }

/-- `len(view)` counts bytes. -/
def CountsBytes (view : BufferView) : Prop := view.shape.head? = some view.raw.length

theorem countsBytes_ofBytes (data : Bytes) : (ofBytes data).CountsBytes := rfl

theorem length_raw_rows {view : BufferView} {rows : Nat} (h : view.shape.head? = some rows) :
    view.raw.length = rows * view.rowBytes := by
  obtain ⟨rest, hshape⟩ := List.head?_eq_some_iff.mp h
  rw [view.length_raw, rowBytes, hshape, List.prod_cons, List.tail_cons, Nat.mul_assoc]

/-- With as many bytes as rows the shards are those of the bytes. -/
theorem slice_of_countsBytes {view : BufferView} (h : view.CountsBytes) (start stop : Nat) :
    view.slice start stop = Pieces.slice view.raw start stop := by
  have hrows := length_raw_rows h
  rcases Nat.eq_zero_or_pos view.raw.length with hempty | hpos
  · have hnil : view.raw = [] := List.eq_nil_of_length_eq_zero hempty
    simp only [slice, Pieces.slice, hnil, List.take_nil, List.drop_nil]
  · have hone : view.rowBytes = 1 := by
      apply Nat.eq_of_mul_eq_mul_left hpos
      rw [← hrows, Nat.mul_one]
    rw [slice, hone, Nat.mul_one, Nat.mul_one]

section
variable [Library]

theorem buildManifest_eq_ok {view : BufferView} {name : Str} {shardSize : Int} {m : ShardManifest}
    (h : view.buildManifest name shardSize = .ok m) :
    0 < shardSize ∧ ∃ rows root, view.shape.head? = some rows ∧ m =
      { name, totalSize := rows, shardSize := shardSize.toNat
        shardCount := shardCountOf rows shardSize.toNat, checksum := hexdigest view.raw
        shardChecksums := (List.range (shardCountOf rows shardSize.toNat)).map fun index =>
          hexdigest (view.slice (manifestSpan shardSize.toNat rows index).1
            (manifestSpan shardSize.toNat rows index).2)
        merkleRoot := some root } := by
  unfold buildManifest at h
  split_ifs at h with hname hsize
  cases hshape : view.shape with
  | nil =>
    rw [hshape] at h
    cases h
  | cons rows rest =>
    rw [hshape] at h
    obtain ⟨root, -, hm⟩ := bind_eq_ok.mp h
    obtain rfl := Except.ok.inj hm
    exact ⟨by omega, rows, root, rfl, rfl⟩

theorem buildManifest_total {view : BufferView} {name : Str} (hname : name ≠ []) {shardSize : Int}
    (hsize : 0 < shardSize) {rows : Nat} (hrows : view.shape.head? = some rows) :
    ∃ m, view.buildManifest name shardSize = .ok m := by
  obtain ⟨rest, hshape⟩ := List.head?_eq_some_iff.mp hrows
  obtain ⟨root, hroot⟩ := ShardManifest.merkleRoot_digests
    ((List.range (shardCountOf rows shardSize.toNat)).map fun index =>
      (blake3 (view.slice (manifestSpan shardSize.toNat rows index).1
        (manifestSpan shardSize.toNat rows index).2)).bytes)
  have hpos : ¬ shardSize ≤ 0 := by omega
  simp only [List.map_map, Function.comp_def] at hroot
  rw [buildManifest, if_neg hname, if_neg hpos, hshape]
  simp only [hexdigest, Digest.hex, hroot, bind, Except.bind]
  exact ⟨_, rfl⟩

/-- Where `len(view)` counts bytes, so does the manifest. -/
theorem buildManifest_of_countsBytes {view : BufferView} (h : view.CountsBytes) (name : Str)
    (shardSize : Int) :
    view.buildManifest name shardSize = Litecast.buildManifest name view.raw shardSize := by
  obtain ⟨rest, hshape⟩ := List.head?_eq_some_iff.mp h
  rw [buildManifest, Litecast.buildManifest, hshape]
  simp only [slice_of_countsBytes h, manifestSlice]

end

end BufferView

/-! ## The distribution file of any origin -/

/-- The new version is among those taken out again only if none is kept. -/
theorem mem_prunedVersions_new {d : Distribution} {version : Str} {listing : Listing}
    {maxVersions : Nat} (hlast : ∀ name ∈ d.keys, versionKey name < versionKey version) :
    version ∈ prunedVersions (d.insert version listing) maxVersions ↔ maxVersions = 0 := by
  have habsent : version ∉ d.keys := fun h => Nat.lt_irrefl _ (hlast version h)
  have hkeys : (d.insert version listing).keys = d.keys ++ [version] := keys_insert_of_absent habsent
  have hlength : (d.insert version listing).keys.length = (d.insert version listing).length := by
    rw [OrderedDict.keys, List.length_map, OrderedDict.length]
  have hpositive : 0 < (d.insert version listing).length := by
    rw [← hlength, hkeys, List.length_append, List.length_singleton]
    exact Nat.succ_pos _
  have hmem : version ∈ (d.insert version listing).keys := by
    rw [hkeys]
    exact List.mem_append_right _ (List.mem_singleton.mpr rfl)
  rw [prunedVersions]
  constructor
  · intro hpruned
    by_contra hkeeps
    split_ifs at hpruned with hmore
    · generalize hcount : (d.insert version listing).length - maxVersions = count at hpruned
      have hsorted := List.pairwise_insertionSort
        (fun a b => versionKey a ≤ versionKey b) (d.insert version listing).keys
      have hperm := List.perm_insertionSort
        (fun a b => versionKey a ≤ versionKey b) (d.insert version listing).keys
      have hnodup := hperm.nodup_iff.mpr (d.insert version listing).nodup
      generalize (d.insert version listing).keys.insertionSort
        (fun a b => versionKey a ≤ versionKey b) = sorted at hpruned hsorted hperm hnodup
      -- something stands behind it, and nothing that does is newer
      have hbehind : sorted.drop count ≠ [] := by
        intro hnil
        have hle := List.drop_eq_nil_iff.mp hnil
        rw [hperm.length_eq, hlength] at hle
        omega
      obtain ⟨later, hlater⟩ := List.exists_mem_of_ne_nil _ hbehind
      rw [← List.take_append_drop count sorted] at hsorted hnodup
      have hle := (List.pairwise_append.mp hsorted).2.2 version hpruned later hlater
      have hthere := hperm.subset (List.mem_of_mem_drop hlater)
      rw [hkeys, List.mem_append, List.mem_singleton] at hthere
      rcases hthere with hold | rfl
      · exact absurd (hlast later hold) (Nat.not_lt.mpr hle)
      · exact List.disjoint_of_nodup_append hnodup hpruned hlater
    · cases hpruned
  · rintro rfl
    rw [if_pos hpositive, Nat.sub_zero, List.take_of_length_le]
    · exact (List.mem_insertionSort _).mpr hmem
    · rw [List.length_insertionSort, hlength]

namespace OriginServer

/-- What `announce` leaves of the new version. -/
theorem announce_new {s : OriginServer} {version : Str} (listing : Listing) {evicted : List Str}
    (mirror : Bool) (hlast : ∀ name ∈ s.distribution.keys, versionKey name < versionKey version)
    (hnot : version ∉ evicted) :
    (1 ≤ s.maxDistributionFolders ∧
      (s.announce version listing evicted mirror).store.versions.get? version =
        s.store.versions.get? version ∧
      (s.announce version listing evicted mirror).directories.get? version =
        s.directories.get? version) ∨
    (s.maxDistributionFolders = 0 ∧
      (s.announce version listing evicted mirror).store.versions.get? version = none) := by
  obtain ⟨updated, removed, hupdated⟩ : ∃ updated removed, updateDistributionFile s.distribution
      version listing s.maxDistributionFolders = (updated, removed) := ⟨_, _, rfl⟩
  have hremoved : version ∈ removed ↔ s.maxDistributionFolders = 0 := by
    rw [updateDistributionFile] at hupdated
    obtain ⟨-, rfl⟩ := Prod.mk.inj hupdated
    exact mem_prunedVersions_new hlast
  let before := if mirror then { s with distribution := updated }
    else dropEvicted { s with distribution := updated } evicted
  have hbefore : s.announce version listing evicted mirror = before.removePruned removed := by
    rw [announce, hupdated]
  have hstore : before.store = s.store := by cases mirror <;> rfl
  have hdirectory : before.directories.get? version = s.directories.get? version := by
    cases mirror with
    | true => rfl
    | false => exact OrderedDict.get?_foldl_erase_of_not_mem hnot s.directories
  obtain ⟨hgone, hkept, -⟩ := removePruned_spec removed before
  obtain ⟨hdirectories, -⟩ := removePruned_frame removed before
  rw [hbefore]
  by_cases hnone : s.maxDistributionFolders = 0
  · exact Or.inr ⟨hnone, hgone version (hremoved.mpr hnone)⟩
  · have hspared : version ∉ removed := mt hremoved.mp hnone
    refine Or.inl ⟨Nat.one_le_iff_ne_zero.mpr hnone, ?_, ?_⟩
    · rw [hkept version hspared, hstore]
    · rw [hdirectories, OrderedDict.get?_foldl_erase_of_not_mem hspared, hdirectory]

/-! ## Publishing a view -/

section
variable [Library]

/-- What `broadcast_buffer` does once the manifest is built. -/
def publishManifest (s : OriginServer) (shardManifest : ShardManifest) (data : Bytes)
    (shardSize : Int) (mirror : Bool) : Outcome :=
  let version := s.nextVersion
  match s.store.putVerified version data shardSize shardManifest.checksum
      shardManifest.shardChecksums with
  | (.error e, store) => (.error e, { s with store })
  | (.ok metadata, store) =>
    let evicted := capacityEvictions s.store store
    let s := { s with store }.ensureDir version
    match shardManifest.toBytes, mirrorFiles store version metadata.shardCount mirror with
    | .error e, _ => (.error e, s)
    | _, .error e => (.error e, s)
    | .ok manifest, .ok shards =>
      let directory : VersionDirectory := { manifest := some manifest, shards }
      let s := { s with directories := s.directories.insert version directory }
      (.ok version, s.announce version ⟨metadata.checksum, metadata.shardCount⟩ evicted mirror)

/-- `broadcast_buffer` of a view; the store takes its bytes. -/
def broadcastView (s : OriginServer) (view : BufferView) (shardSize : Int)
    (diskMirror : Option Bool) : Outcome :=
  match view.buildManifest s.nextVersion shardSize with
  | .error e => (.error e, s)
  | .ok shardManifest =>
    s.publishManifest shardManifest view.raw shardSize (diskMirror.getD s.diskMirror)

theorem broadcastView_of_countsBytes {view : BufferView} (h : view.CountsBytes) (s : OriginServer)
    (shardSize : Int) (diskMirror : Option Bool) :
    s.broadcastView view shardSize diskMirror = s.broadcastBuffer view.raw shardSize diskMirror := by
  rw [broadcastView, BufferView.buildManifest_of_countsBytes h, broadcastBuffer]
  cases buildManifest s.nextVersion view.raw shardSize with
  | error e => rfl
  | ok m => rfl

/-- Of `bytes` it is the broadcast of these bytes. -/
theorem broadcastView_ofBytes (s : OriginServer) (data : Bytes) (shardSize : Int)
    (diskMirror : Option Bool) :
    s.broadcastView (.ofBytes data) shardSize diskMirror =
      s.broadcastBuffer data shardSize diskMirror :=
  broadcastView_of_countsBytes (BufferView.countsBytes_ofBytes data) s shardSize diskMirror

/-- The call returns: the size is positive, `len(view)` makes as many shards as
the bytes do, RAM has room for these, and the manifest is written in full. -/
def Publishes (s : OriginServer) (view : BufferView) (shardSize : Int) : Prop :=
  0 < shardSize ∧ view.raw.length ≤ s.store.capacity ∧
    (∃ rows, view.shape.head? = some rows ∧ shardCountOf rows shardSize.toNat =
      shardCountOf view.raw.length shardSize.toNat) ∧
    ∃ m raw, view.buildManifest s.nextVersion shardSize = .ok m ∧ m.toBytes = .ok raw

/-- The version in full in RAM and its manifest in its directory, to be
announced. -/
structure ReadyToAnnounce (s t : OriginServer) (view : BufferView) (shardSize : Int)
    (m : ShardManifest) : Prop where
  built : view.buildManifest s.nextVersion shardSize = .ok m
  inserted : Inserted s t view.raw shardSize
  written : ∃ directory raw, t.directories.get? s.nextVersion = some directory ∧
    directory.manifest = some raw ∧ m.toBytes = .ok raw
  held : ∃ v, t.store.versions.get? s.nextVersion = some v ∧ v.data = some view.raw ∧
    v.metadata = s.nextMetadata view.raw shardSize

theorem broadcastView_end {s : OriginServer} (hs : s.Stocked) (view : BufferView) (shardSize : Int)
    (diskMirror : Option Bool) :
    (¬ s.Publishes view shardSize ∧
      ∃ e, (s.broadcastView view shardSize diskMirror).1 = .error e) ∨
    (s.Publishes view shardSize ∧ ∃ t m listing, ReadyToAnnounce s t view shardSize m ∧
      s.broadcastView view shardSize diskMirror = (.ok s.nextVersion, t.announce s.nextVersion
        listing (capacityEvictions s.store t.store) (diskMirror.getD s.diskMirror))) := by
  rw [broadcastView]
  generalize diskMirror.getD s.diskMirror = mirror
  cases hm : view.buildManifest s.nextVersion shardSize with
  | error e =>
    refine Or.inl ⟨?_, e, rfl⟩
    rintro ⟨-, -, -, m, -, hbuilt, -⟩
    rw [hm] at hbuilt
    cases hbuilt
  | ok m =>
    obtain ⟨hsize, rows, root, hrows, hfields⟩ := BufferView.buildManifest_eq_ok hm
    have hdigests : ∀ checksum ∈ m.shardChecksums, checksum.length = 64 := by
      rw [hfields]
      intro checksum hchecksum
      obtain ⟨index, -, rfl⟩ := List.mem_map.mp hchecksum
      exact length_hexdigest _
    have hnumber : m.shardChecksums.length = shardCountOf rows shardSize.toNat := by
      rw [hfields, List.length_map, List.length_range]
    have hchecksum : m.checksum = hexdigest view.raw := by rw [hfields]
    simp only [publishManifest, hchecksum]
    rcases putVerified_digests hs view.raw hsize hdigests with
      ⟨hlarge, e, hput⟩ | ⟨-, ⟨-, hcount⟩, e, hput⟩ | ⟨hfits, hcount, store, hput, hstored, hheld⟩
    · rw [hput]
      refine Or.inl ⟨?_, e, rfl⟩
      rintro ⟨-, hfits, -⟩
      exact absurd hlarge (Nat.not_lt.mpr hfits)
    · rw [hput]
      refine Or.inl ⟨?_, e, rfl⟩
      rintro ⟨-, -, ⟨rows', hrows', hsame⟩, -⟩
      rw [hrows] at hrows'
      obtain rfl := Option.some.inj hrows'
      exact hcount (hnumber.trans hsame)
    · have hsame : shardCountOf rows shardSize.toNat =
          shardCountOf view.raw.length shardSize.toNat := by
        by_cases hnone : m.shardChecksums = []
        · have hrowless : rows = 0 := by
            apply eq_zero_of_shardCountOf (Int.lt_toNat.mpr (by simpa using hsize))
            rw [← hnumber, hnone, List.length_nil]
          rw [BufferView.length_raw_rows hrows, hrowless, Nat.zero_mul]
        · by_contra hne
          exact hcount ⟨hnone, hnumber ▸ hne⟩
      obtain ⟨files, hfiles, -⟩ := mirrorFiles_of_stored hstored mirror
      obtain ⟨hstore, hlines, hfolders, -, -⟩ := ensureDir_frame { s with store } s.nextVersion
      rw [hput]
      simp only
      generalize ({ s with store } : OriginServer).ensureDir s.nextVersion = base
        at hstore hlines hfolders
      simp only [nextMetadata, hfiles]
      cases hraw : m.toBytes with
      | error e =>
        refine Or.inl ⟨?_, e, rfl⟩
        rintro ⟨-, -, -, m', raw, hm', hraw'⟩
        rw [hm] at hm'
        obtain rfl := Except.ok.inj hm'
        rw [hraw] at hraw'
        cases hraw'
      | ok raw =>
        refine Or.inr ⟨⟨hsize, hfits, ⟨rows, hrows, hsame⟩, m, raw, hm, hraw⟩, ?_⟩
        let directory : VersionDirectory := { manifest := some raw, shards := files }
        refine ⟨{ base with directories := base.directories.insert s.nextVersion directory }, m, _,
          ⟨hm, ⟨hstore ▸ hstored, hlines, hfolders⟩, ?_, ?_⟩, by simp only [hstore]; rfl⟩
        · exact ⟨directory, raw, by rw [OrderedDict.get?_insert, if_pos rfl], rfl, hraw⟩
        · rw [hstore]
          exact hheld

/-! ## What the manifest says of the store -/

/-- The manifest in the directory of the version and what the store has of it
agree, and each digest is that of a shard the store gives out. -/
def ManifestAgrees (t : OriginServer) (version : Str) (m : ShardManifest) : Prop :=
  (∃ directory raw, t.directories.get? version = some directory ∧
    directory.manifest = some raw ∧ m.toBytes = .ok raw) ∧
  (∃ v, t.store.versions.get? version = some v ∧ v.metadata.totalSize = m.totalSize ∧
    v.metadata.shardSize = m.shardSize ∧ v.metadata.shardCount = m.shardCount ∧
    v.metadata.checksum = m.checksum) ∧
  ∀ index < m.shardCount, ∃ shard, t.store.getShard version index = .ok shard ∧
    m.shardChecksums[index]? = some (hexdigest shard)

/-- If the call returns, the manifest it built agrees with the store. -/
def ReturnsAgreeing (s : OriginServer) (view : BufferView) (shardSize : Int)
    (diskMirror : Option Bool) : Prop :=
  ∀ version t, s.broadcastView view shardSize diskMirror = (.ok version, t) →
    ∃ m, view.buildManifest version shardSize = .ok m ∧ t.ManifestAgrees version m

theorem ReadyToAnnounce.agrees (hlower : ∀ data, lower (hexdigest data) = hexdigest data)
    {s t u : OriginServer} {view : BufferView} {shardSize : Int} {m : ShardManifest}
    (h : ReadyToAnnounce s t view shardSize m) (hcounts : view.CountsBytes)
    (hstore : u.store.versions.get? s.nextVersion = t.store.versions.get? s.nextVersion)
    (hdirectory : u.directories.get? s.nextVersion = t.directories.get? s.nextVersion) :
    u.ManifestAgrees s.nextVersion m := by
  obtain ⟨v, hget, hdata, hmetadata⟩ := h.held
  have hbuilt := h.built
  rw [BufferView.buildManifest_of_countsBytes hcounts] at hbuilt
  obtain ⟨-, -, root, -, rfl⟩ := ShardManifest.buildManifest_eq_ok hbuilt
  refine ⟨?_, ⟨v, hstore.trans hget, ?_, ?_, ?_, ?_⟩, ?_⟩
  · rw [hdirectory]
    exact h.written
  · rw [hmetadata, nextMetadata]
  · rw [hmetadata, nextMetadata]
  · rw [hmetadata, nextMetadata]
  · rw [hmetadata, nextMetadata, hlower]
  · intro index hindex
    have htotal : v.metadata.totalSize = view.raw.length := by rw [hmetadata, nextMetadata]
    have hcount : index < v.metadata.shardCount := by
      rw [hmetadata, nextMetadata]
      exact hindex
    have hshard := CheckpointStore.getShard_of_data (hstore.trans hget) hdata htotal index hcount
    refine ⟨_, hshard, ?_⟩
    simp only [hmetadata, nextMetadata, List.getElem?_map, List.getElem?_range hindex,
      Option.map_some, manifestSlice_eq_piece]

theorem returnsAgreeing_iff (hlower : ∀ data, lower (hexdigest data) = hexdigest data)
    {s : OriginServer} (hs : s.Stocked) (view : BufferView) (shardSize : Int)
    (diskMirror : Option Bool) :
    s.ReturnsAgreeing view shardSize diskMirror ↔
      (s.Publishes view shardSize → 1 ≤ s.maxDistributionFolders ∧ view.CountsBytes) := by
  rcases broadcastView_end hs view shardSize diskMirror with
    ⟨hnot, e, herror⟩ | ⟨hpublishes, t, m, listing, hready, houtcome⟩
  · constructor
    · exact fun _ hpublishes => absurd hpublishes hnot
    · intro _ version t houtcome
      rw [houtcome] at herror
      cases herror
  · have hfolders := hready.inserted.folders
    have hlast : ∀ name ∈ t.distribution.keys, versionKey name < versionKey s.nextVersion := by
      rw [hready.inserted.lines]
      exact fun name hname => Orderly.listed_older hname
    have hnew := announce_new listing (diskMirror.getD s.diskMirror) hlast
      (hready.inserted.spares_next hs)
    constructor
    · intro hagreeing _
      obtain ⟨m', hbuilt, -, ⟨v, hv, htotal, -⟩, -⟩ := hagreeing _ _ houtcome
      rw [hready.built] at hbuilt
      obtain rfl := Except.ok.inj hbuilt
      rcases hnew with ⟨hkeeps, hstore, -⟩ | ⟨-, hnone⟩
      · refine ⟨hfolders ▸ hkeeps, ?_⟩
        obtain ⟨v', hget, -, hmetadata⟩ := hready.held
        rw [hstore, hget] at hv
        obtain rfl := Option.some.inj hv
        obtain ⟨-, rows, root, hrows, rfl⟩ := BufferView.buildManifest_eq_ok hready.built
        rw [hmetadata] at htotal
        rw [BufferView.CountsBytes, hrows]
        exact congrArg some htotal.symm
      · rw [hnone] at hv
        cases hv
    · intro hcondition version u hu
      obtain ⟨hkeeps, hcounts⟩ := hcondition hpublishes
      rw [houtcome] at hu
      obtain ⟨hversion, rfl⟩ := Prod.mk.inj hu
      obtain rfl := Except.ok.inj hversion
      rcases hnew with ⟨-, hstore, hdirectory⟩ | ⟨hzero, -⟩
      · exact ⟨m, hready.built, hready.agrees hlower hcounts hstore hdirectory⟩
      · omega

/-- **A manifest agrees with the store exactly when `len` counts bytes.** After
any run, a broadcast of a contiguous buffer that returns has written a manifest
with the sizes, the count and the digests of what the store holds if the length
of the first dimension is the number of bytes, and the origin keeps a version at
all. -/
theorem manifest_agrees_iff (hlower : ∀ data, lower (hexdigest data) = hexdigest data)
    (maxDistributionFolders ramCacheBytes : Nat) (mirrors : Bool) (events : List Event)
    (view : BufferView) (shardSize : Int) (diskMirror : Option Bool) :
    let s := (events.foldl Publications.step
      { origin := new maxDistributionFolders mirrors ramCacheBytes }).origin
    s.ReturnsAgreeing view shardSize diskMirror ↔
      (s.Publishes view shardSize → 1 ≤ s.maxDistributionFolders ∧ view.CountsBytes) :=
  returnsAgreeing_iff hlower (stocked_run _ _ _ events) view shardSize diskMirror

end

/-- Two rows of three bytes, in one shard in rows and in bytes, and the six bytes
themselves. -/
theorem manifest_agrees_iff_two_rows :
    letI := asciiLibrary
    let rows : BufferView :=
      { shape := [2, 3], itemSize := 1, raw := [1, 2, 3, 4, 5, 6], length_raw := rfl }
    let s := ([.call (.buffer [9] 1 none) {}].foldl Publications.step
      { origin := new 5 false 8 }).origin
    (s.broadcastView (.ofBytes rows.raw) 2 none).1 = .ok (str "v2") ∧
      s.ReturnsAgreeing (.ofBytes rows.raw) 2 none ∧ ¬ s.ReturnsAgreeing rows 6 none := by
  let _ := asciiLibrary
  intro rows s
  have hlower (data : Bytes) : lower (hexdigest data) = hexdigest data := asciiLower_hex _
  have hiff (view : BufferView) (shardSize : Int) :=
    manifest_agrees_iff hlower 5 8 false [.call (.buffer [9] 1 none) {}] view shardSize none
  refine ⟨by decide +kernel, ?_, fun hagrees => ?_⟩
  · exact (hiff _ 2).mpr fun _ => ⟨by decide +kernel, BufferView.countsBytes_ofBytes _⟩
  · obtain ⟨hcapacity, hnext⟩ : s.store.capacity = 8 ∧ s.nextVersion = str "v2" := by
      decide +kernel
    have hpublishes : s.Publishes rows 6 := by
      rw [Publishes, hcapacity, hnext]
      exact ⟨by decide, by decide, ⟨2, rfl, by decide⟩, _, _, rfl,
        ShardManifest.toBytes_of_le (by decide +kernel)⟩
    have hcounts := ((hiff rows 6).mp hagrees hpublishes).2
    cases hcounts

/-- One row of two bytes in shards of two: one shard in rows and in bytes. -/
theorem rows_are_not_bytes :
    letI := asciiLibrary
    ¬ ∀ (maxDistributionFolders ramCacheBytes : Nat) (mirrors : Bool) (events : List Event)
      (view : BufferView) (shardSize : Int) (diskMirror : Option Bool),
        let s := (events.foldl Publications.step
          { origin := new maxDistributionFolders mirrors ramCacheBytes }).origin
        s.ReturnsAgreeing view shardSize diskMirror := by
  intro claim
  let _ := asciiLibrary
  let view : BufferView := { shape := [1, 2], itemSize := 1, raw := [1, 0], length_raw := rfl }
  let outcome := (new 5 false 8).broadcastView view 2 none
  obtain ⟨hreturned, hbytes⟩ : outcome.1 = .ok (str "v1") ∧
      (outcome.2.store.versions.get? (str "v1")).all
        (fun v => v.metadata.totalSize = 2) = true := by
    decide +kernel
  obtain ⟨m, hbuilt, -, ⟨v, hv, htotal, -⟩, -⟩ :=
    claim 5 8 false [] view 2 none (str "v1") outcome.2 (Prod.ext hreturned rfl)
  obtain ⟨-, rows, root, hrows, rfl⟩ := BufferView.buildManifest_eq_ok hbuilt
  obtain rfl := Option.some.inj hrows
  rw [hv, Option.all_some, decide_eq_true_eq, htotal] at hbytes
  cases hbytes

end OriginServer

end Litecast
