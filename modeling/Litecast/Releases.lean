import Litecast.Boundaries
import Litecast.VersionNumbers

/-! What an origin still has of the versions it published. -/

namespace Litecast.Releases

open OriginServer

/-- A version with what was published under its name. -/
structure Release where
  version : Str
  payload : Bytes
  shardSize : Nat
  deriving DecidableEq

def Release.shardCount (r : Release) : Nat := shardCountOf r.payload.length r.shardSize

section
variable [Library]

/-- What there is of a release is what was published: its line, the copy in RAM
and the shard files. -/
structure Intact (s : OriginServer) (r : Release) : Prop where
  line : ∀ listing, s.distribution.get? r.version = some listing →
    listing = ⟨hexdigest r.payload, r.shardCount⟩
  ram : ∀ v, s.store.versions.get? r.version = some v →
    InRam s.store r.version r.payload r.shardSize v
  disk : ∀ directory, s.directories.get? r.version = some directory → ∀ index shard,
    directory.shards.get? index = some shard → shard = Pieces.piece r.shardSize r.payload index

variable {s t : OriginServer} {r : Release}

omit [Library] in
/-- Announcing a version makes no directory. -/
theorem get?_directories_announce {version name : Str} {listing : Listing} {evicted : List Str}
    {mirror : Bool} {directory : VersionDirectory}
    (h : (s.announce version listing evicted mirror).directories.get? name = some directory) :
    s.directories.get? name = some directory := by
  have herase {gone : List Str} {directories : OrderedDict Str VersionDirectory}
      (h : (gone.foldl OrderedDict.erase directories).get? name = some directory) :
      directories.get? name = some directory := by
    by_cases hgone : name ∈ gone
    · rw [OrderedDict.get?_foldl_erase_of_mem hgone] at h
      cases h
    · rwa [OrderedDict.get?_foldl_erase_of_not_mem hgone] at h
  rw [announce] at h
  simp only [(removePruned_frame _ _).1] at h
  have hbefore := herase h
  split at hbefore
  · exact hbefore
  · exact herase hbefore

/-- What there is of `name` in one origin there is in another. -/
structure Less (s t : OriginServer) (name : Str) : Prop where
  line : ∀ listing, t.distribution.get? name = some listing →
    s.distribution.get? name = some listing
  ram : ∀ v, t.store.versions.get? name = some v → s.store.versions.get? name = some v
  disk : ∀ directory, t.directories.get? name = some directory →
    s.directories.get? name = some directory

theorem Intact.of_less (h : Intact s r) (hless : Less s t r.version) : Intact t r where
  line := fun listing hlisted => h.line listing (hless.line listing hlisted)
  ram := by
    intro v hv
    have hram := h.ram v (hless.ram v hv)
    exact ⟨hv, hram.data, hram.totalSize, hram.shardCount, hram.shardSize⟩
  disk := fun directory hthere => h.disk directory (hless.disk directory hthere)

omit [Library] in
theorem get?_directories_ensureDir {version name : Str} (hne : name ≠ version) :
    (s.ensureDir version).directories.get? name = s.directories.get? name :=
  (ensureDir_frame s version).2.2.2.2 name hne

/-- A call leaves no more of another version on disk than there was. -/
theorem directories_call (c : Call) {name : Str} (hne : name ≠ s.nextVersion)
    {directory : VersionDirectory} (h : (s.call c).directories.get? name = some directory) :
    s.directories.get? name = some directory := by
  have hbuffer (buffer : Bytes) (shardSize : Int) (diskMirror : Option Bool)
      (h : (s.broadcastBuffer buffer shardSize diskMirror).2.directories.get? name =
        some directory) : s.directories.get? name = some directory := by
    rw [OriginServer.broadcastBuffer] at h
    split at h
    · exact h
    split at h
    · exact h
    next metadata store _ =>
      have hensured := get?_directories_ensureDir (s := { s with store }) hne
      simp only at h
      split at h
      · rwa [hensured] at h
      · rwa [hensured] at h
      · have hwritten := get?_directories_announce h
        rwa [OrderedDict.get?_insert, if_neg hne, hensured] at hwritten
  rw [OriginServer.call] at h
  cases c with
  | buffer data shardSize diskMirror => exact hbuffer data shardSize diskMirror h
  | file data shardSize =>
    cases data with
    | none => exact h
    | some data =>
      rw [Call.run, broadcast] at h
      split_ifs at h with hfits
      · exact hbuffer data shardSize (some true) h
      · rw [broadcastLarge] at h
        simp only at h
        split_ifs at h
        · rwa [get?_directories_ensureDir hne] at h
        · have hwritten := get?_directories_announce h
          rwa [OrderedDict.get?_insert, if_neg hne, get?_directories_ensureDir hne] at hwritten

omit [Library] in
theorem less_of_broadcasted {version name : Str} {evicts drops : Str → Prop}
    (hrest : Broadcasted s t version evicts drops) (hne : name ≠ version)
    (hdisk : ∀ directory, t.directories.get? name = some directory →
      s.directories.get? name = some directory) : Less s t name where
  line := fun listing hlisted => (hrest.line_before hne hlisted).2
  ram := by
    intro v hv
    have hspared : ¬ evicts name := by
      intro hevicted
      rw [hrest.storeGone name hne hevicted] at hv
      cases hv
    rwa [hrest.storeKept name hne hspared] at hv
  disk := hdisk

/-- A call publishes at most the next version. -/
theorem less_call (hs : s.Orderly) (c : Call) {name : Str} (hne : name ≠ s.nextVersion) :
    Less s (s.call c) name := by
  have hdisk : ∀ directory, (s.call c).directories.get? name = some directory →
      s.directories.get? name = some directory := fun _ => directories_call c hne
  cases call_case hs c with
  | ram data shardSize mirror through ends =>
    rw [OriginServer.call] at hdisk ⊢
    generalize c.run s = outcome at ends hdisk ⊢
    cases ends with
    | refused => exact ⟨fun _ h => h, fun _ h => h, fun _ h => h⟩
    | halted _ _ _ _ _ _ _ rest => exact less_of_broadcasted rest hne hdisk
    | published _ _ _ _ _ _ rest => exact less_of_broadcasted rest hne hdisk
  | disk _ _ _ _ _ _ filed => exact less_of_broadcasted filed.rest hne hdisk
  | stopped _ _ _ store lines directories =>
    exact ⟨fun _ h => lines ▸ h, fun _ h => store ▸ h, hdisk⟩

theorem Intact.call (h : Intact s r) (hs : s.Orderly) (hne : r.version ≠ s.nextVersion)
    (c : Call) : Intact (s.call c) r :=
  h.of_less (less_call hs c hne)

theorem Intact.restart (h : Intact s r) (maxDistributionFolders : Nat) (diskMirror : Bool)
    (ramCacheBytes : Nat) :
    Intact (s.restart maxDistributionFolders diskMirror ramCacheBytes) r := by
  apply h.of_less
  refine ⟨fun _ hlisted => hlisted, ?_, fun _ hthere => hthere⟩
  intro v hv
  cases hv

/-- The shard files beside a version published from RAM are its pieces. -/
theorem published_files (hs : s.Orderly) {buffer : Bytes} {shardSize : Int}
    {diskMirror : Option Bool} {version : Str}
    (h : (s.broadcastBuffer buffer shardSize diskMirror).1 = .ok version) {index : Nat}
    {directory : VersionDirectory} {shard : Bytes}
    (hdirectory : (s.broadcastBuffer buffer shardSize diskMirror).2.directories.get? version =
      some directory) (hshard : directory.shards.get? index = some shard) :
    shard = Pieces.piece shardSize.toNat buffer index := by
  rw [OriginServer.broadcastBuffer] at h hdirectory
  cases hm : buildManifest s.nextVersion buffer shardSize with
  | error e =>
    simp only [hm] at h
    cases h
  | ok m =>
    simp only [hm] at h hdirectory
    rcases putVerified_built hs.stocked hm with
      ⟨-, e, hput⟩ | ⟨-, metadata, store, hput, hcount, -, hstored⟩
    · simp only [hput] at h
      cases h
    · obtain ⟨files, hfiles, hpieces⟩ :=
        mirrorFiles_of_stored hstored (diskMirror.getD s.diskMirror)
      simp only [hput, hcount, hfiles] at h hdirectory
      cases hraw : m.toBytes with
      | error e =>
        simp only [hraw] at h
        cases h
      | ok raw =>
        simp only [hraw] at h hdirectory
        obtain rfl := Except.ok.inj h
        have hwritten := get?_directories_announce hdirectory
        rw [OrderedDict.get?_insert, if_pos rfl] at hwritten
        obtain rfl := Option.some.inj hwritten
        rw [hpieces] at hshard
        split_ifs at hshard
        exact (Option.some.inj hshard).symm

/-- What goes through RAM is broadcast from there. -/
theorem run_of_inRam {c : Call} {data : Bytes} {shardSize : Int} {mirror : Bool}
    (h : c.inRam s = some (data, shardSize, mirror)) :
    data = c.payload ∧ shardSize = c.shardSize ∧
      ∃ diskMirror, c.run s = s.broadcastBuffer c.payload c.shardSize diskMirror := by
  cases c with
  | buffer data' shardSize' diskMirror =>
    obtain ⟨rfl, rfl, -⟩ := by simpa [Call.inRam] using h
    exact ⟨rfl, rfl, diskMirror, rfl⟩
  | file data' shardSize' =>
    cases data' with
    | none => cases h
    | some data' =>
      simp only [Call.inRam] at h
      split_ifs at h with hfits
      obtain ⟨rfl, rfl, -⟩ := by simpa using h
      refine ⟨rfl, rfl, some true, ?_⟩
      rw [Call.run, broadcast, if_pos hfits]
      rfl

/-- A call that returns has published its payload. -/
theorem call_intact (hlower : ∀ data, lower (hexdigest data) = hexdigest data) (hs : s.Orderly)
    {c : Call} {version : Str} (h : (c.run s).1 = .ok version) (hsize : 0 < c.shardSize) :
    Intact (s.call c) ⟨version, c.payload, c.shardSize.toNat⟩ := by
  cases call_case hs c with
  | ram data shardSize mirror through ends =>
    obtain ⟨rfl, rfl, diskMirror, hrun⟩ := run_of_inRam through
    have hfiles {index : Nat} {directory : VersionDirectory} {shard : Bytes} :=
      @published_files _ s hs c.payload c.shardSize diskMirror version (hrun ▸ h) index directory
        shard
    rw [← hrun] at hfiles
    rw [OriginServer.call]
    generalize c.run s = outcome at ends h hfiles ⊢
    cases ends with
    | refused => cases h
    | halted => cases h
    | published t size fits written held line rest =>
      obtain rfl := Except.ok.inj h
      obtain ⟨v, hv⟩ := held
      constructor
      · intro listing hlisted
        obtain rfl := Option.some.inj (hlisted.symm.trans line)
        rw [hlower]
        rfl
      · intro v' hv'
        obtain rfl := Option.some.inj (hv'.symm.trans hv.get)
        exact hv
      · intro directory hdirectory index shard hshard
        exact hfiles hdirectory hshard
  | disk data shardSize given nonzero aside returned filed =>
    subst given
    obtain rfl := Except.ok.inj (returned.symm.trans h)
    obtain ⟨directory, hdirectory, hshards⟩ := filed.files
    have hpos : 0 < shardSize := hsize
    constructor
    · intro listing hlisted
      obtain rfl := Option.some.inj (hlisted.symm.trans filed.line)
      rw [fileShardCount_of_pos hpos]
      rfl
    · intro v hv
      cases hv.symm.trans filed.absent
    · intro directory' hdirectory' index shard hshard
      obtain rfl := Option.some.inj (hdirectory'.symm.trans hdirectory)
      have hread : readSize data shardSize = shardSize.toNat :=
        if_neg (Int.not_lt.mpr hpos.le)
      rw [hshards, get?_fileShards, hread] at hshard
      split_ifs at hshard
      exact (Option.some.inj hshard).symm
  | stopped _ raised =>
    obtain ⟨e, he⟩ := raised
    cases he.symm.trans h

/-! ## What a client is served -/

/-- What a `GET` of a shard file gets of a release is its piece. -/
theorem served_piece (h : Intact s r) {index : Nat} (hindex : index < r.shardCount)
    {shard : Bytes} (hserved : servedShard s.store s.directories r.version index = some shard) :
    shard = Pieces.piece r.shardSize r.payload index := by
  cases hv : s.store.versions.get? r.version with
  | some v =>
    rw [servedShard_of_inRam (h.ram v hv) _ hindex] at hserved
    exact (Option.some.inj hserved).symm
  | none =>
    rw [servedShard_of_absent hv] at hserved
    obtain ⟨directory, hdirectory, hshard⟩ := Option.bind_eq_some_iff.mp hserved
    exact h.disk directory hdirectory index shard hshard

/-- Only what a call publishes is listed after it that was not before. -/
theorem listed_call (hs : s.Orderly) (c : Call) {name : Str}
    (h : ((s.call c).distribution.get? name).isSome = true) :
    (s.distribution.get? name).isSome = true ∨ (c.run s).1 = .ok name := by
  obtain ⟨listing, hlisted⟩ := Option.isSome_iff_exists.mp h
  by_cases hne : name = s.nextVersion
  · subst hne
    cases call_case hs c with
    | ram data shardSize mirror through ends =>
      rw [OriginServer.call] at hlisted
      generalize c.run s = outcome at ends hlisted ⊢
      cases ends with
      | refused => exact Or.inl (by rw [hlisted]; rfl)
      | halted _ _ _ _ _ _ line => cases line.symm.trans hlisted
      | published => exact Or.inr rfl
    | disk _ _ _ _ _ returned => exact Or.inr returned
    | stopped _ _ _ _ lines => exact Or.inl (by rw [← lines, hlisted]; rfl)
  · left
    rw [(less_call hs c hne).line listing hlisted]
    rfl

/-! ## What the store says of its versions -/

/-- A version held as one buffer, with the digests of the buffer and of its shards. -/
structure Certified (name : Str) (v : StoredVersion) : Prop where
  shaped : CheckpointStore.Shaped name v
  digests : ∃ data, v.data = some data ∧ v.metadata.checksum = hexdigest data ∧
    v.shardChecksums = (List.range v.metadata.shardCount).map fun index =>
      hexdigest (Pieces.piece v.metadata.shardSize data index)

omit [Library] in
theorem every_removePruned {Q : Str → StoredVersion → Prop} (h : s.store.Every Q)
    (removed : List Str) : (s.removePruned removed).store.Every Q := by
  induction removed generalizing s with
  | nil => exact h
  | cons old rest ih =>
    apply ih
    exact h.remove old

omit [Library] in
theorem every_announce {Q : Str → StoredVersion → Prop} (h : s.store.Every Q) (version : Str)
    (listing : Listing) (evicted : List Str) (mirror : Bool) :
    (s.announce version listing evicted mirror).store.Every Q := by
  rw [announce]
  apply every_removePruned
  cases mirror <;> exact h

omit [Library] in
theorem every_ensureDir {Q : Str → StoredVersion → Prop} (h : s.store.Every Q) (version : Str) :
    (s.ensureDir version).store.Every Q := by
  rw [(ensureDir_frame s version).1]
  exact h

/-- A broadcast gives the store the digests of its manifest. -/
theorem certified_broadcastBuffer (hlower : ∀ data, lower (hexdigest data) = hexdigest data)
    (h : s.store.Every Certified) (buffer : Bytes) (shardSize : Int) (diskMirror : Option Bool) :
    (s.broadcastBuffer buffer shardSize diskMirror).2.store.Every Certified := by
  rw [OriginServer.broadcastBuffer]
  cases hm : buildManifest s.nextVersion buffer shardSize with
  | error e => exact h
  | ok m =>
    have hput : (s.store.putVerified s.nextVersion buffer shardSize m.checksum
        m.shardChecksums).2.Every Certified := by
      obtain ⟨-, -, root, -, rfl⟩ := ShardManifest.buildManifest_eq_ok hm
      apply h.putVerified
      intro hsize hchecksums
      refine ⟨CheckpointStore.shaped_of_put hsize hchecksums, buffer, rfl, hlower buffer, ?_⟩
      apply List.map_congr_left
      intro index _
      rw [manifestSlice_eq_piece]
    simp only
    generalize s.store.putVerified s.nextVersion buffer shardSize m.checksum
      m.shardChecksums = outcome at hput ⊢
    obtain ⟨result, store⟩ := outcome
    cases result with
    | error e => exact hput
    | ok metadata =>
      have hensured := every_ensureDir (s := { s with store }) hput s.nextVersion
      simp only
      split
      · exact hensured
      · exact hensured
      · apply every_announce
        exact hensured

/-- **An origin certifies what it has in RAM.** -/
theorem certified_call (hlower : ∀ data, lower (hexdigest data) = hexdigest data)
    (h : s.store.Every Certified) (c : Call) : (s.call c).store.Every Certified := by
  rw [OriginServer.call]
  cases c with
  | buffer data shardSize diskMirror =>
    exact certified_broadcastBuffer hlower h data shardSize diskMirror
  | file data shardSize =>
    cases data with
    | none => exact h
    | some data =>
      rw [Call.run, broadcast]
      split_ifs
      · exact certified_broadcastBuffer hlower h data shardSize (some true)
      · rw [broadcastLarge]
        simp only
        split_ifs
        · exact every_ensureDir h s.nextVersion
        · apply every_announce
          exact every_ensureDir h s.nextVersion

end

end Litecast.Releases
