import Litecast.Servable

/-! Broadcasts of an origin whose file system may fail, and its restart. -/

namespace Litecast.OriginServer

/-! ## What can go wrong in a call -/

/-- Where one call raises; `unremoved` is what `rmtree` is told to ignore. -/
structure Trouble where
  source : Bool := false
  directory : Bool := false
  manifest : Bool := false
  /-- The file of a shard, and what it holds then. -/
  shardFile : Option (Nat × Option Bytes) := none
  checksum : Bool := false
  /-- The distribution file is not read, or not written to its end: so many
  lines are, and the last may be cut off. -/
  lines : Option (Option (Nat × Option Listing)) := none
  evictedLines : Bool := false
  /-- What is left of a directory that is to go with an evicted version. -/
  unremoved : Str → Option VersionDirectory := fun _ => none
  /-- The removal of a pruned version, and what it leaves of the directory. -/
  prunedDirectory : Option (Nat × VersionDirectory) := none
  notification : Bool := false

def osFailed : Exc := ⟨.osError, []⟩

/-- The first lines, the last of them perhaps cut off. -/
def tornLines (d : Distribution) (written : Nat) (cut : Option Listing) : Distribution :=
  match cut, (d.take written).keys.getLast? with
  | some listing, some last => (d.take written).insert last listing
  | _, _ => d.take written

/-- `dropEvicted` where some directories stay. -/
def dropEvictedBut (s : OriginServer) (unremoved : Str → Option VersionDirectory)
    (evicted : List Str) : OriginServer :=
  { s with
    distribution := removeDistributionVersions s.distribution evicted
    directories := evicted.foldl (fun directories old =>
      match unremoved old with
      | none => directories.erase old
      | some left => if directories.contains old then directories.insert old left else directories)
      s.directories }

/-- `removePruned` up to the directory that cannot be removed. -/
def removePrunedWith (s : OriginServer) (trouble : Trouble) (removed : List Str) :
    Except Exc Unit × OriginServer :=
  match trouble.prunedDirectory with
  | none => (.ok (), s.removePruned removed)
  | some (index, left) =>
    match removed[index]? with
    | none => (.ok (), s.removePruned removed)
    | some old =>
      let t := s.removePruned (removed.take index)
      if t.directories.contains old then
        (.error osFailed,
          { t with store := (t.store.remove old).2, directories := t.directories.insert old left })
      else (.ok (), s.removePruned removed)

def announceWith (s : OriginServer) (trouble : Trouble) (version : Str) (listing : Listing)
    (evicted : List Str) (mirror : Bool) : Except Exc Unit × OriginServer :=
  let (distribution, removed) :=
    updateDistributionFile s.distribution version listing s.maxDistributionFolders
  match trouble.lines with
  | some none => (.error osFailed, s)
  | some (some (written, cut)) =>
    (.error osFailed, { s with distribution := tornLines distribution written cut })
  | none =>
    let s := { s with distribution }
    if mirror = false ∧ evicted ≠ [] ∧ trouble.evictedLines = true then (.error osFailed, s)
    else
      let s := if mirror then s else s.dropEvictedBut trouble.unremoved evicted
      s.removePrunedWith trouble removed

/-- The shard files there are when one cannot be written. -/
def cutShards (trouble : Trouble) (shards : OrderedDict Nat Bytes) :
    Option (OrderedDict Nat Bytes) :=
  trouble.shardFile.bind fun (index, written) =>
    if index < shards.length then
      match written with
      | none => some (shards.take index)
      | some bytes => some ((shards.take index).insert index bytes)
    else none

section
variable [Library]

def broadcastBufferWith (s : OriginServer) (trouble : Trouble) (buffer : Bytes) (shardSize : Int)
    (diskMirror : Option Bool) : Outcome :=
  let mirror := diskMirror.getD s.diskMirror
  let version := s.nextVersion
  match buildManifest version buffer shardSize with
  | .error e => (.error e, s)
  | .ok shardManifest =>
    match s.store.putVerified version buffer shardSize shardManifest.checksum
        shardManifest.shardChecksums with
    | (.error e, store) => (.error e, { s with store })
    | (.ok metadata, store) =>
      let evicted := capacityEvictions s.store store
      if trouble.directory then (.error osFailed, { s with store })
      else
        let s := { s with store }.ensureDir version
        match shardManifest.toBytes, mirrorFiles store version metadata.shardCount mirror with
        | .error e, _ => (.error e, s)
        | _, .error e => (.error e, s)
        | .ok manifest, .ok shards =>
          if trouble.manifest then (.error osFailed, s)
          else
            let written (shards : OrderedDict Nat Bytes) : OriginServer :=
              { s with directories := s.directories.insert version { manifest := some manifest, shards } }
            match cutShards trouble shards with
            | some cut => (.error osFailed, written cut)
            | none =>
              match (written shards).announceWith trouble version
                  ⟨metadata.checksum, metadata.shardCount⟩ evicted mirror with
              | (.error e, s) => (.error e, s)
              | (.ok (), s) =>
                if trouble.notification then (.error ⟨.runtimeError, []⟩, s) else (.ok version, s)

def broadcastLargeWith (s : OriginServer) (trouble : Trouble) (data : Bytes) (shardSize : Int) :
    Outcome :=
  let version := s.nextVersion
  if trouble.directory then (.error osFailed, s)
  else
    let s := s.ensureDir version
    if shardSize = 0 then
      (.error ⟨.zeroDivisionError, str "integer division or modulo by zero"⟩, s)
    else if trouble.source then (.error osFailed, s)
    else
      let numShards := ((data.length : Int) + shardSize - 1).fdiv shardSize
      let shards := fileShards data shardSize numShards.toNat
      let written (shards : OrderedDict Nat Bytes) : OriginServer :=
        { s with directories := s.directories.insert version { shards } }
      match cutShards trouble shards with
      | some cut => (.error osFailed, written cut)
      | none =>
        if trouble.checksum then (.error osFailed, written shards)
        else
          match (written shards).announceWith trouble version ⟨hexdigest data, numShards⟩ [] true with
          | (.error e, s) => (.error e, s)
          | (.ok (), s) => (.ok version, s)

def broadcastWith (s : OriginServer) (trouble : Trouble) (file : Option Bytes) (shardSize : Int) :
    Outcome :=
  match file with
  | none => (.error ⟨.fileNotFoundError, str "File not found"⟩, s)
  | some data =>
    if data.length ≤ s.store.capacity then
      if trouble.source then (.error osFailed, s)
      else s.broadcastBufferWith trouble data shardSize (some true)
    else s.broadcastLargeWith trouble data shardSize

def Call.runWith (s : OriginServer) (trouble : Trouble) : Call → Outcome
  | .buffer data shardSize diskMirror => s.broadcastBufferWith trouble data shardSize diskMirror
  | .file data shardSize => s.broadcastWith trouble data shardSize

end

/-- A new process on the same directory: RAM is empty. -/
def restart (s : OriginServer) (maxDistributionFolders : Nat) (diskMirror : Bool)
    (ramCacheBytes : Nat) : OriginServer :=
  { s with maxDistributionFolders, diskMirror, store := .new ramCacheBytes }

/-! ## Without trouble -/

theorem announceWith_none (s : OriginServer) (version : Str) (listing : Listing)
    (evicted : List Str) (mirror : Bool) :
    s.announceWith {} version listing evicted mirror =
      (.ok (), s.announce version listing evicted mirror) := by
  rw [announceWith, announce]
  have hnone : ¬ (mirror = false ∧ evicted ≠ [] ∧ ({} : Trouble).evictedLines = true) := by
    rintro ⟨-, -, h⟩
    cases h
  simp only [if_neg hnone]
  rfl

section
variable [Library]

theorem broadcastBufferWith_none (s : OriginServer) (buffer : Bytes) (shardSize : Int)
    (diskMirror : Option Bool) :
    s.broadcastBufferWith {} buffer shardSize diskMirror =
      s.broadcastBuffer buffer shardSize diskMirror := by
  rw [broadcastBufferWith, broadcastBuffer]
  cases buildManifest s.nextVersion buffer shardSize with
  | error e => rfl
  | ok m =>
    simp only
    cases hput : s.store.putVerified s.nextVersion buffer shardSize m.checksum m.shardChecksums with
    | mk result store =>
      cases result with
      | error e => rfl
      | ok metadata =>
        simp only [Bool.false_eq_true, if_false]
        cases m.toBytes with
        | error e => rfl
        | ok manifest =>
          cases mirrorFiles store s.nextVersion metadata.shardCount
              (diskMirror.getD s.diskMirror) with
          | error e => rfl
          | ok shards => simp only [cutShards, Option.bind_none, announceWith_none]

theorem broadcastLargeWith_none (s : OriginServer) (data : Bytes) (shardSize : Int) :
    s.broadcastLargeWith {} data shardSize = s.broadcastLarge data shardSize := by
  rw [broadcastLargeWith, broadcastLarge]
  simp only [Bool.false_eq_true, if_false, cutShards, Option.bind_none, announceWith_none]

/-- A call with no trouble is the call. -/
theorem runWith_none (s : OriginServer) (c : Call) : c.runWith s {} = c.run s := by
  cases c with
  | buffer data shardSize diskMirror => exact s.broadcastBufferWith_none data shardSize diskMirror
  | file data shardSize =>
    rw [Call.runWith, Call.run]
    cases data with
    | none => rfl
    | some data =>
      simp only [broadcastWith, broadcast, Bool.false_eq_true, if_false, broadcastBufferWith_none,
        broadcastLargeWith_none]

end

/-! ## The state trouble leaves -/

theorem keys_tornLines_sublist (d : Distribution) (written : Nat) (cut : Option Listing) :
    (tornLines d written cut).keys.Sublist d.keys := by
  have htake : (d.take written).keys.Sublist d.keys :=
    (List.take_sublist written d.entries).map Prod.fst
  unfold tornLines
  split
  · next listing last hlast =>
    obtain ⟨old, hold⟩ := OrderedDict.mem_keys_iff.mp (List.mem_of_getLast? hlast)
    have hkeys : ((d.take written).insert last listing).keys = (d.take written).keys := by
      obtain ⟨front, back, hentries, hinserted⟩ := OrderedDict.entries_insert_of_present hold
      rw [OrderedDict.keys, OrderedDict.keys, hinserted, hentries, List.map_append, List.map_append]
      rfl
    rw [hkeys]
    exact htake
  · exact htake

/-- What trouble keeps of an origin that has begun to publish a version: the
order of its parts, and the directory of the version. -/
structure Steady (s : OriginServer) (version : Str) : Prop where
  orderly : s.Orderly
  directory : s.directories.contains version = true

theorem contains_insert {directories : OrderedDict Str VersionDirectory} {version : Str}
    (h : directories.contains version = true) (old : Str) (left : VersionDirectory) :
    (directories.insert old left).contains version = true := by
  rw [OrderedDict.contains] at h ⊢
  rw [OrderedDict.get?_insert]
  split_ifs
  · rfl
  · exact h

theorem contains_erase {directories : OrderedDict Str VersionDirectory} {version old : Str}
    (h : directories.contains version = true) (hne : version ≠ old) :
    (directories.erase old).contains version = true := by
  rw [OrderedDict.contains] at h ⊢
  rw [OrderedDict.get?_erase, if_neg hne]
  exact h

theorem Steady.dropEvictedBut {s : OriginServer} {version : Str} (hs : s.Steady version)
    (unremoved : Str → Option VersionDirectory) {evicted : List Str} (hnot : version ∉ evicted) :
    (s.dropEvictedBut unremoved evicted).Steady version := by
  refine ⟨⟨hs.orderly.ledger, hs.orderly.whole, ?_, hs.orderly.folders⟩, ?_⟩
  · simp only [OriginServer.dropEvictedBut, removeDistributionVersions_eq hs.orderly.inOrder]
    exact hs.orderly.inOrder.foldl_erase evicted
  · simp only [OriginServer.dropEvictedBut]
    have hkept := hs.directory
    generalize s.directories = directories at hkept
    induction evicted generalizing directories with
    | nil => exact hkept
    | cons old rest ih =>
      rw [List.mem_cons, not_or] at hnot
      rw [List.foldl_cons]
      apply ih hnot.2
      split
      · exact contains_erase hkept hnot.1
      · split_ifs
        · exact contains_insert hkept _ _
        · exact hkept

theorem Steady.removePruned {s : OriginServer} {version : Str} (hs : s.Steady version)
    {removed : List Str} (hnot : version ∉ removed) : (s.removePruned removed).Steady version := by
  obtain ⟨hdirectories, hdistribution, hmax, -⟩ := removePruned_frame removed s
  obtain ⟨hledger, hwhole⟩ := removePruned_keeps removed hs.orderly.ledger hs.orderly.whole
  refine ⟨⟨hledger, hwhole, ?_, ?_⟩, ?_⟩
  · rw [hdistribution]
    exact hs.orderly.inOrder
  · rw [hmax]
    exact hs.orderly.folders
  · rw [hdirectories, OrderedDict.contains, OrderedDict.get?_foldl_erase_of_not_mem hnot]
    exact hs.directory

theorem Steady.removePrunedWith {s : OriginServer} {version : Str} (hs : s.Steady version)
    (trouble : Trouble) {removed : List Str} (hnot : version ∉ removed) :
    (s.removePrunedWith trouble removed).2.Steady version := by
  rw [OriginServer.removePrunedWith]
  cases trouble.prunedDirectory with
  | none => exact hs.removePruned hnot
  | some place =>
    obtain ⟨index, left⟩ := place
    simp only
    cases removed[index]? with
    | none => exact hs.removePruned hnot
    | some old =>
      simp only
      split_ifs
      · have hbefore : (s.removePruned (removed.take index)).Steady version :=
          hs.removePruned fun h => hnot (List.mem_of_mem_take h)
        exact ⟨⟨hbefore.orderly.ledger.remove old, hbefore.orderly.whole.remove old,
          hbefore.orderly.inOrder, hbefore.orderly.folders⟩, contains_insert hbefore.directory _ _⟩
      · exact hs.removePruned hnot

theorem Steady.announceWith {s : OriginServer} {version : Str} (hs : s.Steady version)
    (trouble : Trouble) (listing : Listing) {evicted : List Str} (mirror : Bool)
    (hlast : ∀ name ∈ s.distribution.keys, versionKey name < versionKey version)
    (hnot : version ∉ evicted) :
    (s.announceWith trouble version listing evicted mirror).2.Steady version := by
  obtain ⟨updated, removed, hupdated⟩ : ∃ updated removed, updateDistributionFile s.distribution
      version listing s.maxDistributionFolders = (updated, removed) := ⟨_, _, rfl⟩
  obtain ⟨hremoved, hinorder, -⟩ := updated_spec hs.orderly hlast hupdated
  have hnotRemoved : version ∉ removed := by
    rw [hremoved]
    intro h
    exact Nat.lt_irrefl _ (hlast version (List.mem_of_mem_take h))
  have hlisted : Steady { s with distribution := updated } version :=
    ⟨⟨hs.orderly.ledger, hs.orderly.whole, hinorder, hs.orderly.folders⟩, hs.directory⟩
  rw [OriginServer.announceWith, hupdated]
  simp only
  split
  · exact hs
  · refine ⟨⟨hs.orderly.ledger, hs.orderly.whole, ?_, hs.orderly.folders⟩, hs.directory⟩
    exact hinorder.sublist (keys_tornLines_sublist _ _ _)
  · split_ifs with hfailed hmirror
    · exact hlisted
    · exact hlisted.removePrunedWith trouble hnotRemoved
    · exact (hlisted.dropEvictedBut trouble.unremoved hnot).removePrunedWith trouble hnotRemoved

/-- How a call ends: without a trace on disk, or with the directory of the
next version. -/
inductive Ended (s : OriginServer) : Outcome → Prop where
  | untouched (e : Exc) (t : OriginServer) (orderly : t.Orderly)
      (lines : t.distribution = s.distribution) (directories : t.directories = s.directories) :
      Ended s (.error e, t)
  | begun (result : Except Exc Str) (t : OriginServer) (steady : t.Steady s.nextVersion)
      (named : ∀ version, result = .ok version → version = s.nextVersion) :
      Ended s (result, t)

theorem contains_ensureDir (s : OriginServer) (version : Str) :
    (s.ensureDir version).directories.contains version = true := by
  rw [ensureDir]
  split_ifs with hthere
  · exact hthere
  · rw [OrderedDict.contains, OrderedDict.get?_insert, if_pos rfl]
    rfl

theorem steady_ensureDir {s : OriginServer} (hs : s.Orderly) (version : Str) :
    (s.ensureDir version).Steady version :=
  ⟨hs.ensureDir version, contains_ensureDir s version⟩

theorem Steady.written {s : OriginServer} {version : Str} (hs : s.Steady version)
    (directory : VersionDirectory) :
    Steady { s with directories := s.directories.insert version directory } version :=
  ⟨⟨hs.orderly.ledger, hs.orderly.whole, hs.orderly.inOrder, hs.orderly.folders⟩,
    contains_insert hs.directory _ _⟩

section
variable [Library]

/-- The call goes wrong between the insertion into RAM and the distribution
file. -/
def Halts (s : OriginServer) (trouble : Trouble) (buffer : Bytes) (shardSize : Int)
    (mirror : Bool) : Prop :=
  trouble.directory = true ∨ ¬ s.ManifestFits buffer shardSize ∨ trouble.manifest = true ∨
    (mirror = true ∧ ∃ index written, trouble.shardFile = some (index, written) ∧
      index < shardCountOf buffer.length shardSize.toNat)

omit [Library] in
theorem cutShards_eq_none_iff {trouble : Trouble} {shards : OrderedDict Nat Bytes} :
    cutShards trouble shards = none ↔
      ∀ index written, trouble.shardFile = some (index, written) → shards.length ≤ index := by
  rw [cutShards]
  cases trouble.shardFile with
  | none => simp
  | some place =>
    obtain ⟨index, written⟩ := place
    rw [Option.bind_some]
    by_cases hlt : index < shards.length
    · simp only [if_pos hlt]
      constructor
      · intro h
        cases written with
        | none => cases h
        | some bytes => cases h
      · intro h
        exact absurd (h index written rfl) (Nat.not_le.mpr hlt)
    · simp only [if_neg hlt, true_iff]
      intro other written' h
      cases h
      exact Nat.not_lt.mp hlt

/-- The next version is in RAM, and not in the distribution file. -/
structure Inserted (s t : OriginServer) (buffer : Bytes) (shardSize : Int) : Prop where
  stored : Stored s t.store s.nextVersion buffer shardSize.toNat
  lines : t.distribution = s.distribution
  folders : t.maxDistributionFolders = s.maxDistributionFolders

/-- The line of a version published from memory. -/
def bufferListing (buffer : Bytes) (shardSize : Int) : Listing :=
  ⟨lower (hexdigest buffer), shardCountOf buffer.length shardSize.toNat⟩

/-- How `broadcast_buffer` ends, whatever goes wrong. -/
inductive BufferEnd (s : OriginServer) (trouble : Trouble) (buffer : Bytes) (shardSize : Int)
    (mirror : Bool) : Outcome → Prop where
  | refused (e : Exc) (bad : shardSize ≤ 0 ∨ s.store.capacity < buffer.length) :
      BufferEnd s trouble buffer shardSize mirror (.error e, s)
  | halted (e : Exc) (t : OriginServer) (size : 0 < shardSize)
      (fits : buffer.length ≤ s.store.capacity) (halts : s.Halts trouble buffer shardSize mirror)
      (inserted : Inserted s t buffer shardSize)
      (directory : t.directories = s.directories ∨ t.directories.contains s.nextVersion = true) :
      BufferEnd s trouble buffer shardSize mirror (.error e, t)
  | announced (t : OriginServer) (directory : VersionDirectory) (result : Except Exc Str)
      (size : 0 < shardSize) (fits : buffer.length ≤ s.store.capacity)
      (spared : ¬ s.Halts trouble buffer shardSize mirror)
      (inserted : Inserted s t buffer shardSize)
      (written : t.directories.get? s.nextVersion = some directory)
      (files : ∀ index, directory.shards.get? index =
        if mirror = true ∧ index < shardCountOf buffer.length shardSize.toNat then
          some (Pieces.piece shardSize.toNat buffer index)
        else none)
      (told : (result = .ok s.nextVersion ∧ trouble.notification = false ∧
          (t.announceWith trouble s.nextVersion (bufferListing buffer shardSize)
            (capacityEvictions s.store t.store) mirror).1 = .ok ()) ∨
        ((∃ e, result = .error e) ∧ (trouble.notification = true ∨
          ∃ e, (t.announceWith trouble s.nextVersion (bufferListing buffer shardSize)
            (capacityEvictions s.store t.store) mirror).1 = .error e))) :
      BufferEnd s trouble buffer shardSize mirror
        (result, (t.announceWith trouble s.nextVersion (bufferListing buffer shardSize)
          (capacityEvictions s.store t.store) mirror).2)

omit [Library] in
theorem Inserted.spares_next {s t : OriginServer} {buffer : Bytes} {shardSize : Int}
    (hs : s.Stocked) (h : Inserted s t buffer shardSize) :
    s.nextVersion ∉ capacityEvictions s.store t.store :=
  h.stored.spares_next hs

omit [Library] in
/-- No shard file of a version is in the way when it is not mirrored, or the
trouble is with none of its files. -/
theorem cutShards_mirrored_eq_none_iff {trouble : Trouble} {shards : OrderedDict Nat Bytes}
    {mirror : Bool} {count : Nat} (hlength : shards.length = if mirror = true then count else 0) :
    cutShards trouble shards = none ↔ ¬ (mirror = true ∧ ∃ index written,
      trouble.shardFile = some (index, written) ∧ index < count) := by
  rw [cutShards_eq_none_iff, hlength]
  constructor
  · rintro hspared ⟨hmirror, index, written, hfile, hlt⟩
    have hle := hspared index written hfile
    rw [if_pos hmirror] at hle
    omega
  · intro hnone index written hfile
    split_ifs with hmirror
    · by_contra hlt
      exact hnone ⟨hmirror, index, written, hfile, Nat.not_le.mp hlt⟩
    · exact Nat.zero_le _

theorem broadcastBufferWith_end {s : OriginServer} (hs : s.Stocked) (trouble : Trouble)
    (buffer : Bytes) (shardSize : Int) (diskMirror : Option Bool) :
    BufferEnd s trouble buffer shardSize (diskMirror.getD s.diskMirror)
      (s.broadcastBufferWith trouble buffer shardSize diskMirror) := by
  rw [broadcastBufferWith]
  generalize diskMirror.getD s.diskMirror = mirror
  cases hm : buildManifest s.nextVersion buffer shardSize with
  | error e => exact .refused e (Or.inl (size_of_buildManifest_error hm))
  | ok m =>
    have hsize := (ShardManifest.buildManifest_eq_ok hm).2.1
    rcases putVerified_built hs hm with
      ⟨hlarge, e, hput⟩ | ⟨hfits, metadata, store, hput, hcount, hchecksum, hstored⟩
    · simp only [hput]
      exact .refused e (Or.inr hlarge)
    obtain ⟨files, hfiles, hget⟩ := mirrorFiles_of_stored hstored mirror
    have hlength : files.length =
        if mirror = true then shardCountOf buffer.length shardSize.toNat else 0 := by
      apply OrderedDict.length_of_range
      intro index
      rw [OrderedDict.contains, hget]
      cases mirror <;> simp
    simp only [hput, hcount, hfiles]
    by_cases hdirectory : trouble.directory = true
    · rw [if_pos hdirectory]
      exact .halted _ _ hsize hfits (Or.inl hdirectory) ⟨hstored, rfl, rfl⟩ (Or.inl rfl)
    rw [if_neg hdirectory]
    obtain ⟨hstore, hlines, hfolders, -, -⟩ := ensureDir_frame { s with store } s.nextVersion
    have hthere := contains_ensureDir { s with store } s.nextVersion
    generalize ({ s with store } : OriginServer).ensureDir s.nextVersion = base
      at hstore hlines hfolders hthere
    have hinserted : Inserted s base buffer shardSize := ⟨hstore ▸ hstored, hlines, hfolders⟩
    cases hraw : m.toBytes with
    | error e =>
      exact .halted e _ hsize hfits (Or.inr (Or.inl (not_manifestFits hm hraw))) hinserted
        (Or.inr hthere)
    | ok raw =>
      simp only
      by_cases hmanifest : trouble.manifest = true
      · rw [if_pos hmanifest]
        exact .halted _ _ hsize hfits (Or.inr (Or.inr (Or.inl hmanifest))) hinserted (Or.inr hthere)
      rw [if_neg hmanifest]
      cases hcut : cutShards trouble files with
      | some cut =>
        refine .halted _ _ hsize hfits (Or.inr (Or.inr (Or.inr ?_)))
          ⟨hinserted.stored, hlines, hfolders⟩ (Or.inr (contains_insert hthere _ _))
        by_contra hnone
        cases hcut.symm.trans ((cutShards_mirrored_eq_none_iff hlength).mpr hnone)
      | none =>
        have hspared : ¬ s.Halts trouble buffer shardSize mirror := by
          rintro (h | h | h | h)
          · exact hdirectory h
          · exact h ⟨m, raw, hm, hraw⟩
          · exact hmanifest h
          · exact (cutShards_mirrored_eq_none_iff hlength).mp hcut h
        let directory : VersionDirectory := { manifest := some raw, shards := files }
        have hwritten : Inserted s
            { base with directories := base.directories.insert s.nextVersion directory }
            buffer shardSize :=
          ⟨hinserted.stored, hlines, hfolders⟩
        have hend := fun result => BufferEnd.announced _ directory result hsize hfits hspared
          hwritten (by rw [OrderedDict.get?_insert, if_pos rfl]) hget
        simp only [hstore, bufferListing, hchecksum] at hend ⊢
        generalize announceWith _ trouble s.nextVersion _ _ _ = announced at hend ⊢
        obtain ⟨announcedResult, t⟩ := announced
        cases announcedResult with
        | error e => exact hend _ (Or.inr ⟨⟨e, rfl⟩, Or.inr ⟨e, rfl⟩⟩)
        | ok =>
          simp only
          split_ifs with hnotification
          · exact hend _ (Or.inr ⟨⟨_, rfl⟩, Or.inl hnotification⟩)
          · exact hend _ (Or.inl ⟨rfl, Bool.not_eq_true _ ▸ hnotification, rfl⟩)

theorem broadcastBufferWith_ended {s : OriginServer} (hs : s.Orderly) (trouble : Trouble)
    (buffer : Bytes) (shardSize : Int) (diskMirror : Option Bool) :
    Ended s (s.broadcastBufferWith trouble buffer shardSize diskMirror) := by
  have horderly : ∀ {t : OriginServer}, Inserted s t buffer shardSize → t.Orderly :=
    fun h => ⟨h.stored.ledger, h.stored.whole, h.lines ▸ hs.inOrder, h.folders ▸ hs.folders⟩
  have hend := broadcastBufferWith_end hs.stocked trouble buffer shardSize diskMirror
  generalize s.broadcastBufferWith trouble buffer shardSize diskMirror = outcome at hend ⊢
  cases hend with
  | refused e => exact .untouched e s hs rfl rfl
  | halted e t _ _ _ inserted directory =>
    rcases directory with hsame | hthere
    · exact .untouched e t (horderly inserted) inserted.lines hsame
    · exact .begun _ t ⟨horderly inserted, hthere⟩ (by rintro version h; cases h)
  | announced t directory result _ _ _ inserted written files told =>
    refine .begun result _ ?_ ?_
    · have hthere : t.directories.contains s.nextVersion = true := by
        rw [OrderedDict.contains, written]
        rfl
      apply Steady.announceWith ⟨horderly inserted, hthere⟩ trouble _ _ _
        (inserted.spares_next hs.stocked)
      rw [inserted.lines]
      exact fun name hname => Orderly.listed_older hname
    · rintro version rfl
      rcases told with ⟨hok, -⟩ | ⟨⟨e, herror⟩, -⟩
      · exact Except.ok.inj hok
      · cases herror

theorem broadcastLargeWith_ended {s : OriginServer} (hs : s.Orderly) (trouble : Trouble)
    (data : Bytes) (shardSize : Int) : Ended s (s.broadcastLargeWith trouble data shardSize) := by
  have hensured := steady_ensureDir hs s.nextVersion
  have hlines : (s.ensureDir s.nextVersion).distribution = s.distribution :=
    (ensureDir_frame s s.nextVersion).2.1
  rw [broadcastLargeWith]
  simp only
  split
  · exact .untouched _ _ hs rfl rfl
  split
  · exact .begun _ _ hensured (by rintro version h; cases h)
  split
  · exact .begun _ _ hensured (by rintro version h; cases h)
  generalize fileShards data shardSize _ = shards
  cases cutShards trouble shards with
  | some cut => exact .begun _ _ (hensured.written _) (by rintro version h; cases h)
  | none =>
    simp only
    split
    · exact .begun _ _ (hensured.written _) (by rintro version h; cases h)
    have hannounced := (hensured.written { shards }).announceWith trouble
      ⟨hexdigest data, ((data.length : Int) + shardSize - 1).fdiv shardSize⟩ true
      (by
        simp only [hlines]
        exact fun name hname => Orderly.listed_older hname) List.not_mem_nil
    generalize announceWith _ trouble s.nextVersion _ _ _ = announced at hannounced ⊢
    obtain ⟨result, t⟩ := announced
    cases result with
    | error e => exact .begun _ _ hannounced (by rintro version h; cases h)
    | ok => exact .begun _ _ hannounced (by rintro version h; cases h; rfl)

/-- One call, whatever goes wrong. -/
theorem runWith_ended {s : OriginServer} (hs : s.Orderly) (trouble : Trouble) (c : Call) :
    Ended s (c.runWith s trouble) := by
  cases c with
  | buffer data shardSize diskMirror =>
    exact broadcastBufferWith_ended hs trouble data shardSize diskMirror
  | file data shardSize =>
    cases data with
    | none => exact .untouched _ s hs rfl rfl
    | some data =>
      rw [Call.runWith]
      simp only [broadcastWith]
      split_ifs
      · exact .untouched _ s hs rfl rfl
      · exact broadcastBufferWith_ended hs trouble data shardSize (some true)
      · exact broadcastLargeWith_ended hs trouble data shardSize

omit [Library] in
theorem Ended.orderly {s : OriginServer} {outcome : Outcome} (h : Ended s outcome) :
    outcome.2.Orderly := by
  cases h with
  | untouched _ _ orderly => exact orderly
  | begun _ _ steady => exact steady.orderly

end

end Litecast.OriginServer
