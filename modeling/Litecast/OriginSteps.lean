import Litecast.Origin

/-! What one broadcast changes in the store, the distribution file and the
directories of an origin. -/

namespace Litecast

/-! ## Version numbers -/

open JsonText (isDigit digitsValue isDigit_decimal digitsValue_decimal)

theorem decimal_ne_nil (n : Nat) : decimal n ≠ [] := by
  obtain ⟨c, rest, h, -, -⟩ := JsonText.decimal_cons n
  rw [h]
  exact List.cons_ne_nil c rest

theorem versionNumber?_versionName (n : Nat) : versionNumber? (versionName n) = some n := by
  have hprefix : versionPrefix.isPrefixOf (versionName n) = true :=
    List.isPrefixOf_iff_prefix.mpr (List.prefix_append _ _)
  have hdigits : (versionName n).drop versionPrefix.length = decimal n := List.drop_left
  have hall : (decimal n).all isDigit = true := List.all_eq_true.mpr (isDigit_decimal n)
  rw [versionNumber?, if_pos hprefix]
  simp only [hdigits, hall, decimal_ne_nil, ne_eq, not_false_eq_true, and_self, if_true,
    digitsValue_decimal]

theorem versionKey_versionName (n : Nat) : versionKey (versionName n) = n := by
  rw [versionKey, versionNumber?_versionName, Option.getD_some]

namespace OriginServer

theorem versionKey_lt_nextNumber {s : OriginServer} {name : Str} (h : name ∈ s.candidates) :
    versionKey name < s.nextNumber := by
  rw [nextNumber, versionKey]
  cases hnumber : versionNumber? name with
  | none => exact Nat.succ_pos _
  | some n =>
    have hmem : n ∈ s.candidates.filterMap versionNumber? := List.mem_filterMap.mpr ⟨name, h, hnumber⟩
    have hle : ∀ (numbers : List Nat) (start : Nat), (∀ m ∈ numbers, m ≤ numbers.foldl max start) ∧
        start ≤ numbers.foldl max start := by
      intro numbers
      induction numbers with
      | nil => simp
      | cons first rest ih =>
        intro start
        obtain ⟨hrest, hstart⟩ := ih (max start first)
        refine ⟨?_, ?_⟩
        · intro m hm
          rcases List.mem_cons.mp hm with rfl | hm
          · exact (Nat.le_max_right _ _).trans hstart
          · exact hrest m hm
        · exact (Nat.le_max_left _ _).trans hstart
    exact Nat.lt_succ_of_le ((hle _ 0).1 n hmem)

theorem nextVersion_fresh (s : OriginServer) : s.nextVersion ∉ s.candidates := by
  intro h
  have hlt := versionKey_lt_nextNumber h
  rw [nextVersion, versionKey_versionName] at hlt
  exact Nat.lt_irrefl _ hlt

end OriginServer

/-! ## Lines in order -/

/-- The lines of the file stand in the order of their numbers. -/
def InOrder (d : Distribution) : Prop :=
  d.keys.Pairwise fun a b => versionKey a < versionKey b

theorem sortBy_of_inOrder {d : Distribution} (hd : InOrder d) : d.sortBy versionKey = d := by
  apply OrderedDict.ext_entries
  apply List.Pairwise.insertionSort_eq
  rw [InOrder, OrderedDict.keys, List.pairwise_map] at hd
  exact hd.imp fun hlt => hlt.le

theorem entries_foldl_erase_sublist (names : List Str) (d : Distribution) :
    (names.foldl OrderedDict.erase d).entries.Sublist d.entries := by
  induction names generalizing d with
  | nil => exact List.Sublist.refl _
  | cons first rest ih => exact (ih (d.erase first)).trans List.filter_sublist

theorem InOrder.foldl_erase {d : Distribution} (hd : InOrder d) (names : List Str) :
    InOrder (names.foldl OrderedDict.erase d) :=
  hd.sublist ((entries_foldl_erase_sublist names d).map Prod.fst)

theorem removeDistributionVersions_eq {d : Distribution} (hd : InOrder d) (names : List Str) :
    removeDistributionVersions d names = names.foldl OrderedDict.erase d := by
  rw [removeDistributionVersions]
  split_ifs with hnil
  · rw [hnil, List.foldl_nil]
  · exact sortBy_of_inOrder (hd.foldl_erase names)

section
variable {d : Distribution} {version : Str} {listing : Listing} {maxVersions : Nat}

theorem keys_insert_of_absent (h : version ∉ d.keys) :
    (d.insert version listing).keys = d.keys ++ [version] := by
  rw [OrderedDict.keys, OrderedDict.entries_insert_of_absent _ (OrderedDict.get?_eq_none_iff.mpr h),
    List.map_append]
  rfl

theorem InOrder.insert (hd : InOrder d)
    (hlast : ∀ name ∈ d.keys, versionKey name < versionKey version) :
    InOrder (d.insert version listing) := by
  have habsent : version ∉ d.keys := fun h => Nat.lt_irrefl _ (hlast version h)
  rw [InOrder, keys_insert_of_absent habsent, List.pairwise_append]
  refine ⟨hd, List.pairwise_singleton _ _, ?_⟩
  intro a ha b hb
  obtain rfl := List.mem_singleton.mp hb
  exact hlast a ha

/-- With the newest version last, the oldest are the first lines. -/
theorem prunedVersions_eq (hd : InOrder d)
    (hlast : ∀ name ∈ d.keys, versionKey name < versionKey version) (hmax : 1 ≤ maxVersions) :
    prunedVersions (d.insert version listing) maxVersions =
      d.keys.take (d.length + 1 - maxVersions) := by
  have habsent : version ∉ d.keys := fun h => Nat.lt_irrefl _ (hlast version h)
  have hkeys : (d.insert version listing).keys = d.keys ++ [version] := keys_insert_of_absent habsent
  have hlength : (d.insert version listing).length = d.length + 1 := by
    rw [OrderedDict.length, ← List.length_map Prod.fst]
    exact (congrArg List.length hkeys).trans (by simp [OrderedDict.keys, OrderedDict.length])
  have hsorted : (d.insert version listing).keys.insertionSort
      (fun a b => versionKey a ≤ versionKey b) = d.keys ++ [version] := by
    rw [← hkeys]
    apply List.Pairwise.insertionSort_eq
    exact (hd.insert hlast).imp fun hlt => hlt.le
  rw [prunedVersions, hsorted, hlength]
  split_ifs with hmore
  · rw [List.take_append_of_le_length]
    simp only [OrderedDict.keys, List.length_map, OrderedDict.length] at hmore ⊢
    omega
  · rw [show d.length + 1 - maxVersions = 0 by omega, List.take_zero]

end

/-! ## States of an origin -/

namespace OriginServer

structure Orderly (s : OriginServer) : Prop where
  ledger : s.store.Ledger
  /-- Every version in RAM is there in full and under its own name. -/
  whole : s.store.Every fun name v => v.metadata.name = name ∧ v.data.isSome = true
  inOrder : InOrder s.distribution
  folders : 1 ≤ s.maxDistributionFolders

theorem orderly_new {maxDistributionFolders : Nat} (h : 1 ≤ maxDistributionFolders)
    (diskMirror : Bool) (ramCacheBytes : Nat) :
    (new maxDistributionFolders diskMirror ramCacheBytes).Orderly :=
  ⟨CheckpointStore.ledger_new _, CheckpointStore.every_new _, List.Pairwise.nil, h⟩

/-- Storing that many bytes pushes the version out of RAM. -/
def Evicts (s : OriginServer) (bytes : Nat) (version : Str) : Prop :=
  s.store.versions.contains version = true ∧
    s.store.capacity < s.store.bytesFrom version + bytes

/-- One more version pushes this one out of the distribution file. -/
def Prunes (s : OriginServer) (version : Str) : Prop :=
  version ∈ s.distribution.keys.take (s.distribution.length + 1 - s.maxDistributionFolders)

instance (s : OriginServer) (version : Str) : Decidable (s.Prunes version) :=
  inferInstanceAs (Decidable (version ∈ s.distribution.keys.take _))

theorem names_eq_keys {store : CheckpointStore}
    (h : store.Every fun name v => v.metadata.name = name ∧ v.data.isSome = true) :
    store.listVersions.map VersionMetadata.name = store.versions.keys := by
  rw [CheckpointStore.listVersions, OrderedDict.values, OrderedDict.keys, List.map_map, List.map_map]
  apply List.map_congr_left
  intro entry hentry
  exact (h entry.1 entry.2 (OrderedDict.get?_eq_some_iff.mpr hentry)).1

/-- The store of an origin, whatever its lines and directories. -/
structure Stocked (s : OriginServer) : Prop where
  ledger : s.store.Ledger
  whole : s.store.Every fun name v => v.metadata.name = name ∧ v.data.isSome = true

theorem Orderly.stocked {s : OriginServer} (hs : s.Orderly) : s.Stocked :=
  ⟨hs.ledger, hs.whole⟩

theorem Orderly.listed_older {s : OriginServer} {name : Str}
    (h : name ∈ s.distribution.keys) : versionKey name < versionKey s.nextVersion := by
  rw [nextVersion, versionKey_versionName]
  apply versionKey_lt_nextNumber
  rw [candidates, List.mem_append, List.mem_append]
  exact Or.inl (Or.inr h)

theorem Stocked.fresh {s : OriginServer} (hs : s.Stocked) :
    s.store.versions.get? s.nextVersion = none ∧ s.distribution.get? s.nextVersion = none ∧
      s.directories.get? s.nextVersion = none := by
  have hfresh := s.nextVersion_fresh
  rw [candidates, names_eq_keys hs.whole, List.mem_append, List.mem_append, not_or, not_or] at hfresh
  obtain ⟨⟨hstore, hlisted⟩, hdirectory⟩ := hfresh
  exact ⟨OrderedDict.get?_eq_none_iff.mpr hstore, OrderedDict.get?_eq_none_iff.mpr hlisted,
    OrderedDict.get?_eq_none_iff.mpr hdirectory⟩

/-! ## Removing -/

theorem removePruned_spec (removed : List Str) (s : OriginServer) :
    (∀ name ∈ removed, (s.removePruned removed).store.versions.get? name = none) ∧
      (∀ name ∉ removed, (s.removePruned removed).store.versions.get? name =
        s.store.versions.get? name) ∧
      (s.removePruned removed).store.capacity = s.store.capacity := by
  induction removed generalizing s with
  | nil => simp [removePruned]
  | cons first rest ih =>
    obtain ⟨hgone, hkept, hcapacity⟩ :=
      ih { s with store := (s.store.remove first).2, directories := s.directories.erase first }
    have hremove := s.store.get?_remove first
    have hcapacity' := s.store.remove_capacity first
    refine ⟨?_, ?_, hcapacity.trans hcapacity'⟩
    · intro name hname
      by_cases hrest : name ∈ rest
      · exact hgone name hrest
      · refine (hkept name hrest).trans ?_
        rw [hremove, if_pos ((List.mem_cons.mp hname).resolve_right hrest)]
    · intro name hname
      rw [List.mem_cons, not_or] at hname
      refine (hkept name hname.2).trans ?_
      rw [hremove, if_neg hname.1]

theorem removePruned_frame (removed : List Str) (s : OriginServer) :
    (s.removePruned removed).directories = removed.foldl OrderedDict.erase s.directories ∧
      (s.removePruned removed).distribution = s.distribution ∧
      (s.removePruned removed).maxDistributionFolders = s.maxDistributionFolders ∧
      (s.removePruned removed).diskMirror = s.diskMirror := by
  induction removed generalizing s with
  | nil => exact ⟨rfl, rfl, rfl, rfl⟩
  | cons first rest ih =>
    exact ih { s with store := (s.store.remove first).2, directories := s.directories.erase first }

theorem removePruned_keeps {Q : Str → StoredVersion → Prop} (removed : List Str) {s : OriginServer}
    (hledger : s.store.Ledger) (hevery : s.store.Every Q) :
    (s.removePruned removed).store.Ledger ∧ (s.removePruned removed).store.Every Q := by
  induction removed generalizing s with
  | nil => exact ⟨hledger, hevery⟩
  | cons first rest ih => exact ih (hledger.remove first) (hevery.remove first)

/-- What `announce` leaves of the old versions. -/
structure Announced (s t : OriginServer) (version : Str) (listing : Listing)
    (dropped : Str → Prop) : Prop where
  listed : t.distribution.get? version = some listing
  storeKept : ∀ name, ¬ s.Prunes name → t.store.versions.get? name = s.store.versions.get? name
  storeGone : ∀ name, s.Prunes name → t.store.versions.get? name = none
  listedKept : ∀ name, name ≠ version → ¬ s.Prunes name → ¬ dropped name →
    t.distribution.get? name = s.distribution.get? name
  listedGone : ∀ name, name ≠ version → s.Prunes name ∨ dropped name →
    t.distribution.get? name = none
  directoryKept : ∀ name, ¬ s.Prunes name → ¬ dropped name →
    t.directories.get? name = s.directories.get? name
  directoryGone : ∀ name, s.Prunes name ∨ dropped name → t.directories.get? name = none
  orderly : t.Orderly
  capacity : t.store.capacity = s.store.capacity
  maxDistributionFolders : t.maxDistributionFolders = s.maxDistributionFolders
  diskMirror : t.diskMirror = s.diskMirror

/-- The file after `update_distribution_file`. -/
theorem updated_spec {s : OriginServer} (hs : s.Orderly) {version : Str} {listing : Listing}
    {updated : Distribution} {removed : List Str}
    (hlast : ∀ name ∈ s.distribution.keys, versionKey name < versionKey version)
    (h : updateDistributionFile s.distribution version listing s.maxDistributionFolders =
      (updated, removed)) :
    removed = s.distribution.keys.take (s.distribution.length + 1 - s.maxDistributionFolders) ∧
      InOrder updated ∧ updated.get? version = some listing ∧
      (∀ name, name ≠ version → ¬ s.Prunes name →
        updated.get? name = s.distribution.get? name) ∧
      ∀ name, s.Prunes name → updated.get? name = none := by
  have hinserted : InOrder (s.distribution.insert version listing) := hs.inOrder.insert hlast
  have hnotpruned : ¬ s.Prunes version := fun h =>
    Nat.lt_irrefl _ (hlast version (List.mem_of_mem_take h))
  rw [updateDistributionFile] at h
  obtain ⟨rfl, rfl⟩ := Prod.mk.inj h
  rw [prunedVersions_eq hs.inOrder hlast hs.folders, sortBy_of_inOrder (hinserted.foldl_erase _)]
  refine ⟨rfl, hinserted.foldl_erase _, ?_, ?_, ?_⟩
  · rw [OrderedDict.get?_foldl_erase_of_not_mem hnotpruned, OrderedDict.get?_insert, if_pos rfl]
  · intro name hname hpruned
    rw [OrderedDict.get?_foldl_erase_of_not_mem hpruned, OrderedDict.get?_insert, if_neg hname]
  · intro name hpruned
    exact OrderedDict.get?_foldl_erase_of_mem hpruned _

theorem announce_announced {s : OriginServer} (hs : s.Orderly) {version : Str} (listing : Listing)
    {evicted : List Str} (mirror : Bool)
    (hlast : ∀ name ∈ s.distribution.keys, versionKey name < versionKey version)
    (hevicted : version ∉ evicted) :
    Announced s (s.announce version listing evicted mirror) version listing
      (fun name => mirror = false ∧ name ∈ evicted) := by
  obtain ⟨updated, removed, hupdated⟩ : ∃ updated removed, updateDistributionFile s.distribution
      version listing s.maxDistributionFolders = (updated, removed) := ⟨_, _, rfl⟩
  obtain ⟨hremoved, hinorder, hlisted, hlistedKept, hlistedGone⟩ := updated_spec hs hlast hupdated
  have hpruned : ∀ name, s.Prunes name ↔ name ∈ removed := by
    intro name
    rw [hremoved, Prunes]
  -- the state before the oldest versions go, with a mirror and without
  let before := if mirror then { s with distribution := updated }
    else dropEvicted { s with distribution := updated } evicted
  have hbefore : s.announce version listing evicted mirror = before.removePruned removed := by
    rw [announce, hupdated]
  have hstore : before.store = s.store := by cases mirror <;> rfl
  have hmax : before.maxDistributionFolders = s.maxDistributionFolders := by cases mirror <;> rfl
  have hmirror : before.diskMirror = s.diskMirror := by cases mirror <;> rfl
  have hlines : before.distribution =
      if mirror then updated else evicted.foldl OrderedDict.erase updated := by
    cases mirror with
    | true => rfl
    | false => exact removeDistributionVersions_eq hinorder evicted
  have hfolders : before.directories =
      if mirror then s.directories else evicted.foldl OrderedDict.erase s.directories := by
    cases mirror <;> rfl
  obtain ⟨hgone, hkept, hcapacity⟩ := removePruned_spec removed before
  obtain ⟨hdirectories, hdistribution, hmax', hmirror'⟩ := removePruned_frame removed before
  obtain ⟨hledger, hwhole⟩ :=
    removePruned_keeps removed (hstore ▸ hs.ledger) (hstore ▸ hs.whole)
  rw [hbefore]
  refine {
    listed := ?_, storeKept := ?_, storeGone := ?_, listedKept := ?_, listedGone := ?_
    directoryKept := ?_, directoryGone := ?_, orderly := ⟨hledger, hwhole, ?_, ?_⟩
    capacity := by rw [hcapacity, hstore], maxDistributionFolders := by rw [hmax', hmax]
    diskMirror := by rw [hmirror', hmirror] }
  · rw [hdistribution, hlines]
    cases mirror with
    | true => exact hlisted
    | false => exact (OrderedDict.get?_foldl_erase_of_not_mem hevicted _).trans hlisted
  · intro name hname
    rw [hkept name (mt (hpruned name).mpr hname), hstore]
  · exact fun name hname => hgone name ((hpruned name).mp hname)
  · intro name hne hname hdropped
    rw [hdistribution, hlines]
    cases mirror with
    | true => exact hlistedKept name hne hname
    | false =>
      have hnot : name ∉ evicted := fun h => hdropped ⟨rfl, h⟩
      exact (OrderedDict.get?_foldl_erase_of_not_mem hnot _).trans (hlistedKept name hne hname)
  · intro name hne hname
    rw [hdistribution, hlines]
    cases mirror with
    | true => exact hlistedGone name (hname.resolve_right fun h => by cases h.1)
    | false =>
      by_cases hdropped : name ∈ evicted
      · exact OrderedDict.get?_foldl_erase_of_mem hdropped _
      · refine (OrderedDict.get?_foldl_erase_of_not_mem hdropped _).trans ?_
        exact hlistedGone name (hname.resolve_right fun h => hdropped h.2)
  · intro name hname hdropped
    rw [hdirectories, hfolders,
      OrderedDict.get?_foldl_erase_of_not_mem (mt (hpruned name).mpr hname)]
    cases mirror with
    | true => rfl
    | false => exact OrderedDict.get?_foldl_erase_of_not_mem (fun h => hdropped ⟨rfl, h⟩) _
  · intro name hname
    rw [hdirectories, hfolders]
    by_cases hremoved : name ∈ removed
    · exact OrderedDict.get?_foldl_erase_of_mem hremoved _
    · rw [OrderedDict.get?_foldl_erase_of_not_mem hremoved]
      obtain ⟨rfl, hdropped⟩ := hname.resolve_left (mt (hpruned name).mp hremoved)
      exact OrderedDict.get?_foldl_erase_of_mem hdropped _
  · rw [hdistribution, hlines]
    cases mirror with
    | true => exact hinorder
    | false => exact hinorder.foldl_erase evicted
  · rw [hmax', hmax]
    exact hs.folders

/-! ## A broadcast from memory -/

/-- The store has a version in full, to be cut at that size. -/
structure InRam (store : CheckpointStore) (version : Str) (buffer : Bytes) (shardSize : Nat)
    (v : StoredVersion) : Prop where
  get : store.versions.get? version = some v
  data : v.data = some buffer
  totalSize : v.metadata.totalSize = buffer.length
  shardCount : v.metadata.shardCount = shardCountOf buffer.length shardSize
  shardSize : v.metadata.shardSize = shardSize

/-- RAM with the new version in it, beside what eviction spares. -/
structure Stored (s : OriginServer) (store : CheckpointStore) (version : Str) (buffer : Bytes)
    (shardSize : Nat) : Prop where
  added : ∃ v, InRam store version buffer shardSize v
  spared : ∀ name, name ≠ version → ¬ s.Evicts buffer.length name →
    store.versions.get? name = s.store.versions.get? name
  evicted : ∀ name, name ≠ version → s.Evicts buffer.length name →
    store.versions.get? name = none
  ledger : store.Ledger
  whole : store.Every fun name v => v.metadata.name = name ∧ v.data.isSome = true
  capacity : store.capacity = s.store.capacity

theorem storeComplete_stored {s : OriginServer} (hs : s.Stocked) {metadata : VersionMetadata}
    (habsent : s.store.versions.get? metadata.name = none) {buffer : Bytes}
    (htotal : metadata.totalSize = buffer.length) (hpos : 0 < metadata.shardSize)
    (hcount : metadata.shardCount = shardCountOf metadata.totalSize metadata.shardSize)
    (hfits : buffer.length ≤ s.store.capacity) (shardChecksums : List Str) :
    Stored s (s.store.storeComplete metadata buffer shardChecksums) metadata.name buffer
      metadata.shardSize := by
  have hget := CheckpointStore.get?_storeComplete_of_absent hs.ledger.counted habsent buffer
    shardChecksums
  have hledger := hs.ledger.storeComplete shardChecksums hpos hcount hfits
  refine ⟨⟨_, by rw [hget, if_pos rfl], rfl, htotal, htotal ▸ hcount, rfl⟩, ?_, ?_, hledger, ?_, ?_⟩
  · intro name hne hspared
    rw [hget, if_neg hne]
    split_ifs with hroom
    · rfl
    · -- neither spared nor evicted: it was not there
      cases hv : s.store.versions.get? name with
      | none => rfl
      | some v =>
        have hthere : s.store.versions.contains name = true := by rw [OrderedDict.contains, hv]; rfl
        exact absurd ⟨hthere, not_le.mp hroom⟩ hspared
  · intro name hne hevicted
    rw [hget, if_neg hne, if_neg (not_le.mpr hevicted.2)]
  · exact CheckpointStore.Every.storeComplete hs.whole ⟨rfl, rfl⟩
  · have hpopped : s.store.popped metadata.name = s.store := by
      rw [CheckpointStore.popped, habsent]
    obtain ⟨n, hevict⟩ := CheckpointStore.evict_spec hs.ledger.counted buffer.length fun _ => false
    rw [CheckpointStore.storeComplete_eq, hpopped]
    exact hevict.capacity

/-- Every shard of the new version is there to be written to disk. -/
theorem mirrorFiles_of_stored {s : OriginServer} {store : CheckpointStore} {version : Str}
    {buffer : Bytes} {shardSize : Nat} (h : Stored s store version buffer shardSize)
    (mirror : Bool) :
    ∃ files, mirrorFiles store version (shardCountOf buffer.length shardSize) mirror = .ok files ∧
      ∀ index, files.get? index =
        if mirror = true ∧ index < shardCountOf buffer.length shardSize then
          some (Pieces.piece shardSize buffer index)
        else none := by
  obtain ⟨v, hv, hdata, htotal, hcount, hsize⟩ := h.added
  rw [← hcount, ← hsize]
  cases mirror with
  | false =>
    refine ⟨.empty, rfl, fun index => ?_⟩
    rw [if_neg (by simp), OrderedDict.get?_empty]
  | true =>
    obtain ⟨files, hfiles, hget⟩ := CheckpointStore.readShards_of_data hv hdata htotal .empty
      v.metadata.shardCount (Nat.le_refl _)
    refine ⟨files, by rw [mirrorFiles, if_pos rfl, hfiles], fun index => ?_⟩
    rw [hget, OrderedDict.get?_empty]
    simp only [true_and]

section
variable [Library]

/-- What `put_verified` keeps of the next version. -/
def nextMetadata (s : OriginServer) (buffer : Bytes) (shardSize : Int) : VersionMetadata :=
  ⟨s.nextVersion, buffer.length, shardSize.toNat, shardCountOf buffer.length shardSize.toNat,
    lower (hexdigest buffer)⟩

/-- `put_verified` refuses what is too large for RAM, or comes with a wrong
number of shard digests. -/
theorem putVerified_digests {s : OriginServer} (hs : s.Stocked) (buffer : Bytes) {shardSize : Int}
    (hsize : 0 < shardSize) {shardChecksums : List Str}
    (hdigests : ∀ checksum ∈ shardChecksums, checksum.length = 64) :
    (s.store.capacity < buffer.length ∧ ∃ e,
      s.store.putVerified s.nextVersion buffer shardSize (hexdigest buffer) shardChecksums =
        (.error e, s.store)) ∨
    (buffer.length ≤ s.store.capacity ∧ (shardChecksums ≠ [] ∧
        shardChecksums.length ≠ shardCountOf buffer.length shardSize.toNat) ∧ ∃ e,
      s.store.putVerified s.nextVersion buffer shardSize (hexdigest buffer) shardChecksums =
        (.error e, s.store)) ∨
    (buffer.length ≤ s.store.capacity ∧ ¬ (shardChecksums ≠ [] ∧
        shardChecksums.length ≠ shardCountOf buffer.length shardSize.toNat) ∧ ∃ store,
      s.store.putVerified s.nextVersion buffer shardSize (hexdigest buffer) shardChecksums =
        (.ok (s.nextMetadata buffer shardSize), store) ∧
      Stored s store s.nextVersion buffer shardSize.toNat ∧
      ∃ v, store.versions.get? s.nextVersion = some v ∧ v.data = some buffer ∧
        v.metadata = s.nextMetadata buffer shardSize) := by
  have hvalid : (CheckpointStore.validateName s.nextVersion).or
      (CheckpointStore.validateShardSize shardSize) = none := by
    have hname : s.nextVersion ≠ [] := List.cons_ne_nil _ _
    have hpos : ¬ shardSize ≤ 0 := by omega
    rw [CheckpointStore.validateName, if_neg hname, Option.none_or,
      CheckpointStore.validateShardSize, if_neg hpos]
  have hdigest : isHexInt (hexdigest buffer) = true := by
    have hchecksum := ShardManifest.isChecksum_hex (blake3 buffer).length_eq
    rw [ShardManifest.isChecksum, Bool.and_eq_true] at hchecksum
    exact hchecksum.2
  have hhex : ¬ (isHexInt (hexdigest buffer) = false ∨ (hexdigest buffer).length ≠ 64) := by
    simp [hdigest, length_hexdigest]
  simp only [CheckpointStore.putVerified, hvalid, if_neg hhex]
  by_cases hfits : s.store.capacity < buffer.length
  · exact Or.inl ⟨hfits, _, by rw [if_pos hfits]⟩
  apply Or.inr
  simp only [if_neg hfits, CheckpointStore.validateShardChecksums]
  by_cases hcount : shardChecksums ≠ [] ∧
      shardChecksums.length ≠ shardCountOf buffer.length shardSize.toNat
  · exact Or.inl ⟨not_lt.mp hfits, hcount, _, by rw [if_pos hcount]⟩
  · have hall : ¬ (shardChecksums.any fun c => c.length ≠ 64) = true := by
      simpa using hdigests
    refine Or.inr ⟨not_lt.mp hfits, hcount, _, by rw [if_neg hcount, if_neg hall]; rfl, ?_, ?_⟩
    · have hpos : 0 < (s.nextMetadata buffer shardSize).shardSize := by
        simp only [nextMetadata]
        omega
      have habsent : s.store.versions.get? (s.nextMetadata buffer shardSize).name = none := hs.fresh.1
      exact storeComplete_stored hs habsent rfl hpos rfl (not_lt.mp hfits) _
    · exact ⟨_, CheckpointStore.get?_storeComplete s.store (s.nextMetadata buffer shardSize) buffer
        shardChecksums, rfl, rfl⟩

theorem putVerified_built {s : OriginServer} (hs : s.Stocked) {buffer : Bytes} {shardSize : Int}
    {m : ShardManifest} (hm : buildManifest s.nextVersion buffer shardSize = .ok m) :
    (s.store.capacity < buffer.length ∧ ∃ e,
      s.store.putVerified s.nextVersion buffer shardSize m.checksum m.shardChecksums =
        (.error e, s.store)) ∨
    (buffer.length ≤ s.store.capacity ∧ ∃ metadata store,
      s.store.putVerified s.nextVersion buffer shardSize m.checksum m.shardChecksums =
        (.ok metadata, store) ∧
      metadata.shardCount = shardCountOf buffer.length shardSize.toNat ∧
      metadata.checksum = lower (hexdigest buffer) ∧
      Stored s store s.nextVersion buffer shardSize.toNat) := by
  obtain ⟨-, hsize, root, -, rfl⟩ := ShardManifest.buildManifest_eq_ok hm
  have hdigests : ∀ checksum ∈ (List.range (shardCountOf buffer.length shardSize.toNat)).map
      fun index => hexdigest (manifestSlice buffer shardSize.toNat index), checksum.length = 64 := by
    intro checksum hchecksum
    obtain ⟨index, -, rfl⟩ := List.mem_map.mp hchecksum
    exact length_hexdigest _
  rcases putVerified_digests hs buffer hsize hdigests with
    hlarge | ⟨-, ⟨-, hcount⟩, -⟩ | ⟨hfits, -, store, hput, hstored, -⟩
  · exact Or.inl hlarge
  · exact absurd (by rw [List.length_map, List.length_range]) hcount
  · exact Or.inr ⟨hfits, _, store, hput, rfl, rfl, hstored⟩

end

theorem mem_capacityEvictions {s : OriginServer} (hs : s.Stocked) {store : CheckpointStore}
    {buffer : Bytes} {shardSize : Nat} (h : Stored s store s.nextVersion buffer shardSize)
    {name : Str} : name ∈ capacityEvictions s.store store ↔ s.Evicts buffer.length name := by
  have hfresh := OrderedDict.get?_eq_none_iff.mp hs.fresh.1
  rw [capacityEvictions, List.mem_filter, names_eq_keys hs.whole, names_eq_keys h.whole]
  constructor
  · rintro ⟨hthere, hgone⟩
    have hne : name ≠ s.nextVersion := by
      rintro rfl
      exact hfresh hthere
    by_contra hspared
    have hkept := h.spared name hne hspared
    obtain ⟨v, hv⟩ := OrderedDict.mem_keys_iff.mp hthere
    simp only [decide_eq_true_eq] at hgone
    exact hgone (OrderedDict.mem_keys_iff.mpr ⟨v, hkept.trans hv⟩)
  · intro hevicted
    have hthere : name ∈ s.store.versions.keys := by
      obtain ⟨v, hv⟩ := Option.isSome_iff_exists.mp hevicted.1
      exact OrderedDict.mem_keys_iff.mpr ⟨v, hv⟩
    have hne : name ≠ s.nextVersion := by
      rintro rfl
      exact hfresh hthere
    refine ⟨hthere, ?_⟩
    simp only [decide_eq_true_eq]
    exact OrderedDict.get?_eq_none_iff.mp (h.evicted name hne hevicted)

/-- A state with the new version in RAM and a directory for it. -/
theorem Stored.orderly {s : OriginServer} (hs : s.Orderly) {store : CheckpointStore}
    {version : Str} {buffer : Bytes} {shardSize : Nat} (h : Stored s store version buffer shardSize)
    (directories : OrderedDict Str VersionDirectory) :
    Orderly { s with store, directories } :=
  ⟨h.ledger, h.whole, hs.inOrder, hs.folders⟩

theorem nextVersion_ne_nil (s : OriginServer) : s.nextVersion ≠ [] :=
  List.cons_ne_nil _ _

/-- What a broadcast of `version` leaves of the others: RAM loses those it
evicts, the file and the disk those it drops. -/
structure Broadcasted (s t : OriginServer) (version : Str) (evicts drops : Str → Prop) :
    Prop where
  storeKept : ∀ name, name ≠ version → ¬ evicts name →
    t.store.versions.get? name = s.store.versions.get? name
  storeGone : ∀ name, name ≠ version → evicts name → t.store.versions.get? name = none
  lineKept : ∀ name, name ≠ version → ¬ drops name →
    t.distribution.get? name = s.distribution.get? name
  lineGone : ∀ name, name ≠ version → drops name → t.distribution.get? name = none
  directoryKept : ∀ name, name ≠ version → ¬ drops name →
    t.directories.get? name = s.directories.get? name
  orderly : t.Orderly
  capacity : t.store.capacity = s.store.capacity
  maxDistributionFolders : t.maxDistributionFolders = s.maxDistributionFolders
  diskMirror : t.diskMirror = s.diskMirror

/-- The directory of a new version is not there before. -/
theorem ensureDir_nextVersion {s : OriginServer} (hs : s.Stocked) (store : CheckpointStore) :
    ({ s with store } : OriginServer).ensureDir s.nextVersion =
      { s with store, directories := s.directories.insert s.nextVersion {} } := by
  have habsent : ¬ s.directories.contains s.nextVersion = true := by
    rw [OrderedDict.contains, hs.fresh.2.2]
    exact Bool.false_ne_true
  rw [ensureDir, if_neg habsent]

/-- A new version in RAM with its directory, and no line of it. -/
theorem Stored.unlisted {s : OriginServer} (hs : s.Orderly) {store : CheckpointStore}
    {buffer : Bytes} {shardSize : Nat} (h : Stored s store s.nextVersion buffer shardSize)
    {directories : OrderedDict Str VersionDirectory}
    (hdirectories : ∀ name, name ≠ s.nextVersion →
      directories.get? name = s.directories.get? name) :
    Broadcasted s { s with store, directories } s.nextVersion (s.Evicts buffer.length)
      fun _ => False where
  storeKept := fun name hne hspared => h.spared name hne hspared
  storeGone := fun name hne hevicted => h.evicted name hne hevicted
  lineKept := fun _ _ _ => rfl
  lineGone := fun _ _ h => h.elim
  directoryKept := fun name hne _ => hdirectories name hne
  orderly := h.orderly hs _
  capacity := h.capacity
  maxDistributionFolders := rfl
  diskMirror := rfl

/-- A new version is not among those it evicts. -/
theorem Stored.spares_next {s : OriginServer} (hs : s.Stocked) {store : CheckpointStore}
    {buffer : Bytes} {shardSize : Nat} (h : Stored s store s.nextVersion buffer shardSize) :
    s.nextVersion ∉ capacityEvictions s.store store := by
  rw [mem_capacityEvictions hs h]
  intro hevicted
  have hheld := hevicted.1
  rw [OrderedDict.contains, hs.fresh.1] at hheld
  cases hheld

/-- A new version in RAM with its directory is newer than all lines. -/
theorem Stored.announce {s : OriginServer} (hs : s.Orderly) {store : CheckpointStore}
    {buffer : Bytes} {shardSize : Nat} (h : Stored s store s.nextVersion buffer shardSize)
    (directories : OrderedDict Str VersionDirectory) (listing : Listing) (mirror : Bool) :
    Announced { s with store, directories }
      (({ s with store, directories } : OriginServer).announce s.nextVersion listing
        (capacityEvictions s.store store) mirror) s.nextVersion listing
      (fun name => mirror = false ∧ s.Evicts buffer.length name) := by
  have hlast : ∀ name ∈ s.distribution.keys, versionKey name < versionKey s.nextVersion :=
    fun name hname => Orderly.listed_older hname
  have hannounced : Announced { s with store, directories } _ s.nextVersion listing _ :=
    announce_announced (h.orderly hs directories) listing mirror hlast (h.spares_next hs.stocked)
  simpa only [mem_capacityEvictions hs.stocked h] using hannounced

/-- What is announced drops the oldest lines, and without a mirror those of the
versions that left RAM. -/
theorem Stored.listed {s : OriginServer} (hs : s.Orderly) {store : CheckpointStore}
    {buffer : Bytes} {shardSize : Nat} (h : Stored s store s.nextVersion buffer shardSize)
    {directories : OrderedDict Str VersionDirectory}
    (hdirectories : ∀ name, name ≠ s.nextVersion →
      directories.get? name = s.directories.get? name)
    (listing : Listing) (mirror : Bool) :
    Broadcasted s (({ s with store, directories } : OriginServer).announce s.nextVersion listing
        (capacityEvictions s.store store) mirror) s.nextVersion
      (fun name => s.Evicts buffer.length name ∨ s.Prunes name)
      fun name => s.Prunes name ∨ (mirror = false ∧ s.Evicts buffer.length name) := by
  have hannounced := h.announce hs directories listing mirror
  constructor
  · intro name hne hkept
    rw [not_or] at hkept
    exact (hannounced.storeKept name hkept.2).trans (h.spared name hne hkept.1)
  · intro name hne hgone
    by_cases hpruned : s.Prunes name
    · exact hannounced.storeGone name hpruned
    · exact (hannounced.storeKept name hpruned).trans
        (h.evicted name hne (hgone.resolve_right hpruned))
  · intro name hne hkept
    rw [not_or] at hkept
    exact hannounced.listedKept name hne hkept.1 hkept.2
  · intro name hne hgone
    exact hannounced.listedGone name hne hgone
  · intro name hne hkept
    rw [not_or] at hkept
    exact (hannounced.directoryKept name hkept.1 hkept.2).trans (hdirectories name hne)
  · exact hannounced.orderly
  · exact hannounced.capacity.trans h.capacity
  · exact hannounced.maxDistributionFolders
  · exact hannounced.diskMirror

/-- The line of a new version pushes out others only. -/
theorem not_prunes_nextVersion {s : OriginServer} (hs : s.Stocked) : ¬ s.Prunes s.nextVersion :=
  fun h => OrderedDict.get?_eq_none_iff.mp hs.fresh.2.1 (List.mem_of_mem_take h)

section
variable [Library]

/-- The manifest of the next version would be written in full. -/
def ManifestFits (s : OriginServer) (buffer : Bytes) (shardSize : Int) : Prop :=
  ∃ m raw, buildManifest s.nextVersion buffer shardSize = .ok m ∧ m.toBytes = .ok raw

/-- A bad size is all that keeps the next manifest from being built. -/
theorem size_of_buildManifest_error {s : OriginServer} {buffer : Bytes} {shardSize : Int} {e : Exc}
    (h : buildManifest s.nextVersion buffer shardSize = .error e) : shardSize ≤ 0 := by
  by_contra hsize
  obtain ⟨m, hbuilt⟩ := buildManifest_total s.nextVersion_ne_nil buffer
    (Int.lt_toNat.mpr (by simpa using hsize) : 0 < shardSize.toNat)
  rw [Int.toNat_of_nonneg (by omega), h] at hbuilt
  cases hbuilt

theorem not_manifestFits {s : OriginServer} {buffer : Bytes} {shardSize : Int} {m : ShardManifest}
    (hm : buildManifest s.nextVersion buffer shardSize = .ok m) {e : Exc}
    (hraw : m.toBytes = .error e) : ¬ s.ManifestFits buffer shardSize := by
  rintro ⟨m', raw, hm', hraw'⟩
  obtain rfl := Except.ok.inj (hm.symm.trans hm')
  cases hraw.symm.trans hraw'

/-- How `broadcast_buffer` ends. -/
inductive BufferCase (s : OriginServer) (buffer : Bytes) (shardSize : Int) (mirror : Bool) :
    Outcome → Prop where
  | refused (e : Exc) (bad : shardSize ≤ 0 ∨ s.store.capacity < buffer.length) :
      BufferCase s buffer shardSize mirror (.error e, s)
  /-- The version is in RAM, but its manifest is not written. -/
  | halted (e : Exc) (t : OriginServer) (size : 0 < shardSize)
      (fits : buffer.length ≤ s.store.capacity) (large : ¬ s.ManifestFits buffer shardSize)
      (held : ∃ v, t.store.versions.get? s.nextVersion = some v)
      (line : t.distribution.get? s.nextVersion = none)
      (rest : Broadcasted s t s.nextVersion (s.Evicts buffer.length) fun _ => False) :
      BufferCase s buffer shardSize mirror (.error e, t)
  | published (t : OriginServer) (size : 0 < shardSize)
      (fits : buffer.length ≤ s.store.capacity) (written : s.ManifestFits buffer shardSize)
      (held : ∃ v, InRam t.store s.nextVersion buffer shardSize.toNat v)
      (line : t.distribution.get? s.nextVersion =
        some ⟨lower (hexdigest buffer), shardCountOf buffer.length shardSize.toNat⟩)
      (rest : Broadcasted s t s.nextVersion
        (fun name => s.Evicts buffer.length name ∨ s.Prunes name)
        fun name => s.Prunes name ∨ (mirror = false ∧ s.Evicts buffer.length name)) :
      BufferCase s buffer shardSize mirror (.ok s.nextVersion, t)

theorem broadcastBuffer_case {s : OriginServer} (hs : s.Orderly) (buffer : Bytes) (shardSize : Int)
    (diskMirror : Option Bool) :
    BufferCase s buffer shardSize (diskMirror.getD s.diskMirror)
      (s.broadcastBuffer buffer shardSize diskMirror) := by
  rw [broadcastBuffer]
  generalize diskMirror.getD s.diskMirror = mirror
  have hother (directory : VersionDirectory) : ∀ name, name ≠ s.nextVersion →
      (s.directories.insert s.nextVersion directory).get? name = s.directories.get? name := by
    intro name hne
    rw [OrderedDict.get?_insert, if_neg hne]
  cases hm : buildManifest s.nextVersion buffer shardSize with
  | error e => exact .refused e (Or.inl (size_of_buildManifest_error hm))
  | ok m =>
    have hsize := (ShardManifest.buildManifest_eq_ok hm).2.1
    rcases putVerified_built hs.stocked hm with
      ⟨hlarge, e, hput⟩ | ⟨hfits, metadata, store, hput, hcount, hchecksum, hstored⟩
    · simp only [hput]
      exact .refused e (Or.inr hlarge)
    obtain ⟨files, hfiles, -⟩ := mirrorFiles_of_stored hstored mirror
    obtain ⟨v, hv⟩ := hstored.added
    simp only [hput, ensureDir_nextVersion hs.stocked, hcount, hfiles]
    cases hraw : m.toBytes with
    | error e =>
      exact .halted e _ hsize hfits (not_manifestFits hm hraw) ⟨v, hv.get⟩ hs.stocked.fresh.2.1
        (hstored.unlisted hs (hother {}))
    | ok raw =>
      simp only
      have hdirectories (directory : VersionDirectory) : ∀ name, name ≠ s.nextVersion →
          ((s.directories.insert s.nextVersion {}).insert s.nextVersion directory).get? name =
            s.directories.get? name := by
        intro name hne
        rw [OrderedDict.get?_insert, if_neg hne, hother {} name hne]
      have hannounced := hstored.announce hs ((s.directories.insert s.nextVersion {}).insert
        s.nextVersion { manifest := some raw, shards := files })
        ⟨metadata.checksum, shardCountOf buffer.length shardSize.toNat⟩ mirror
      have hspared : ¬ s.Prunes s.nextVersion := not_prunes_nextVersion hs.stocked
      have hheld := (hannounced.storeKept s.nextVersion hspared).trans hv.get
      exact .published _ hsize hfits ⟨m, raw, hm, hraw⟩
        ⟨v, hheld, hv.data, hv.totalSize, hv.shardCount, hv.shardSize⟩
        (hchecksum ▸ hannounced.listed) (hstored.listed hs (hdirectories _) _ mirror)

end

/-! ## A broadcast of a file too large for RAM -/

/-- The number of shards of a file as its line has it. -/
def fileShardCount (data : Bytes) (shardSize : Int) : Int :=
  ((data.length : Int) + shardSize - 1).fdiv shardSize

/-- What going to disk only leaves: the line and all files of the new version. -/
structure Filed [Library] (s t : OriginServer) (data : Bytes) (shardSize : Int) : Prop where
  line : t.distribution.get? s.nextVersion =
    some ⟨hexdigest data, fileShardCount data shardSize⟩
  files : ∃ directory, t.directories.get? s.nextVersion = some directory ∧
    directory.shards = fileShards data shardSize (fileShardCount data shardSize).toNat
  absent : t.store.versions.get? s.nextVersion = none
  rest : Broadcasted s t s.nextVersion s.Prunes s.Prunes

theorem get?_fileShards (data : Bytes) (shardSize : Int) (numShards index : Nat) :
    (fileShards data shardSize numShards).get? index =
      if index < numShards then some (Pieces.piece (readSize data shardSize) data index)
      else none := by
  rw [fileShards, OrderedDict.get?_foldl_range, Pieces.piece_eq_slice, OrderedDict.get?_empty]

theorem Orderly.ensureDir {s : OriginServer} (hs : s.Orderly) (version : Str) :
    (s.ensureDir version).Orderly := by
  rw [OriginServer.ensureDir]
  split_ifs
  · exact hs
  · exact ⟨hs.ledger, hs.whole, hs.inOrder, hs.folders⟩

theorem ensureDir_frame (s : OriginServer) (version : Str) :
    (s.ensureDir version).store = s.store ∧
      (s.ensureDir version).distribution = s.distribution ∧
      (s.ensureDir version).maxDistributionFolders = s.maxDistributionFolders ∧
      (s.ensureDir version).diskMirror = s.diskMirror ∧
      ∀ name, name ≠ version →
        (s.ensureDir version).directories.get? name = s.directories.get? name := by
  rw [OriginServer.ensureDir]
  split_ifs
  · exact ⟨rfl, rfl, rfl, rfl, fun _ _ => rfl⟩
  · refine ⟨rfl, rfl, rfl, rfl, ?_⟩
    intro name hne
    rw [OrderedDict.get?_insert, if_neg hne]

section
variable [Library]

theorem broadcastLarge_filed {s : OriginServer} (hs : s.Orderly) (data : Bytes) {shardSize : Int}
    (hsize : shardSize ≠ 0) :
    (s.broadcastLarge data shardSize).1 = .ok s.nextVersion ∧
      Filed s (s.broadcastLarge data shardSize).2 data shardSize := by
  obtain ⟨hstore, hdistribution, hmax, hmirror, hdirectories⟩ := s.ensureDir_frame s.nextVersion
  simp only [broadcastLarge, if_neg hsize, true_and]
  rw [← fileShardCount]
  generalize hnum : fileShardCount data shardSize = numShards
  generalize hbase : ({ s.ensureDir s.nextVersion with
    directories := (s.ensureDir s.nextVersion).directories.insert s.nextVersion
      { shards := fileShards data shardSize numShards.toNat } } : OriginServer) = base
  have hensured := hs.ensureDir s.nextVersion
  have horderly : base.Orderly :=
    hbase ▸ ⟨hensured.ledger, hensured.whole, hensured.inOrder, hensured.folders⟩
  have hlines : base.distribution = s.distribution := by rw [← hbase, hdistribution]
  have hpruned : ∀ name, base.Prunes name ↔ s.Prunes name := by
    intro name
    rw [Prunes, Prunes, hlines, ← hbase]
    simp only [hmax]
  have hlast : ∀ name ∈ base.distribution.keys, versionKey name < versionKey s.nextVersion := by
    rw [hlines]
    exact fun name hname => Orderly.listed_older hname
  have hannounced := announce_announced horderly ⟨hexdigest data, numShards⟩ true hlast
    List.not_mem_nil
  have hnone : ∀ name, ¬ (true = false ∧ name ∈ ([] : List Str)) := by
    rintro name ⟨h, -⟩
    cases h
  have hfreshPruned : ¬ s.Prunes s.nextVersion := fun h =>
    OrderedDict.get?_eq_none_iff.mp hs.stocked.fresh.2.1 (List.mem_of_mem_take h)
  refine ⟨hnum ▸ hannounced.listed, ⟨{ shards := fileShards data shardSize numShards.toNat }, ?_, ?_⟩,
    ?_, {
    storeKept := ?_, storeGone := ?_, lineKept := ?_, lineGone := ?_, directoryKept := ?_
    orderly := hannounced.orderly, capacity := ?_
    maxDistributionFolders := by rw [hannounced.maxDistributionFolders, ← hbase, hmax]
    diskMirror := by rw [hannounced.diskMirror, ← hbase, hmirror] }⟩
  · rw [hannounced.directoryKept _ (mt (hpruned _).mp hfreshPruned) (hnone _), ← hbase]
    simp only [OrderedDict.get?_insert, if_true]
  · rw [hnum]
  · rw [hannounced.storeKept _ (mt (hpruned _).mp hfreshPruned), ← hbase]
    exact (congrArg (fun store => store.versions.get? s.nextVersion) hstore).trans hs.stocked.fresh.1
  · intro name _ hkept
    rw [hannounced.storeKept name (mt (hpruned name).mp hkept), ← hbase, hstore]
  · intro name _ hgone
    exact hannounced.storeGone name ((hpruned name).mpr hgone)
  · intro name hne hkept
    rw [hannounced.listedKept name hne (mt (hpruned name).mp hkept) (hnone name), hlines]
  · intro name hne hgone
    exact hannounced.listedGone name hne (Or.inl ((hpruned name).mpr hgone))
  · intro name hne hkept
    rw [hannounced.directoryKept name (mt (hpruned name).mp hkept) (hnone name), ← hbase]
    simp only [OrderedDict.get?_insert, if_neg hne, hdirectories name hne]
  · rw [hannounced.capacity, ← hbase, hstore]

end

end OriginServer

end Litecast
