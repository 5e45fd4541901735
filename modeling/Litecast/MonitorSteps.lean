import Litecast.ManifestRoundTrip
import Litecast.OwnedShards

/-! What processing one version does to a middle, and when it raises. -/

namespace Litecast.Monitor

/-! ## Sound middles -/

/-- What the store of a middle holds of a version. -/
structure Kept (processed : List Str) (name : Str) (v : StoredVersion) : Prop where
  named : v.metadata.name = name
  whole : v.data.isSome = true → name ∈ processed
  digested : v.data = none → v.shardChecksums.length = v.metadata.shardCount
  sized : ∀ index shard, v.shards.get? index = some shard →
    (shard.length : Int) = CheckpointStore.expectedSize v.metadata index

structure Sound (s : Middle) : Prop where
  ledger : s.store.Ledger
  kept : s.store.Every (Kept s.processedVersions)

theorem Kept.mono {processed more : List Str} (hmore : ∀ name ∈ processed, name ∈ more) {name : Str}
    {v : StoredVersion} (h : Kept processed name v) : Kept more name v :=
  ⟨h.named, fun hwhole => hmore name (h.whole hwhole), h.digested, h.sized⟩

/-- The shards already held of a version. -/
def heldShards (store : CheckpointStore) (name : Str) : OrderedDict Nat Bytes :=
  (store.versions.get? name).elim .empty StoredVersion.shards

/-- A manifest a middle streams, with the shape its reader checked. -/
structure Usable (manifest : ShardManifest) : Prop where
  name_ne : manifest.name ≠ []
  shardSize_pos : 0 < manifest.shardSize
  shardCount_eq : manifest.shardCount = shardCountOf manifest.totalSize manifest.shardSize
  checksums_length : manifest.shardChecksums.length = manifest.shardCount

/-- What processing `version` leaves of the rest: others can only be evicted. -/
structure Advanced (s t : Middle) (version : Str) : Prop where
  sound : Sound t
  processed : ∀ name ∈ s.processedVersions, name ∈ t.processedVersions
  directories : ∀ name, name ≠ version → t.directories.get? name = s.directories.get? name
  fewer : ∀ name, name ≠ version → ∀ v, t.store.versions.get? name = some v →
    s.store.versions.get? name = some v
  capacity : t.store.capacity = s.store.capacity

theorem Advanced.refl {s : Middle} (hs : Sound s) (version : Str) : Advanced s s version :=
  ⟨hs, fun _ h => h, fun _ _ => rfl, fun _ _ _ h => h, rfl⟩

/-! ## Beginning a version -/

/-- The store holds another version under the manifest's name. -/
def Changed (s : Middle) (manifest : ShardManifest) : Prop :=
  ∃ v, s.store.versions.get? manifest.name = some v ∧
    (v.metadata ≠ metadataOf manifest ∨ v.shardChecksums ≠ manifest.shardChecksums)

/-- A store in which the manifest's version is begun, or was before. -/
structure Begun (s : Middle) (manifest : ShardManifest) (store : CheckpointStore) : Prop where
  ledger : store.Ledger
  kept : store.Every (Kept s.processedVersions)
  held : Held store manifest.name (metadataOf manifest) manifest.shardChecksums
    (heldShards s.store manifest.name)
  bytes : ∀ name, store.bytesFrom name = s.store.bytesFrom name
  older : store.olderThan manifest.name = s.store.olderThan manifest.name
  capacity : store.capacity = s.store.capacity
  others : ∀ name, name ≠ manifest.name → store.versions.get? name = s.store.versions.get? name

section
variable {s : Middle} {manifest : ShardManifest}

/-- What is held of an unprocessed version has the checksums of a manifest. -/
theorem Sound.partial_of_new (hs : Sound s) (hnew : manifest.name ∉ s.processedVersions)
    {v : StoredVersion} (hv : s.store.versions.get? manifest.name = some v) :
    v.data = none ∧ v.shardChecksums.length = v.metadata.shardCount := by
  have hkept := hs.kept _ _ hv
  have hdata : v.data = none := by
    rw [← Option.not_isSome_iff_eq_none]
    exact fun hwhole => hnew (hkept.whole hwhole)
  exact ⟨hdata, hkept.digested hdata⟩

theorem begin_refused (hs : Sound s) (hm : Usable manifest)
    (hnew : manifest.name ∉ s.processedVersions) (h : Changed s manifest) :
    ∃ e, s.store.beginVersion (metadataOf manifest) manifest.shardChecksums = (.error e, s.store) := by
  obtain ⟨v, hv, hdiffers⟩ := h
  have hargs : (CheckpointStore.validateName (metadataOf manifest).name).or
      (CheckpointStore.validateShardSize (metadataOf manifest).shardSize) = none :=
    CheckpointStore.validated_of_pos hm.name_ne hm.shardSize_pos
  have hlength : ¬ manifest.shardChecksums.length ≠ (metadataOf manifest).shardCount :=
    not_not.mpr hm.checksums_length
  have hv' : s.store.versions.get? (metadataOf manifest).name = some v := hv
  have hrefused : v.metadata ≠ metadataOf manifest ∨
      (v.shardChecksums ≠ [] ∧ v.shardChecksums ≠ manifest.shardChecksums) := by
    by_cases hmetadata : v.metadata = metadataOf manifest
    · have hchecksums := hdiffers.resolve_left (not_not.mpr hmetadata)
      refine Or.inr ⟨?_, hchecksums⟩
      intro hnil
      have hcount := (hs.partial_of_new hnew hv).2
      rw [hnil, hmetadata] at hcount
      exact hchecksums (hnil.trans (List.length_eq_zero_iff.mp
        (hm.checksums_length.trans hcount.symm)).symm)
    · exact Or.inl hmetadata
  rw [CheckpointStore.beginVersion, hargs]
  simp only [if_neg hlength, hv', if_pos hrefused]
  exact ⟨_, rfl⟩

theorem begin_begun (hs : Sound s) (hm : Usable manifest)
    (hnew : manifest.name ∉ s.processedVersions) (h : ¬ Changed s manifest) :
    ∃ metadata store, s.store.beginVersion (metadataOf manifest) manifest.shardChecksums =
      (.ok metadata, store) ∧ Begun s manifest store := by
  have hargs : (CheckpointStore.validateName (metadataOf manifest).name).or
      (CheckpointStore.validateShardSize (metadataOf manifest).shardSize) = none :=
    CheckpointStore.validated_of_pos hm.name_ne hm.shardSize_pos
  have hlength : ¬ manifest.shardChecksums.length ≠ (metadataOf manifest).shardCount :=
    not_not.mpr hm.checksums_length
  have hledger := hs.ledger.beginVersion manifest.shardChecksums
    (show (metadataOf manifest).shardCount = _ from hm.shardCount_eq)
  have hkept : (s.store.beginVersion (metadataOf manifest) manifest.shardChecksums).2.Every
      (Kept s.processedVersions) := by
    refine CheckpointStore.Every.beginVersion hs.kept _ _ ?_ ?_
    · exact fun _ hcount => ⟨rfl, by simp, fun _ => hcount, by simp⟩
    · intro v hv hsame _ hcount
      have hold := hs.kept _ _ hv
      exact ⟨hold.named, hold.whole, fun _ => hsame ▸ hcount, hold.sized⟩
  rw [CheckpointStore.beginVersion, hargs]
  simp only [if_neg hlength]
  cases hv : s.store.versions.get? manifest.name with
  | some v =>
    obtain ⟨hmetadata, hchecksums⟩ : v.metadata = metadataOf manifest ∧
        v.shardChecksums = manifest.shardChecksums := by
      by_contra hdiffers
      rw [not_and_or] at hdiffers
      exact h ⟨v, hv, hdiffers⟩
    have hdata := (hs.partial_of_new hnew hv).1
    have hv' : s.store.versions.get? (metadataOf manifest).name = some v := hv
    have hrefused : ¬ (v.metadata ≠ metadataOf manifest ∨
        (v.shardChecksums ≠ [] ∧ v.shardChecksums ≠ manifest.shardChecksums)) := by
      simp [hmetadata, hchecksums]
    have hbegun : Begun s manifest s.store := by
      refine ⟨hs.ledger, hs.kept, ⟨?_, ?_⟩, fun _ => rfl, rfl, rfl, fun _ _ => rfl⟩
      · rw [hv, heldShards, hv]
        cases v
        simp only at hmetadata hchecksums hdata
        subst hmetadata hchecksums hdata
        rfl
      · rw [heldShards, hv]
        exact fun index shard hshard => hmetadata ▸ (hs.kept _ _ hv).sized index shard hshard
    simp only [hv', if_neg hrefused]
    split_ifs with hnil
    · -- attaching no checksums changes nothing
      have hsame : { v with shardChecksums := manifest.shardChecksums } = v := by rw [← hchecksums]
      refine ⟨_, _, rfl, ?_⟩
      rw [hsame, OrderedDict.insert_same hv']
      exact hbegun
    · exact ⟨_, _, rfl, hbegun⟩
  | none =>
    have hv' : s.store.versions.get? (metadataOf manifest).name = none := hv
    simp only [hv']
    refine ⟨_, _, rfl, ?_⟩
    simp only [hargs, if_neg hlength, hv', CheckpointStore.beginVersion] at hledger hkept
    refine ⟨hledger, hkept, ⟨?_, ?_⟩, ?_, ?_, rfl, ?_⟩
    · rw [heldShards, hv]
      simp only [metadataOf, OrderedDict.get?_insert, if_true, Option.elim_none]
    · rw [heldShards, hv]
      intro index shard hshard
      cases hshard
    · exact CheckpointStore.bytesFrom_begin s.store hv rfl
    · exact CheckpointStore.olderThan_begin s.store hv _
    · intro name hname
      simp only [metadataOf, OrderedDict.get?_insert, if_neg hname]

end

/-! ## Assignments -/

section
variable [Library] {S : Type} [LinearOrder S] {score : Str → Nat → Str → MemberProfile → S}

omit [Library] in
theorem index_of_assigned {node : MiddleNode} {index : Nat} {owners : List Str} {a : Assignment}
    (h : node.assignmentOf index owners = some a) : a.index = index := by
  cases owners with
  | nil => cases h
  | cons primary replicas =>
    simp only [MiddleNode.assignmentOf] at h
    split_ifs at h <;> exact (congrArg Assignment.index (Option.some.inj h)).symm

theorem found_sublist {node : MiddleNode} {manifest : ShardManifest} {indices : List Nat}
    {found : List (Option Assignment)}
    (h : List.Forall₂ (fun index a => (do
      return node.assignmentOf index (← node.owners score manifest index)) = Except.ok a)
        indices found) :
    ((found.filterMap id).map Assignment.index).Sublist indices := by
  induction h with
  | nil => exact List.Sublist.refl _
  | @cons index a _ _ hhead _ ih =>
    obtain ⟨owners, -, ha⟩ := bind_eq_ok.mp hhead
    obtain rfl := Except.ok.inj ha
    cases hassigned : node.assignmentOf index owners with
    | none => exact ih.cons index
    | some a =>
      rw [List.filterMap_cons_some (f := id) (b := a) rfl, List.map_cons,
        index_of_assigned hassigned]
      exact ih.cons_cons _

/-- A shard is assigned once, and only a shard of the manifest. -/
theorem assignments_spec {node : MiddleNode} {manifest : ShardManifest}
    {assignments : List Assignment} (h : node.assignments score manifest = .ok assignments) :
    (assignments.map Assignment.index).Nodup ∧
      ∀ index ∈ assignments.map Assignment.index, index < manifest.shardCount := by
  rw [MiddleNode.assignments] at h
  obtain ⟨found, hfound, hassignments⟩ := bind_eq_ok.mp h
  obtain rfl := Except.ok.inj hassignments
  have hsub := found_sublist (mapM_eq_ok.mp hfound)
  have hperm : ((found.filterMap id).filter (·.role = .primary) ++
      (found.filterMap id).filter (·.role = .replica)).Perm (found.filterMap id) := by
    have hsame : (found.filterMap id).filter (·.role = .replica) =
        (found.filterMap id).filter fun a => !decide (a.role = .primary) := by
      apply List.filter_congr
      intro a _
      cases a.role <;> rfl
    rw [hsame]
    exact List.filter_append_perm _ _
  have hmap := hperm.map Assignment.index
  refine ⟨hmap.nodup_iff.mpr (hsub.nodup List.nodup_range), ?_⟩
  exact fun index hindex => List.mem_range.mp (hsub.subset (hmap.subset hindex))

/-! ## Streaming a version -/

omit [Library] in
theorem Sound.processed {s : Middle} (hs : Sound s) (version : Str) :
    Sound { s with processedVersions := s.processedVersions.insert version } :=
  ⟨hs.ledger, fun name v hv =>
    (hs.kept name v hv).mono fun _ hname => List.mem_insert_of_mem hname⟩

/-- The tasks leave a store each put of theirs keeps in order. -/
theorem arrivals_keep {P : CheckpointStore → Prop} {name : Str}
    (hput : ∀ (store : CheckpointStore) (index : Int) (payload : Bytes) (checksum : Option Str),
      P store → P (store.putShardCore name index payload checksum).2)
    (diskMirror : Bool) (arrivals : List Arrival) {f : Fetching} (hf : P f.store) :
    P (arrivals.foldl (Fetching.arrive name diskMirror) f).store := by
  induction arrivals generalizing f with
  | nil => exact hf
  | cons a rest ih =>
    apply ih
    rw [Fetching.arrive]
    by_cases hwaited : a.index ∈ f.pending
    · rw [if_pos hwaited]
      have hstore := hput f.store a.index a.payload (a.verifiedChecksum.map lower) hf
      rw [← putArrival_eq] at hstore
      generalize putArrival f.store name a = outcome at hstore ⊢
      obtain ⟨result, store⟩ := outcome
      cases result with
      | ok => exact hstore
      | error e =>
        simp only
        by_cases hvalue : e.cls.isValueError = true
        · rw [if_pos hvalue]
          exact hstore
        · rw [if_neg hvalue]
          exact hstore
    · rw [if_neg hwaited]
      exact hf

theorem kept_putShardCore {processed : List Str} {store : CheckpointStore}
    (h : store.Every (Kept processed)) (name : Str) (index : Int) (payload : Bytes)
    (checksum : Option Str) :
    (store.putShardCore name index payload checksum).2.Every (Kept processed) := by
  refine CheckpointStore.Every.putShardCore h name index payload checksum ?_
  intro v hv haccepted
  have hold := h _ _ hv
  refine ⟨hold.named, hold.whole, hold.digested, ?_⟩
  intro other shard hshard
  rw [OrderedDict.get?_insert] at hshard
  split_ifs at hshard with hindex
  · obtain rfl := Option.some.inj hshard
    have hrange : 0 ≤ index := by
      rw [CheckpointStore.shardRejection] at haccepted
      split_ifs at haccepted with hrange
      all_goals omega
    rw [hindex, Int.toNat_of_nonneg hrange]
    exact CheckpointStore.length_of_accepted haccepted
  · exact hold.sized other shard hshard

/-- What makes streaming a version raise. -/
inductive StreamRaises (score : Str → Nat → Str → MemberProfile → S) (config : Config) (s : Middle)
    (node : MiddleNode) (manifest : ShardManifest) (arrivals : List Arrival) : Prop where
  | changed (other : Changed s manifest)
  /-- A name in the local file, or this one, has the prefix and no number. -/
  | unnumbered (name : Str) (listed : name = manifest.name ∨ name ∈ s.lines.keys)
      (unreadable : lineKey? name = none)
  /-- UCXX does not take the name. -/
  | unannounced (e : Exc) (listener : config.ucxxServer = true)
      (refused : Ucxx.validateVersion manifest.name = .error e)
  | unplaced (e : Exc) (owners : node.assignments score manifest = .error e)
  /-- A shard of this middle is never offered as it should be. -/
  | starved (assignments : List Assignment)
      (owners : node.assignments score manifest = .ok assignments) (index : Nat)
      (assigned : index ∈ assignments.map Assignment.index)
      (never : ∀ a ∈ arrivals, a.index = index →
        ¬ Accepts (metadataOf manifest) manifest.shardChecksums a)
  /-- The shards of this middle do not fit beside the versions begun later. -/
  | crowded (assignments : List Assignment)
      (owners : node.assignments score manifest = .ok assignments)
      (full : s.store.capacity < s.store.bytesFrom manifest.name +
        missingBytes (metadataOf manifest) (heldShards s.store manifest.name)
          (assignments.map Assignment.index))

theorem updateLines_eq_ok_iff {lines : Lines} {version checksum : Str} {maxVersions numShards : Nat} :
    (updateLines lines version checksum maxVersions numShards).1 = .ok () ↔
      ∀ name, name = version ∨ name ∈ lines.keys → (lineKey? name).isSome = true := by
  have hkeys : ∀ name, name ∈ (lines.insert version (lineInfo checksum numShards)).keys ↔
      name = version ∨ name ∈ lines.keys := by
    intro name
    simp only [OrderedDict.mem_keys_iff, OrderedDict.get?_insert]
    by_cases hname : name = version
    · simp [hname]
    · simp [hname]
  rw [updateLines]
  by_cases hall : (lines.insert version (lineInfo checksum numShards)).keys.all
      fun name => (lineKey? name).isSome
  · simp only [if_pos hall, true_iff]
    exact fun name hname => List.all_eq_true.mp hall name ((hkeys name).mpr hname)
  · simp only [if_neg hall, reduceCtorEq, false_iff]
    intro hnumbered
    apply hall
    rw [List.all_eq_true]
    exact fun name hname => hnumbered name ((hkeys name).mp hname)

/-- Putting shards of one version changes no other, but for evictions. -/
theorem putShardCore_fewer (store : CheckpointStore) (version : Str) (index : Int)
    (payload : Bytes) (checksum : Option Str) {name : Str} (hne : name ≠ version)
    {v : StoredVersion}
    (h : (store.putShardCore version index payload checksum).2.versions.get? name = some v) :
    store.versions.get? name = some v := by
  rw [CheckpointStore.putShardCore] at h
  split at h
  · exact h
  · split at h
    · exact h
    · simp only at h
      split at h
      · exact CheckpointStore.get?_evictOldest h
      · rw [OrderedDict.get?_insert, if_neg hne] at h
        exact CheckpointStore.get?_evictOldest h

/-- The tasks start on what is held of the version. -/
theorem Begun.underway {s : Middle} {manifest : ShardManifest} {store : CheckpointStore}
    (h : Begun s manifest store) {node : MiddleNode} {assignments : List Assignment}
    (howners : node.assignments score manifest = .ok assignments)
    (files : OrderedDict Nat Bytes) :
    Underway manifest.name (metadataOf manifest) manifest.shardChecksums
      (s.store.bytesFrom manifest.name + missingBytes (metadataOf manifest)
        (heldShards s.store manifest.name) (assignments.map Assignment.index))
      ⟨store, files, assignments.map Assignment.index, []⟩ := by
  obtain ⟨hnodup, hwithin⟩ := assignments_spec howners
  exact ⟨h.ledger, ⟨_, h.held, by rw [h.bytes]⟩, hnodup, hwithin, rfl⟩

omit [Library] in
/-- A store in which of the versions of `s` but `version` some were evicted. -/
structure Replaces (s : Middle) (version : Str) (store : CheckpointStore) : Prop where
  ledger : store.Ledger
  kept : store.Every (Kept s.processedVersions)
  fewer : ∀ name, name ≠ version → ∀ v, store.versions.get? name = some v →
    s.store.versions.get? name = some v
  capacity : store.capacity = s.store.capacity

omit [Library] in
theorem Replaces.advanced {s : Middle} {version : Str} {store : CheckpointStore}
    (h : Replaces s version store) {directories : OrderedDict Str VersionDirectory}
    (hdirectories : ∀ name, name ≠ version → directories.get? name = s.directories.get? name)
    (lines : Lines) (availableVersions : List Str) :
    Advanced s { s with store, lines, directories, availableVersions } version :=
  ⟨⟨h.ledger, h.kept⟩, fun _ hname => hname, hdirectories, h.fewer, h.capacity⟩

omit [Library] in
theorem Advanced.listed {s t : Middle} {version : Str} (h : Advanced s t version) :
    Advanced s { t with processedVersions := t.processedVersions.insert version } version :=
  ⟨h.sound.processed version, fun name hname => List.mem_insert_of_mem (h.processed name hname),
    h.directories, h.fewer, h.capacity⟩

omit [Library] in
theorem Begun.replaces {s : Middle} {manifest : ShardManifest} {store : CheckpointStore}
    (h : Begun s manifest store) : Replaces s manifest.name store :=
  ⟨h.ledger, h.kept, fun name hne _ hv => h.others name hne ▸ hv, h.capacity⟩

/-- The tasks put shards of this version. -/
theorem Begun.fetched {s : Middle} {manifest : ShardManifest} {store : CheckpointStore}
    (h : Begun s manifest store) (hm : Usable manifest) {node : MiddleNode}
    {assignments : List Assignment} (howners : node.assignments score manifest = .ok assignments)
    (files : OrderedDict Nat Bytes) (diskMirror : Bool) (arrivals : List Arrival) :
    Replaces s manifest.name (arrivals.foldl (Fetching.arrive manifest.name diskMirror)
      ⟨store, files, assignments.map Assignment.index, []⟩).store := by
  have hran := arrivals_ran (h.underway howners files) hm.checksums_length diskMirror arrivals
  constructor
  · exact hran.underway.ledger
  · apply arrivals_keep (P := fun store => store.Every (Kept s.processedVersions))
    · intro store index payload checksum hkept
      exact kept_putShardCore hkept manifest.name index payload checksum
    · exact h.kept
  · apply arrivals_keep (P := fun store => ∀ name, name ≠ manifest.name → ∀ v,
      store.versions.get? name = some v → s.store.versions.get? name = some v)
    · intro store index payload checksum hfewer name hne v hv
      exact hfewer name hne v (putShardCore_fewer store manifest.name index payload checksum hne hv)
    · exact h.replaces.fewer
  · exact hran.capacity.trans h.capacity

/-- The tasks come to their end exactly when each shard is offered and there is room. -/
theorem Begun.fetched_iff {s : Middle} {manifest : ShardManifest} {store : CheckpointStore}
    (h : Begun s manifest store) (hm : Usable manifest) {node : MiddleNode}
    {assignments : List Assignment} (howners : node.assignments score manifest = .ok assignments)
    (files : OrderedDict Nat Bytes) (diskMirror : Bool) (arrivals : List Arrival) :
    (arrivals.foldl (Fetching.arrive manifest.name diskMirror)
        ⟨store, files, assignments.map Assignment.index, []⟩).failure = none ↔
      (∀ index ∈ assignments.map Assignment.index, ∃ a ∈ arrivals, a.index = index ∧
        Accepts (metadataOf manifest) manifest.shardChecksums a) ∧
      s.store.bytesFrom manifest.name + missingBytes (metadataOf manifest)
        (heldShards s.store manifest.name) (assignments.map Assignment.index) ≤ s.store.capacity := by
  rw [completes_iff (h.underway howners files) hm.checksums_length diskMirror arrivals, h.capacity]

/-- How announcing a version ends. -/
inductive NotifyCase (config : Config) (s : Middle) (version : Str) :
    Except Exc Unit × Middle → Prop where
  | refused (e : Exc) (listener : config.ucxxServer = true)
      (invalid : Ucxx.validateVersion version = .error e) : NotifyCase config s version (.error e, s)
  | announced (availableVersions : List Str)
      (valid : config.ucxxServer = true → Ucxx.validateVersion version = .ok ()) :
      NotifyCase config s version (.ok (), { s with availableVersions })

omit [Library] in
theorem notify_case (config : Config) (s : Middle) (version : Str) :
    NotifyCase config s version (s.notifyVersionAvailable config version) := by
  rw [Middle.notifyVersionAvailable]
  by_cases hlistener : config.ucxxServer = true
  · rw [if_pos hlistener]
    cases hvalid : Ucxx.validateVersion version with
    | error e => exact .refused e hlistener hvalid
    | ok => exact .announced _ fun _ => hvalid
  · rw [if_neg hlistener]
    exact .announced s.availableVersions fun hthere => absurd hthere hlistener

/-- A middle that has begun to stream a version and announced it. -/
structure Announced (s : Middle) (manifest : ShardManifest) (directory : VersionDirectory)
    (t : Middle) : Prop where
  begun : Begun s manifest t.store
  directories : t.directories = s.directories.insert manifest.name directory
  processed : t.processedVersions = s.processedVersions

variable (score) in
/-- The tasks of an announced version. -/
theorem assigned_spec {s t : Middle} {manifest : ShardManifest} (hm : Usable manifest)
    {directory : VersionDirectory} (ht : Announced s manifest directory t) (config : Config)
    (node : MiddleNode) (arrivals : List Arrival) :
    Advanced s (fetchAssigned score config t node manifest directory arrivals).2 manifest.name ∧
      (∀ e, (fetchAssigned score config t node manifest directory arrivals).1 = .error e →
        StreamRaises score config s node manifest arrivals) ∧
      ((fetchAssigned score config t node manifest directory arrivals).1 = .ok () →
        manifest.name ∈
          (fetchAssigned score config t node manifest directory arrivals).2.processedVersions ∧
        ∃ assignments, node.assignments score manifest = .ok assignments ∧
          (∀ index ∈ assignments.map Assignment.index, ∃ a ∈ arrivals, a.index = index ∧
            Accepts (metadataOf manifest) manifest.shardChecksums a) ∧
          s.store.bytesFrom manifest.name + missingBytes (metadataOf manifest)
            (heldShards s.store manifest.name) (assignments.map Assignment.index) ≤
              s.store.capacity) := by
  obtain ⟨store, lines, directories, processedVersions, availableVersions⟩ := t
  obtain ⟨hbegun, rfl, rfl⟩ := ht
  have hinserted (directories : OrderedDict Str VersionDirectory) (directory : VersionDirectory)
      (name : Str) (hne : name ≠ manifest.name) :
      (directories.insert manifest.name directory).get? name = directories.get? name := by
    rw [OrderedDict.get?_insert, if_neg hne]
  rw [fetchAssigned]
  cases howners : node.assignments score manifest with
  | error e =>
    refine ⟨hbegun.replaces.advanced (hinserted _ _) lines _, ?_, fun h => nomatch h⟩
    exact fun _ _ => .unplaced e howners
  | ok assignments =>
    have hstore := hbegun.fetched hm howners directory.shards config.diskMirror arrivals
    have hcompletes := hbegun.fetched_iff hm howners directory.shards config.diskMirror arrivals
    simp only
    generalize arrivals.foldl (Fetching.arrive manifest.name config.diskMirror) _ = f
      at hstore hcompletes ⊢
    have hdirectories (directory' : VersionDirectory) : ∀ name, name ≠ manifest.name →
        ((s.directories.insert manifest.name directory).insert manifest.name directory').get? name =
          s.directories.get? name :=
      fun name hne => (hinserted _ _ name hne).trans (hinserted _ _ name hne)
    have hafter (directory' : VersionDirectory) :=
      hstore.advanced (hdirectories directory') lines availableVersions
    cases hfailure : f.failure with
    | some e =>
      refine ⟨hafter _, fun _ _ => ?_, fun h => nomatch h⟩
      simp only [hfailure, reduceCtorEq, false_iff, not_and_or, not_forall] at hcompletes
      rcases hcompletes with ⟨index, hassigned, hnever⟩ | hfull
      · refine .starved assignments howners index hassigned ?_
        intro a ha hindex haccepts
        exact hnever ⟨a, ha, hindex, haccepts⟩
      · exact .crowded assignments howners (not_le.mp hfull)
    | none =>
      refine ⟨(hafter _).listed, fun _ h => (nomatch h), fun _ => ?_⟩
      exact ⟨List.mem_insert_self, assignments, rfl, hcompletes.mp hfailure⟩

variable (score) in
theorem streaming_spec {s : Middle} (hs : Sound s) {manifest : ShardManifest} (hm : Usable manifest)
    (hnew : manifest.name ∉ s.processedVersions) (config : Config) (node : MiddleNode)
    (payload : Bytes) (arrivals : List Arrival) :
    Advanced s (processStreamingVersion score config s node manifest payload arrivals).2
        manifest.name ∧
      ((processStreamingVersion score config s node manifest payload arrivals).1 = .ok () ↔
        ¬ StreamRaises score config s node manifest arrivals) ∧
      ((processStreamingVersion score config s node manifest payload arrivals).1 = .ok () →
        manifest.name ∈
          (processStreamingVersion score config s node manifest payload arrivals).2.processedVersions) := by
  have hraised {t : Middle} {e : Exc} (hadvanced : Advanced s t manifest.name)
      (hraises : StreamRaises score config s node manifest arrivals) :
      Advanced s t manifest.name ∧
        ((.error e : Except Exc Unit) = .ok () ↔
          ¬ StreamRaises score config s node manifest arrivals) ∧
        ((.error e : Except Exc Unit) = .ok () → manifest.name ∈ t.processedVersions) :=
    ⟨hadvanced, iff_of_false (fun h => nomatch h) (not_not.mpr hraises), fun h => nomatch h⟩
  have hdirectory (directory : VersionDirectory) (name : Str) (hne : name ≠ manifest.name) :
      (s.directories.insert manifest.name directory).get? name = s.directories.get? name := by
    rw [OrderedDict.get?_insert, if_neg hne]
  rw [processStreamingVersion]
  by_cases hchanged : Changed s manifest
  · obtain ⟨e, hbegin⟩ := begin_refused hs hm hnew hchanged
    simp only [hbegin]
    exact hraised (.refl hs _) (.changed hchanged)
  obtain ⟨metadata, store, hbegin, hbegun⟩ := begin_begun hs hm hnew hchanged
  simp only [hbegin]
  have hnumbered := @updateLines_eq_ok_iff _ s.lines manifest.name manifest.checksum 100000
    manifest.shardCount
  generalize updateLines s.lines manifest.name manifest.checksum 100000 manifest.shardCount =
    outcome at hnumbered ⊢
  obtain ⟨result, lines⟩ := outcome
  cases result with
  | error e =>
    simp only [reduceCtorEq, false_iff, not_forall] at hnumbered
    obtain ⟨name, hlisted, hnone⟩ := hnumbered
    exact hraised (hbegun.replaces.advanced (hdirectory _) lines _)
      (.unnumbered name hlisted (Option.not_isSome_iff_eq_none.mp hnone))
  | ok =>
    simp only [true_iff] at hnumbered
    simp only
    generalize hmade : { (s.directories.get? manifest.name).getD {} with manifest := some payload } =
      directory
    have hnotified := notify_case config
      { s with store, directories := s.directories.insert manifest.name directory, lines }
      manifest.name
    generalize Middle.notifyVersionAvailable config _ _ = outcome at hnotified ⊢
    cases hnotified with
    | refused e listener invalid =>
      exact hraised (hbegun.replaces.advanced (hdirectory _) lines _)
        (.unannounced e listener invalid)
    | announced availableVersions valid =>
      obtain ⟨hadvanced, hfailed, hdone⟩ := assigned_spec score hm
        (t := { s with store, directories := s.directories.insert manifest.name directory
                       lines, availableVersions })
        ⟨hbegun, rfl, rfl⟩ config node arrivals
      refine ⟨hadvanced, ⟨fun h => ?_, fun hquiet => ?_⟩, fun h => (hdone h).1⟩
      · obtain ⟨-, assignments, howners, hoffered, hroom⟩ := hdone h
        rintro (hother | ⟨name, hlisted, hnone⟩ | ⟨e, listener, invalid⟩ | ⟨e, herror⟩ |
          ⟨assignments', howners', index, hassigned, hnever⟩ | ⟨assignments', howners', hfull⟩)
        · exact hchanged hother
        · have hsome := hnumbered name hlisted
          rw [hnone] at hsome
          cases hsome
        · cases invalid.symm.trans (valid listener)
        · cases howners.symm.trans herror
        · obtain rfl := Except.ok.inj (howners.symm.trans howners')
          obtain ⟨a, ha, hindex, haccepts⟩ := hoffered index hassigned
          exact hnever a ha hindex haccepts
        · obtain rfl := Except.ok.inj (howners.symm.trans howners')
          exact absurd hroom (not_le.mpr hfull)
      · cases hresult : (fetchAssigned score config _ node manifest directory arrivals).1 with
        | ok => rfl
        | error e => exact absurd (hfailed e hresult) hquiet

/-! ## Storing a whole version -/

/-- How `put` ends without shard checksums. -/
inductive PutCase (s : CheckpointStore) (name : Str) (data : Bytes) (shardSize : Int)
    (checksum : Str) : CheckpointStore.Outcome VersionMetadata → Prop where
  | refused (e : Exc) (value : e.cls.isValueError = true)
      (why : name = [] ∨ shardSize ≤ 0 ∨ s.capacity < data.length ∨ lower checksum ≠ hexdigest data) :
      PutCase s name data shardSize checksum (.error e, s)
  | stored (metadata : VersionMetadata) (size : 0 < metadata.shardSize)
      (given : metadata.shardSize = shardSize) (fits : data.length ≤ s.capacity)
      (named : metadata.name = name) (named_ne : name ≠ [])
      (total : metadata.totalSize = data.length)
      (count : metadata.shardCount = shardCountOf metadata.totalSize metadata.shardSize)
      (digest : lower checksum = hexdigest data) :
      PutCase s name data shardSize checksum (.ok metadata, s.storeComplete metadata data [])

theorem put_case (s : CheckpointStore) (name : Str) (data : Bytes) (shardSize : Int)
    (checksum : Str) :
    PutCase s name data shardSize checksum (s.put name data shardSize (some checksum)) := by
  rw [CheckpointStore.put]
  split
  · next e hinvalid =>
    rw [Option.or_eq_some_iff] at hinvalid
    rcases hinvalid with hname | ⟨-, hsize⟩
    · rw [CheckpointStore.validateName] at hname
      split_ifs at hname with hnil
      obtain rfl := Option.some.inj hname
      exact .refused _ rfl (Or.inl hnil)
    · rw [CheckpointStore.validateShardSize] at hsize
      split_ifs at hsize with hnonpos
      obtain rfl := Option.some.inj hsize
      exact .refused _ rfl (Or.inr (Or.inl hnonpos))
  · next hvalid =>
    have hpos := CheckpointStore.shardSize_toNat_pos hvalid
    have hname : name ≠ [] := by
      rintro rfl
      cases hvalid
    split_ifs with hlarge hchecksum
    · exact .refused _ rfl (Or.inr (Or.inr (Or.inl hlarge)))
    · refine .refused _ rfl (Or.inr (Or.inr (Or.inr ?_)))
      simpa using hchecksum
    · have hnone : ∀ count, CheckpointStore.validateShardChecksums [] count = none := by
        intro count
        simp [CheckpointStore.validateShardChecksums]
      simp only [hnone]
      simp only [Option.any_some, decide_eq_true_eq, not_not] at hchecksum
      exact .stored _ hpos (Int.toNat_of_nonneg (by omega)) (not_lt.mp hlarge) rfl hname rfl rfl
        hchecksum

omit [Library] in
theorem evictOldest_capacity (s : CheckpointStore) (need : Int) (keep : Str → Bool) (fuel : Nat) :
    (s.evictOldest need keep fuel).capacity = s.capacity := by
  induction fuel generalizing s with
  | zero => rfl
  | succ fuel ih =>
    rw [CheckpointStore.evictOldest]
    split
    · rfl
    · split
      · exact ih _
      · rfl

omit [Library] in
/-- Storing a whole version changes no other, but for evictions. -/
theorem storeComplete_fewer (s : CheckpointStore) (metadata : VersionMetadata) (retained : Bytes)
    (shardChecksums : List Str) {name : Str} (hne : name ≠ metadata.name) {v : StoredVersion}
    (h : (s.storeComplete metadata retained shardChecksums).versions.get? name = some v) :
    s.versions.get? name = some v := by
  rw [CheckpointStore.storeComplete_eq, OrderedDict.get?_insert, if_neg hne] at h
  have hpopped := CheckpointStore.get?_evictOldest h
  rw [CheckpointStore.popped] at hpopped
  split at hpopped
  · exact hpopped
  · rwa [OrderedDict.get?_erase, if_neg hne] at hpopped

omit [Library] in
theorem mirror_total {store : CheckpointStore} {version : Str} {v : StoredVersion} {data : Bytes}
    (hv : store.versions.get? version = some v) (hdata : v.data = some data)
    (htotal : v.metadata.totalSize = data.length) (shards : OrderedDict Nat Bytes) :
    ∃ files, mirror store version v.metadata.shardCount shards = .ok files ∧
      ∀ index < v.metadata.shardCount, files.contains index = true := by
  obtain ⟨files, hfiles, hget⟩ := CheckpointStore.readShards_of_data hv hdata htotal shards
    v.metadata.shardCount (Nat.le_refl _)
  refine ⟨files, hfiles, fun index hindex => ?_⟩
  rw [OrderedDict.contains, hget, if_pos hindex]
  rfl

/-- Storing a whole version never raises out of `_process_version`. -/
theorem buffer_spec {s : Middle} (hs : Sound s) (config : Config) (version checksum : Str)
    (expectedCount : Nat) (data : Bytes) :
    Advanced s (processBuffer config s version checksum expectedCount data).2 version ∧
      (processBuffer config s version checksum expectedCount data).1 = .ok () := by
  have hends := put_case s.store version data (inferredShardSize data.length expectedCount) checksum
  rw [processBuffer]
  generalize s.store.put version data (inferredShardSize data.length expectedCount) (some checksum) =
    outcome at hends ⊢
  cases hends with
  | refused e value =>
    simp only [value, if_true]
    exact ⟨.refl hs version, trivial⟩
  | stored metadata size given fits named _ total count =>
    subst named
    have hget := CheckpointStore.get?_storeComplete s.store metadata data []
    have hledger := hs.ledger.storeComplete [] size count fits
    have hcapacity : (s.store.storeComplete metadata data []).capacity = s.store.capacity := by
      rw [CheckpointStore.storeComplete_eq]
      exact (evictOldest_capacity _ _ _ _).trans (CheckpointStore.popped_capacity _ _)
    have hkept : (s.store.storeComplete metadata data []).Every
        (Kept (s.processedVersions.insert metadata.name)) := by
      apply CheckpointStore.Every.storeComplete
      · exact fun name v hv => (hs.kept name v hv).mono fun _ h => List.mem_insert_of_mem h
      · exact ⟨rfl, fun _ => List.mem_insert_self, fun h => (nomatch h), fun _ _ h => (nomatch h)⟩
    have hfewer : ∀ name, name ≠ metadata.name → ∀ v,
        (s.store.storeComplete metadata data []).versions.get? name = some v →
          s.store.versions.get? name = some v :=
      fun name hne v hv => storeComplete_fewer s.store metadata data [] hne hv
    have hprocessed : ∀ (directories : OrderedDict Str VersionDirectory),
        (∀ name, name ≠ metadata.name → directories.get? name = s.directories.get? name) →
        Advanced s
          { s with
            store := s.store.storeComplete metadata data [], directories
            processedVersions := s.processedVersions.insert metadata.name } metadata.name :=
      fun directories hdirectories =>
        ⟨⟨hledger, hkept⟩, fun _ h => List.mem_insert_of_mem h, hdirectories, hfewer, hcapacity⟩
    simp only
    split_ifs with hcount hmirror
    · refine ⟨⟨⟨hledger.remove _, ?_⟩, fun _ h => h, fun _ _ => rfl, ?_, ?_⟩, rfl⟩
      · intro name v hv
        rw [CheckpointStore.get?_remove] at hv
        split_ifs at hv with hname
        have hold := hkept name v hv
        refine ⟨hold.named, fun hwhole => ?_, hold.digested, hold.sized⟩
        exact (List.mem_insert_iff.mp (hold.whole hwhole)).resolve_left hname
      · intro name hne v hv
        rw [CheckpointStore.get?_remove, if_neg hne] at hv
        exact hfewer name hne v hv
      · exact (CheckpointStore.remove_capacity _ _).trans hcapacity
    · obtain ⟨files, hfiles, -⟩ := mirror_total hget rfl total
        ((s.directories.get? metadata.name).getD {}).shards
      simp only [hfiles]
      refine ⟨hprocessed _ ?_, trivial⟩
      intro name hne
      rw [OrderedDict.get?_insert, if_neg hne]
    · exact ⟨hprocessed s.directories fun _ _ => rfl, rfl⟩

theorem files_advanced {s : Middle} (hs : Sound s) (version checksum : Str) (expectedCount : Nat)
    (shardFile : Nat → Option Bytes) :
    Advanced s (processFiles s version checksum expectedCount shardFile) version := by
  rw [processFiles]
  split_ifs
  · have hsound := hs.processed version
    refine ⟨⟨hsound.ledger, hsound.kept⟩, fun _ h => List.mem_insert_of_mem h, ?_,
      fun _ _ _ h => h, rfl⟩
    intro name hne
    rw [OrderedDict.get?_insert, if_neg hne]
  · refine ⟨⟨hs.ledger, hs.kept⟩, fun _ h => h, ?_, fun _ _ _ h => h, rfl⟩
    intro name hne
    rw [OrderedDict.get?_erase, if_neg hne]

/-! ## One version -/

theorem planStream_stream {config : Config} {version checksum : Str} {expectedCount : Nat}
    {offered : Option Bytes} {node : MiddleNode} {manifest : ShardManifest} {payload : Bytes}
    (h : planStream config version checksum expectedCount offered =
      .ok (.stream node manifest payload)) : manifest.name = version ∧ Usable manifest := by
  unfold planStream at h
  split at h
  · next node' raw _ =>
    cases hread : readManifest config raw with
    | error e =>
      simp only [hread] at h
      split at h <;> cases h
    | ok upstream =>
      simp only [hread] at h
      by_cases hmatches : upstream.name = version ∧ upstream.checksum = checksum ∧
          upstream.shardCount = expectedCount
      · rw [if_pos hmatches] at h
        obtain ⟨_, -, hplan⟩ := bind_eq_ok.mp h
        cases hplan
        have hconsistent : upstream.Consistent := by
          rw [readManifest] at hread
          split_ifs at hread
          exact ShardManifest.fromBytes_consistent hread
        exact ⟨hmatches.1, hconsistent.name_ne, hconsistent.shardSize_pos,
          hconsistent.shardCount_eq, hconsistent.checksums_length⟩
      · rw [if_neg hmatches] at h
        cases h
  · cases h

/-- What is streamed is a manifest of the version, not processed before. -/
theorem plan_stream {config : Config} {s : Middle} {version info : Str} {answers : Answers}
    {node : MiddleNode} {manifest : ShardManifest} {payload : Bytes}
    (h : plan config s version info answers = .ok (.stream node manifest payload)) :
    manifest.name = version ∧ version ∉ s.processedVersions ∧ Usable manifest := by
  rw [plan] at h
  by_cases hprocessed : version ∈ s.processedVersions
  · rw [if_pos hprocessed] at h
    cases h
  rw [if_neg hprocessed] at h
  simp only at h
  split at h
  · cases h
  split at h
  · cases h
  split at h
  · cases h
  · obtain ⟨hname, husable⟩ := planStream_stream h
    exact ⟨hname, hprocessed, husable⟩

/-- What makes processing a version raise. -/
inductive Raises (score : Str → Nat → Str → MemberProfile → S) (config : Config) (s : Middle)
    (version info : Str) (answers : Answers) : Prop where
  /-- The manifest cannot be read, and not with a `ValueError`, or it is too
  large to be published with the members of this middle. -/
  | planning (e : Exc) (planned : plan config s version info answers = .error e)
  | streaming (node : MiddleNode) (manifest : ShardManifest) (payload : Bytes)
      (planned : plan config s version info answers = .ok (.stream node manifest payload))
      (raises : StreamRaises score config s node manifest answers.arrivals)
  | client (checksum : Str) (expectedCount : Nat) (e : Exc)
      (planned : plan config s version info answers = .ok (.whole checksum expectedCount))
      (raises : answers.whole = .error e)

variable (score) in
theorem version_spec {s : Middle} (hs : Sound s) (config : Config) (version info : Str)
    (answers : Answers) :
    Advanced s (processVersion score config s version info answers).2 version ∧
      ((processVersion score config s version info answers).1 = .ok () ↔
        ¬ Raises score config s version info answers) := by
  rw [processVersion]
  cases hplan : plan config s version info answers with
  | error e =>
    refine ⟨.refl hs version, iff_of_false (fun h => nomatch h) (not_not.mpr (.planning e hplan))⟩
  | ok planned =>
    cases planned with
    | skip =>
      refine ⟨.refl hs version, iff_of_true rfl ?_⟩
      rintro (⟨e, h⟩ | ⟨node, manifest, payload, h, -⟩ | ⟨checksum, expectedCount, e, h, -⟩) <;>
        cases hplan.symm.trans h
    | stream node manifest payload =>
      obtain ⟨rfl, hnew, hm⟩ := plan_stream hplan
      obtain ⟨hadvanced, hok, -⟩ :=
        streaming_spec score hs hm hnew config node payload answers.arrivals
      refine ⟨hadvanced, hok.trans (not_congr ⟨fun h => .streaming node manifest payload hplan h, ?_⟩)⟩
      rintro (⟨e, h⟩ | ⟨node', manifest', payload', h, hraises⟩ | ⟨checksum, expectedCount, e, h, -⟩)
      · cases hplan.symm.trans h
      · cases hplan.symm.trans h
        exact hraises
      · cases hplan.symm.trans h
    | whole checksum expectedCount =>
      have hraises : Raises score config s version info answers ↔ ∃ e, answers.whole = .error e := by
        constructor
        · rintro (⟨e, h⟩ | ⟨node, manifest, payload, h, -⟩ | ⟨checksum, expectedCount, e, h, hwhole⟩)
          · cases hplan.symm.trans h
          · cases hplan.symm.trans h
          · exact ⟨e, hwhole⟩
        · exact fun ⟨e, hwhole⟩ => .client checksum expectedCount e hplan hwhole
      simp only [processWhole, hraises]
      cases hwhole : answers.whole with
      | error e => exact ⟨.refl hs version, iff_of_false (fun h => nomatch h) fun h => h ⟨e, rfl⟩⟩
      | ok data =>
        have hnot : ¬ ∃ e : Exc, (Except.ok data : Except Exc (Option Bytes)) = .error e :=
          fun ⟨e, h⟩ => nomatch h
        cases data with
        | none =>
          by_cases hmirror : config.diskMirror = true
          · rw [if_pos hmirror]
            exact ⟨files_advanced hs version checksum expectedCount _, iff_of_true rfl hnot⟩
          · rw [if_neg hmirror]
            exact ⟨.refl hs version, iff_of_true rfl hnot⟩
        | some data =>
          obtain ⟨hadvanced, hok⟩ := buffer_spec hs config version checksum expectedCount data
          exact ⟨hadvanced, iff_of_true hok hnot⟩

end

end Litecast.Monitor
