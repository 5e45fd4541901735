import Litecast.DistributionFile
import Litecast.Isolation
import Litecast.Servable

/-! The shards of a published version at its origin and at a middle that does
not know their size. -/

namespace Litecast

/-! ## The count in a line -/

/-- The line of a listing, from the colon on. -/
def Listing.info (listing : Listing) : Str :=
  listing.checksum ++ str "|" ++ JsonText.writeInt listing.numShards

/-! ## Serving a shard -/

/-- What a server has for a shard: its store's, or the file where the store does
not know the version. -/
def servedShard (store : CheckpointStore) (directories : OrderedDict Str VersionDirectory)
    (version : Str) (index : Nat) : Option Bytes :=
  match store.getShard version index with
  | .ok shard => some shard
  | .error e =>
    if e.cls = .invalidShardIndexError ∨ store.getMetadata version ≠ none then none
    else (directories.get? version).bind fun directory => directory.shards.get? index

/-- It is what a `GET` of the shard file gets. -/
theorem servedShard_eq_answer [Library] (store : CheckpointStore)
    (directories : OrderedDict Str VersionDirectory) {version : Str} (hne : version ≠ [])
    (hslash : .ofChar '/' ∉ version) (hquery : .ofChar '?' ∉ version) {index : Nat}
    (hindex : index < 99999) :
    servedShard store directories version index =
      match serveStore store (.ofChar '/' :: shardPath version index) with
      | some (.ok body) => some body
      | some (.error _ _) => none
      | none => (directories.get? version).bind fun directory => directory.shards.get? index := by
  have hnumber : ((index + 1 : Nat) : Int) - 1 = index := by omega
  rw [serveStore, pathOnly_shardPath hquery, matchShardPath_shardPath hne hslash, if_pos hindex,
    servedShard]
  simp only [hnumber]
  cases store.getShard version index with
  | ok shard => rfl
  | error e =>
    simp only
    by_cases hclass : e.cls = .invalidShardIndexError
    · rw [if_pos hclass, if_pos (Or.inl hclass)]
    · rw [if_neg hclass]
      by_cases hmetadata : store.getMetadata version = none
      · rw [if_pos hmetadata, if_neg]
        rintro (h | h)
        · exact hclass h
        · exact h hmetadata
      · rw [if_neg hmetadata, if_pos (Or.inr hmetadata)]

theorem servedShard_of_inRam {store : CheckpointStore} {version : Str} {buffer : Bytes}
    {shardSize : Nat} {v : StoredVersion} (h : OriginServer.InRam store version buffer shardSize v)
    (directories : OrderedDict Str VersionDirectory) {index : Nat}
    (hindex : index < shardCountOf buffer.length shardSize) :
    servedShard store directories version index = some (Pieces.piece shardSize buffer index) := by
  have hshard := CheckpointStore.getShard_of_data h.get h.data h.totalSize index
    (h.shardCount ▸ hindex)
  rw [servedShard, hshard, h.shardSize]

theorem servedShard_of_absent {store : CheckpointStore} {version : Str}
    (h : store.versions.get? version = none) (directories : OrderedDict Str VersionDirectory)
    (index : Nat) : servedShard store directories version index =
      (directories.get? version).bind fun directory => directory.shards.get? index := by
  simp [servedShard, CheckpointStore.getShard, CheckpointStore.getMetadata, h]

/-! ## At the origin -/

namespace OriginServer

/-- The bytes a call is to publish, and the size of their shards. -/
def Call.payload : Call → Bytes
  | .buffer data _ _ => data
  | .file data _ => data.getD []

def Call.shardSize : Call → Int
  | .buffer _ shardSize _ => shardSize
  | .file _ shardSize => shardSize

theorem fileShardCount_of_pos {data : Bytes} {shardSize : Int} (h : 0 < shardSize) :
    fileShardCount data shardSize = shardCountOf data.length shardSize.toNat := by
  obtain ⟨size, rfl⟩ := Int.eq_ofNat_of_zero_le h.le
  have hpos : 0 < size := by omega
  rw [fileShardCount, shardCountOf_eq_ceilDiv, Int.toNat_natCast, Nat.ceilDiv_eq_add_pred_div,
    Int.fdiv_eq_ediv_of_nonneg _ h.le, Int.natCast_ediv, Int.natCast_sub (by omega)]
  push_cast
  rfl

theorem fileShardCount_of_neg {data : Bytes} {shardSize : Int} (h : shardSize < 0)
    (hdata : data ≠ []) : fileShardCount data shardSize ≤ 1 := by
  have hlength : 0 < data.length := List.length_pos_iff.mpr hdata
  generalize hdividend : (data.length : Int) + shardSize - 1 = dividend
  have hle : dividend.fdiv shardSize ≤ dividend / shardSize := by
    rw [Int.fdiv_eq_ediv]
    split_ifs <;> omega
  have hdivision := Int.mul_ediv_add_emod dividend shardSize
  have hrest := Int.emod_lt_of_neg dividend h
  rw [fileShardCount, hdividend]
  by_contra hmany
  have htwo : 2 ≤ dividend / shardSize := by omega
  have hmul : shardSize * (dividend / shardSize) ≤ shardSize * 2 :=
    Int.mul_le_mul_of_nonpos_left h.le htwo
  omega

/-- What the origin serves of a version it has just published: the pieces of
its bytes, as many as its line says. -/
structure Serves [Library] (origin : OriginServer) (version : Str) (data : Bytes) (shardSize : Int)
    (listing : Listing) : Prop where
  listed : origin.distribution.get? version = some listing
  checksum : listing.checksum = hexdigest data ∨ listing.checksum = lower (hexdigest data)
  counted : 0 < shardSize ∧ listing.numShards = shardCountOf data.length shardSize.toNat ∨
    shardSize < 0 ∧ listing.numShards ≤ 1
  shard : ∀ index : Nat, index < listing.numShards →
    servedShard origin.store origin.directories version index =
      some (Pieces.piece (readSize data shardSize) data index)

theorem call_serves [Library] {s : OriginServer} (hs : s.Orderly) {c : Call} {version : Str}
    (h : (c.run s).1 = .ok version) :
    ∃ listing, Serves (s.call c) version c.payload c.shardSize listing := by
  cases call_case hs c with
  | ram data shardSize mirror through ends =>
    obtain ⟨rfl, rfl⟩ : data = c.payload ∧ shardSize = c.shardSize := by
      cases c with
      | buffer data' shardSize' diskMirror =>
        obtain ⟨rfl, rfl, -⟩ := by simpa [Call.inRam] using through
        exact ⟨rfl, rfl⟩
      | file data' shardSize' =>
        cases data' with
        | none => cases through
        | some data' =>
          simp only [Call.inRam] at through
          split_ifs at through
          obtain ⟨rfl, rfl, -⟩ := by simpa using through
          exact ⟨rfl, rfl⟩
    rw [call]
    generalize c.run s = outcome at ends h ⊢
    cases ends with
    | refused => cases h
    | halted => cases h
    | published t size fits written held line rest =>
      obtain rfl := Except.ok.inj h
      obtain ⟨v, hv⟩ := held
      refine ⟨_, line, Or.inr rfl, Or.inl ⟨size, rfl⟩, ?_⟩
      intro index hindex
      have hread : readSize c.payload c.shardSize = c.shardSize.toNat := if_neg (by omega)
      rw [hread]
      exact servedShard_of_inRam hv _ (by simpa using hindex)
  | disk data shardSize given nonzero aside returned filed =>
    subst given
    obtain rfl := Except.ok.inj (returned.symm.trans h)
    obtain ⟨directory, hdirectory, hshards⟩ := filed.files
    refine ⟨_, filed.line, Or.inl rfl, ?_, ?_⟩
    · by_cases hsize : 0 < shardSize
      · exact Or.inl ⟨hsize, fileShardCount_of_pos hsize⟩
      · have hneg : shardSize < 0 := by omega
        refine Or.inr ⟨hneg, fileShardCount_of_neg hneg ?_⟩
        rintro rfl
        have hfits : ([] : Bytes).length ≤ s.store.capacity := Nat.zero_le _
        rw [Call.inRam, if_pos hfits] at aside
        cases aside
    · intro index hindex
      rw [servedShard_of_absent filed.absent, hdirectory, Option.bind_some, hshards, get?_fileShards,
        if_pos (by simp only at hindex; omega)]
      rfl
  | stopped _ raised =>
    obtain ⟨e, he⟩ := raised
    cases he.symm.trans h

end OriginServer

/-! ## At a middle without `middle_servers` -/

namespace Monitor

section
variable [Library] {S : Type} [LinearOrder S] {score : Str → Nat → Str → MemberProfile → S}
  {config : Config}

/-- What a middle has in RAM it has in full. -/
def Unstreamed (s : Middle) : Prop := s.store.Every fun _ v => v.data.isSome = true

theorem plan_unstreamed (hnode : config.node = none) (s : Middle) (version info : Str)
    (answers : Answers) : plan config s version info answers = .ok .skip ∨
      ∃ checksum expectedCount, plan config s version info answers =
        .ok (.whole checksum expectedCount) := by
  have hwhole : ∀ checksum expectedCount, planStream config version checksum expectedCount
      answers.manifest = .ok (.whole checksum expectedCount) := by
    intro checksum expectedCount
    unfold planStream
    rw [hnode]
  unfold plan
  by_cases hprocessed : version ∈ s.processedVersions
  · exact Or.inl (if_pos hprocessed)
  rw [if_neg hprocessed]
  simp only
  split
  · exact Or.inl rfl
  split
  · exact Or.inl rfl
  split
  · exact Or.inl rfl
  · exact Or.inr ⟨_, _, hwhole _ _⟩

variable (score) in
theorem processVersion_unstreamed (hnode : config.node = none) {s : Middle} (hs : Unstreamed s)
    (version info : Str) (answers : Answers) :
    Unstreamed (processVersion score config s version info answers).2 := by
  rw [processVersion]
  rcases plan_unstreamed hnode s version info answers with hskip | ⟨checksum, expectedCount, hplan⟩
  · rw [hskip]
    exact hs
  simp only [hplan, processWhole]
  cases answers.whole with
  | error e => exact hs
  | ok data =>
    cases data with
    | none =>
      simp only
      split_ifs
      · rw [processFiles]
        split_ifs <;> exact hs
      · exact hs
    | some data =>
      have hends := put_case s.store version data (inferredShardSize data.length expectedCount) checksum
      simp only [processBuffer]
      generalize s.store.put version data (inferredShardSize data.length expectedCount)
        (some checksum) = outcome at hends ⊢
      cases hends with
      | refused => exact hs
      | stored metadata =>
        have hstored : (s.store.storeComplete metadata data []).Every
            fun _ v => v.data.isSome = true :=
          CheckpointStore.Every.storeComplete hs rfl
        simp only
        split_ifs
        · exact CheckpointStore.Every.remove hstored version
        · split <;> exact hstored
        · exact hstored

theorem runPass_unstreamed (hnode : config.node = none) {s : Middle} (hs : Unstreamed s)
    (pass : Pass) : Unstreamed (runPass score config s pass) := by
  have hversions : ∀ (entries : List (Str × Str)) (s : Middle), Unstreamed s →
      Unstreamed (processVersions score config pass.answers entries s).2 := by
    intro entries
    induction entries with
    | nil => exact fun _ hs => hs
    | cons listed rest ih =>
      obtain ⟨version, info⟩ := listed
      intro s hs
      have hnext := processVersion_unstreamed score hnode hs version info
        (pass.answers version)
      rw [processVersions]
      generalize processVersion score config s version info (pass.answers version) = outcome at hnext ⊢
      obtain ⟨result, t⟩ := outcome
      cases result with
      | error e => exact hnext
      | ok => exact ih t hnext
  have hremoved : ∀ (distribution : Lines) (s : Middle), Unstreamed s →
      Unstreamed (s.removeOld distribution).2 := by
    intro distribution s hs
    rw [Middle.removeOld]
    split
    · exact hs
    · intro name v hv
      rw [(removes_spec _ _).1] at hv
      split_ifs at hv
      exact hs name v hv
  unfold runPass monitorUpstream
  split
  · exact hs
  split
  · exact hs
  split_ifs
  · exact hs
  · next content _ _ =>
    have hdone := hversions (parseListing content).entries s hs
    have hfollowed := follow_case score config s (parseListing content) pass.answers
    generalize follow score config s (parseListing content) pass.answers = outcome at hfollowed ⊢
    cases hfollowed with
    | processing e t processed =>
      rw [processed] at hdone
      exact hdone
    | announcing e t availableVersions processed =>
      rw [processed] at hdone
      exact hdone
    | removing t availableVersions processed =>
      rw [processed] at hdone
      have hlast := hremoved (parseListing content)
        { t.rewrite (parseListing content) with availableVersions } hdone
      generalize Middle.removeOld _ (parseListing content) = outcome at hlast ⊢
      obtain ⟨result, u⟩ := outcome
      cases result <;> exact hlast

/-! ## The same shards -/

theorem buffer_inRam {s : Middle} {version : Str} (hnew : version ∉ s.processedVersions)
    {checksum : Str} {expectedCount : Nat} {data : Bytes}
    (h : version ∈
      (processBuffer config s version checksum expectedCount data).2.processedVersions) :
    (∃ v, OriginServer.InRam (processBuffer config s version checksum expectedCount data).2.store
        version data (inferredShardSize data.length expectedCount) v) ∧
      shardCountOf data.length (inferredShardSize data.length expectedCount) = expectedCount := by
  refine ⟨?_, ((buffer_processed_iff hnew config checksum expectedCount data).mp h).2.2.2⟩
  have hends := put_case s.store version data (inferredShardSize data.length expectedCount) checksum
  rw [processBuffer] at h ⊢
  generalize s.store.put version data (inferredShardSize data.length expectedCount) (some checksum) =
    outcome at hends h ⊢
  cases hends with
  | refused => exact absurd h hnew
  | stored metadata size given _ named _ total count =>
    subst named
    have hsize : metadata.shardSize = inferredShardSize data.length expectedCount := by omega
    have hram : OriginServer.InRam (s.store.storeComplete metadata data []) metadata.name data
        (inferredShardSize data.length expectedCount)
        { metadata, data := some data, shardChecksums := [] } :=
      ⟨CheckpointStore.get?_storeComplete s.store metadata data [], rfl, total,
        by rw [count, total, hsize], hsize⟩
    simp only at h ⊢
    by_cases hcount : metadata.shardCount = expectedCount
    · rw [if_neg (not_not.mpr hcount)]
      split_ifs
      · split <;> exact ⟨_, hram⟩
      · exact ⟨_, hram⟩
    · rw [if_pos hcount] at h
      exact absurd h hnew

theorem files_served {s : Middle} {version : Str} (hnew : version ∉ s.processedVersions)
    (habsent : s.store.versions.get? version = none) {checksum : Str} {expectedCount : Nat}
    {shardFile : Nat → Option Bytes}
    (h : version ∈ (processFiles s version checksum expectedCount shardFile).processedVersions)
    {index : Nat} (hindex : index < expectedCount) :
    servedShard (processFiles s version checksum expectedCount shardFile).store
      (processFiles s version checksum expectedCount shardFile).directories version index =
        shardFile index := by
  rw [processFiles] at h ⊢
  simp only at h ⊢
  split_ifs at h ⊢ with hwhole
  · rw [servedShard_of_absent habsent, OrderedDict.get?_insert, if_pos rfl, Option.bind_some,
      OrderedDict.get?_foldl_range, if_pos hindex]
    have hsome := List.all_eq_true.mp hwhole.1 index (List.mem_range.mpr hindex)
    obtain ⟨shard, hshard⟩ := Option.isSome_iff_exists.mp hsome
    rw [hshard, Option.getD_some]
  · exact absurd h hnew

/-- The client of a middle comes to the published bytes, or the files it gets
instead are those the origin serves. -/
structure FromOrigin (origin : OriginServer) (version : Str) (data : Bytes) (answers : Answers) :
    Prop where
  whole : ∀ buffer, answers.whole = .ok (some buffer) → buffer = data
  files : ∀ index, answers.shardFile index =
    servedShard origin.store origin.directories version index

/-- What a middle gets from the origin when its client has room. -/
def answersOf (origin : OriginServer) (version : Str) (data : Bytes) : Answers :=
  { whole := .ok (some data), shardFile := servedShard origin.store origin.directories version }

omit [Library] in
theorem answersOf_fromOrigin (origin : OriginServer) (version : Str) (data : Bytes) :
    FromOrigin origin version data (answersOf origin version data) := by
  refine ⟨?_, fun _ => rfl⟩
  rintro buffer ⟨⟩
  rfl

theorem plan_listing (hnode : config.node = none) {s : Middle} {version : Str}
    (hnew : version ∉ s.processedVersions) {listing : Listing} {count : Nat}
    (hcount : listing.numShards = count) (hbar : .ofChar '|' ∉ listing.checksum) (answers : Answers) :
    plan config s version listing.info answers = .ok (.whole listing.checksum count) := by
  have hinfo : listing.info = listing.checksum ++ .ofChar '|' :: decimal count := by
    rw [Listing.info, hcount, List.append_assoc]
    rfl
  obtain ⟨hbefore, hafter⟩ := takeWhile_name (decimal count) hbar
  have hnonneg : ¬ (count : Int) < 0 := by omega
  have hwhole : planStream config version listing.checksum count answers.manifest =
      .ok (.whole listing.checksum count) := by
    unfold planStream
    rw [hnode]
  unfold plan
  rw [if_neg hnew, partition, hinfo, hbefore, hafter]
  simp only [List.drop_one, List.tail_cons, decimal_ne_nil, if_false, intOf?_decimal, if_neg hnonneg,
    Int.toNat_natCast, hwhole]

omit [Library] in
/-- The size a middle finds is that of the origin when the last shard lacks less
than one byte for each. -/
theorem pieces_inferred_iff {data : Bytes} {shardSize count : Nat} (hsize : 0 < shardSize)
    (hcount : count = shardCountOf data.length shardSize)
    (hinferred : shardCountOf data.length (inferredShardSize data.length count) = count) :
    (∀ index < count, Pieces.piece (inferredShardSize data.length count) data index =
      Pieces.piece shardSize data index) ↔
        count ≤ 1 ∨ count * shardSize < data.length + count := by
  have hpos := inferredShardSize_pos data.length count
  rw [shardCountOf_eq_ceilDiv] at hcount hinferred
  have hsame := Pieces.pieces_eq_iff hsize hpos (hinferred.trans hcount)
  rw [← hcount] at hsame
  rw [hsame]
  by_cases hone : count ≤ 1
  · simp only [hone, true_or]
  · have hdata : 0 < data.length := by
      by_contra hempty
      have hzero : data.length = 0 := by omega
      rw [hzero, zero_ceilDiv] at hcount
      omega
    have hceil : inferredShardSize data.length count = data.length ⌈/⌉ count := by
      have hatleast : 0 < data.length ⌈/⌉ count := by
        rw [Pieces.lt_count_iff (by omega), Nat.zero_mul]
        exact hdata
      rw [inferredShardSize, if_neg (by omega), ← Nat.ceilDiv_eq_add_pred_div]
      exact Nat.max_eq_right hatleast
    have hiff := Pieces.ceilDiv_count_eq_iff hsize hdata
    rw [← hcount] at hiff
    rw [hceil, hiff]

/-- What a middle without members has in RAM between its passes it has processed. -/
theorem absent_of_unprocessed (score : Str → Nat → Str → MemberProfile → S) {config : Config}
    (hnode : config.node = none) (capacity : Nat) (lines : Lines)
    (directories : OrderedDict Str VersionDirectory) (passes : List Pass) {version : Str}
    (hnew : version ∉
      (passes.foldl (runPass score config) (started capacity lines directories)).processedVersions) :
    (passes.foldl (runPass score config)
      (started capacity lines directories)).store.versions.get? version = none := by
  have hsound := passes_sound score config capacity lines directories passes
  have hstarted : Unstreamed (started capacity lines directories) := by
    intro _ _ h
    cases h
  have hkeep (s : Middle) (pass : Pass) (hs : Unstreamed s) :
      Unstreamed (runPass score config s pass) := runPass_unstreamed hnode hs pass
  have hunstreamed := Runs.foldl_keeps (I := Unstreamed) hkeep hstarted passes
  generalize passes.foldl (runPass score config) (started capacity lines directories) = s
    at hnew hsound hunstreamed ⊢
  cases hv : s.store.versions.get? version with
  | none => rfl
  | some v => exact absurd ((hsound.kept _ _ hv).whole (hunstreamed _ _ hv)) hnew

theorem no_bar_served (hlower : ∀ data, lower (hexdigest data) = hexdigest data)
    {origin : OriginServer} {version : Str} {data : Bytes} {shardSize : Int} {listing : Listing}
    (h : OriginServer.Serves origin version data shardSize listing) :
    .ofChar '|' ∉ listing.checksum := by
  have hchecksum : listing.checksum = hexdigest data :=
    h.checksum.elim id fun h => h.trans (hlower _)
  rw [hchecksum]
  intro hmem
  cases hex_isHexDigit _ _ hmem

/-- The size found from the count cuts the bytes as the origin did. -/
theorem cut_alike_iff {origin : OriginServer} {version : Str} {data : Bytes}
    {shardSize : Int} {listing : Listing} {count : Nat}
    (h : OriginServer.Serves origin version data shardSize listing)
    (hcount : listing.numShards = count)
    (hinferred : shardCountOf data.length (inferredShardSize data.length count) = count) :
    (∀ index : Nat, (index : Int) < listing.numShards →
      Pieces.piece (inferredShardSize data.length count) data index =
        Pieces.piece (OriginServer.readSize data shardSize) data index) ↔
      listing.numShards ≤ 1 ∨ listing.numShards * shardSize < data.length + listing.numShards := by
  rcases h.counted with ⟨hpos, hshards⟩ | ⟨hnegative, hone⟩
  · obtain ⟨size, hsize⟩ := Int.eq_ofNat_of_zero_le hpos.le
    have hread : OriginServer.readSize data shardSize = size := by
      rw [OriginServer.readSize, if_neg (by omega), hsize, Int.toNat_natCast]
    rw [hsize, Int.toNat_natCast] at hshards
    have hpieces := @pieces_inferred_iff data size count (by omega) (by omega) hinferred
    rw [hread, hcount, hsize]
    simp only [Nat.cast_lt]
    rw [hpieces]
    norm_cast
  · -- one piece, of all the bytes
    refine iff_of_true ?_ (Or.inl hone)
    intro index hindex
    obtain rfl : index = 0 := by omega
    have hle : data.length ≤ inferredShardSize data.length count := by
      rw [shardCountOf_eq_ceilDiv] at hinferred
      have hfew : data.length ⌈/⌉ inferredShardSize data.length count ≤ 1 := by omega
      simpa using (ceilDiv_le_iff_le_mul (inferredShardSize_pos _ _)).mp hfew
    rw [OriginServer.readSize, if_pos hnegative, Pieces.piece_zero_of_le hle,
      Pieces.piece_zero_of_le le_rfl]

/-- A middle that has put the published bytes in its RAM. -/
theorem buffer_alike_iff {origin : OriginServer} {version : Str} {data : Bytes}
    {shardSize : Int} {listing : Listing} {count : Nat}
    (h : OriginServer.Serves origin version data shardSize listing)
    (hcount : listing.numShards = count) {s : Middle} (hnew : version ∉ s.processedVersions)
    {checksum : Str}
    (hprocessed : version ∈ (processBuffer config s version checksum count data).2.processedVersions) :
    (∀ index : Nat, (index : Int) < listing.numShards →
      servedShard (processBuffer config s version checksum count data).2.store
        (processBuffer config s version checksum count data).2.directories version index =
          servedShard origin.store origin.directories version index) ↔
      listing.numShards ≤ 1 ∨ listing.numShards * shardSize < data.length + listing.numShards := by
  obtain ⟨⟨v, hv⟩, hinferred⟩ := buffer_inRam hnew hprocessed
  rw [← cut_alike_iff h hcount hinferred]
  refine forall₂_congr fun index hindex => ?_
  rw [servedShard_of_inRam hv _ (by omega), h.shard index hindex, Option.some.injEq]

/-- **A middle serves the shards of the origin exactly when it finds their
size**, that is unless there are several and the last of them lacks as many
bytes as there are shards; or when it has the origin's files. -/
theorem same_shards_iff (hlower : ∀ data, lower (hexdigest data) = hexdigest data)
    (score : Str → Nat → Str → MemberProfile → S) (config : Config) (hnode : config.node = none)
    (ramCacheBytes maxDistributionFolders : Nat) (hfolders : 1 ≤ maxDistributionFolders)
    (diskMirror : Bool) (calls : List OriginServer.Call) (c : OriginServer.Call) {version : Str}
    (hpublished : (c.run (calls.foldl OriginServer.call
      (.new maxDistributionFolders diskMirror ramCacheBytes))).1 = .ok version)
    (capacity : Nat) (lines : Lines) (directories : OrderedDict Str VersionDirectory)
    (earlier : List Pass) (answers : Answers) :
    let origin := (calls.foldl OriginServer.call
      (.new maxDistributionFolders diskMirror ramCacheBytes)).call c
    let s := earlier.foldl (runPass score config) (started capacity lines directories)
    ∀ listing, origin.distribution.get? version = some listing →
      let t := (processVersion score config s version listing.info answers).2
      version ∉ s.processedVersions → version ∈ t.processedVersions →
      FromOrigin origin version c.payload answers →
      ((∀ index : Nat, index < listing.numShards →
          servedShard t.store t.directories version index =
            servedShard origin.store origin.directories version index) ↔
        answers.whole = .ok none ∨ listing.numShards ≤ 1 ∨
          listing.numShards * c.shardSize < c.payload.length + listing.numShards) := by
  intro origin s listing hlisted t hnew hprocessed hfrom
  have horigin : (calls.foldl OriginServer.call
      (.new maxDistributionFolders diskMirror ramCacheBytes)).Orderly :=
    Runs.foldl_keeps (I := OriginServer.Orderly) (fun _ c hs => OriginServer.call_orderly hs c)
      (OriginServer.orderly_new hfolders diskMirror ramCacheBytes) calls
  obtain ⟨listing', hserves⟩ := OriginServer.call_serves horigin hpublished
  obtain rfl := Option.some.inj (hlisted.symm.trans hserves.listed)
  by_cases hneg : listing.numShards < 0
  · exact iff_of_true (fun index hindex => by omega) (Or.inr (Or.inl (by omega)))
  obtain ⟨count, hcount⟩ := Int.eq_ofNat_of_zero_le (not_lt.mp hneg)
  have habsent : s.store.versions.get? version = none :=
    absent_of_unprocessed score hnode capacity lines directories earlier hnew
  have hplan := plan_listing hnode hnew hcount (no_bar_served hlower hserves) answers
  simp only [t, processVersion, hplan, processWhole] at hprocessed ⊢
  cases hwhole : answers.whole with
  | error e =>
    rw [hwhole] at hprocessed
    exact absurd hprocessed hnew
  | ok data =>
    simp only [hwhole] at hprocessed ⊢
    cases data with
    | none =>
      refine iff_of_true ?_ (Or.inl rfl)
      by_cases hmirror : config.diskMirror = true
      · simp only [if_pos hmirror] at hprocessed ⊢
        intro index hindex
        rw [files_served hnew habsent hprocessed (by omega), hfrom.files]
      · rw [if_neg hmirror] at hprocessed
        exact absurd hprocessed hnew
    | some data =>
      obtain rfl := hfrom.whole data hwhole
      simp only [Except.ok.injEq, reduceCtorEq, false_or]
      exact buffer_alike_iff hserves hcount hnew hprocessed

end

theorem same_shards_iff_three_shards :
    letI := asciiLibrary
    let c : OriginServer.Call := .buffer [1, 2, 3, 4, 5, 6, 7] 3 none
    let origin := ([].foldl OriginServer.call (.new 2 false 8)).call c
    let t := (processVersion (fun _ _ _ _ => 0) ⟨none, true, 1000, false⟩
      ([].foldl (runPass (fun _ _ _ _ => 0) ⟨none, true, 1000, false⟩) (started 8 .empty .empty))
      (str "v1") (Listing.info ⟨hexdigest c.payload, 3⟩) (answersOf origin (str "v1") c.payload)).2
    ∀ index : Nat, (index : Int) < 3 →
      servedShard t.store t.directories (str "v1") index =
        servedShard origin.store origin.directories (str "v1") index := by
  have hiff := letI := asciiLibrary
    let c : OriginServer.Call := .buffer [1, 2, 3, 4, 5, 6, 7] 3 none
    same_shards_iff (fun data => asciiLower_hex _) (fun _ _ _ _ => 0)
      ⟨none, true, 1000, false⟩ rfl 8 2 (by decide) false [] c (by decide +kernel) 8 .empty .empty []
      (answersOf _ (str "v1") c.payload) ⟨hexdigest c.payload, 3⟩ (by decide +kernel)
      List.not_mem_nil (by decide +kernel) (answersOf_fromOrigin _ _ _)
  exact hiff.mpr (Or.inr (Or.inr (by decide)))

/-- Nine bytes in shards of four: the middle cuts them into threes. -/
theorem nine_bytes_cut_differently :
    letI := asciiLibrary
    let score (_ : Str) (_ : Nat) (_ : Str) (_ : MemberProfile) := 0
    let c : OriginServer.Call := .buffer [1, 2, 3, 4, 5, 6, 7, 8, 9] 4 none
    let origin := (OriginServer.new 2 false 16).call c
    let answers := answersOf origin (str "v1") c.payload
    let t := (processVersion score ⟨none, true, 1000, false⟩ (started 16 .empty .empty) (str "v1")
      (Listing.info ⟨hexdigest c.payload, 3⟩) answers).2
    origin.distribution.get? (str "v1") = some ⟨hexdigest c.payload, 3⟩ ∧
      str "v1" ∈ t.processedVersions ∧
      FromOrigin origin (str "v1") c.payload answers ∧
      servedShard origin.store origin.directories (str "v1") 0 = some [1, 2, 3, 4] ∧
      servedShard t.store t.directories (str "v1") 0 = some [1, 2, 3] := by
  let _ := asciiLibrary
  intro score c origin answers t
  exact ⟨by decide +kernel, by decide +kernel, answersOf_fromOrigin _ _ _, by decide +kernel,
    by decide +kernel⟩

end Monitor

end Litecast
