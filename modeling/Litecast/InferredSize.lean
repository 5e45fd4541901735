import Litecast.Boundaries

/-! The shard size a middle finds from a length and a count. -/

namespace Litecast

theorem inferredShardSize_eq {size count : Nat} (hsize : 0 < size) (hcount : 0 < count) :
    Monitor.inferredShardSize size count = size ⌈/⌉ count := by
  have hpos : 0 < size ⌈/⌉ count := by
    rw [Pieces.lt_count_iff hcount, Nat.zero_mul]
    exact hsize
  rw [Monitor.inferredShardSize, if_neg (by omega), ← Nat.ceilDiv_eq_add_pred_div]
  exact Nat.max_eq_right hpos

/-- A count that some shard size gives is given again by the size found from it. -/
theorem shardCountOf_inferred {size shardSize : Nat} (hshard : 0 < shardSize) :
    shardCountOf size (Monitor.inferredShardSize size (shardCountOf size shardSize)) =
      shardCountOf size shardSize := by
  rcases Nat.eq_zero_or_pos size with rfl | hsize
  · rfl
  · have hcount : 0 < shardCountOf size shardSize := by
      rw [shardCountOf_eq_ceilDiv, Pieces.lt_count_iff hshard, Nat.zero_mul]
      exact hsize
    rw [inferredShardSize_eq hsize hcount, shardCountOf_eq_ceilDiv, shardCountOf_eq_ceilDiv]
    exact Pieces.ceilDiv_count_count hshard hsize

/-- Only a positive size passes the checks. -/
theorem CheckpointStore.Stores.positive [Library] {s t : CheckpointStore} {name : Str}
    {data : Bytes} {shardSize : Int} {metadata : VersionMetadata}
    (h : s.Stores t name data shardSize metadata) : 0 < shardSize.toNat := by
  by_contra hnot
  have hinvalid : (validateName name).or (validateShardSize shardSize) ≠ none := fun hvalid =>
    hnot (shardSize_toNat_pos hvalid)
  obtain ⟨e, he⟩ := Option.ne_none_iff_exists'.mp hinvalid
  obtain ⟨shardChecksums, ⟨checksum, h⟩ | ⟨checksum, h⟩⟩ := h
  · simp only [put, he] at h
    cases h
  · simp only [putVerified, he] at h
    cases h

namespace Monitor

section
variable [Library] {config : Config}

theorem buffer_kept {s : Middle} {version checksum : Str} {count : Nat} {data : Bytes}
    {metadata : VersionMetadata} {store : CheckpointStore}
    (hcount : shardCountOf data.length (inferredShardSize data.length count) = count)
    (hput : s.store.put version data (inferredShardSize data.length count) (some checksum) =
      (.ok metadata, store)) :
    metadata.shardCount = count ∧
      (processBuffer config s version checksum count data).1 = .ok () ∧
      (processBuffer config s version checksum count data).2.store = store ∧
      version ∈ (processBuffer config s version checksum count data).2.processedVersions := by
  have hends := put_case s.store version data (inferredShardSize data.length count) checksum
  have hpos := inferredShardSize_pos data.length count
  rw [processBuffer]
  rw [hput] at hends ⊢
  cases hends with
  | stored _ size given fits named _ total counted =>
    subst named
    have hshards : metadata.shardCount = count := by
      have hsize : metadata.shardSize = inferredShardSize data.length count := by omega
      rw [counted, total, hsize, hcount]
    refine ⟨hshards, ?_⟩
    simp only [hshards, ne_eq, not_true_eq_false, if_false]
    by_cases hmirror : config.diskMirror = true
    · obtain ⟨files, hfiles, -⟩ := mirror_total
        (CheckpointStore.get?_storeComplete s.store metadata data []) rfl
        total ((s.directories.get? metadata.name).getD {}).shards
      rw [hshards] at hfiles
      simp only [if_pos hmirror, hfiles]
      exact ⟨trivial, trivial, List.mem_insert_self⟩
    · rw [if_neg hmirror]
      exact ⟨rfl, rfl, List.mem_insert_self⟩

/-! ## Along a chain of middles -/

variable {S : Type} [LinearOrder S] (score : Str → Nat → Str → MemberProfile → S)

/-- What a version is known by along a chain of middles: first as its origin
stores it, then as each middle does that comes to the bytes by a line with the
count of the one before. -/
inductive Chain (version : Str) (data : Bytes) (origin : VersionMetadata) :
    Nat → VersionMetadata → Prop where
  | origin : Chain version data origin 0 origin
  | middle {depth : Nat} {before : VersionMetadata} (config : Config) (s : Middle)
      (info checksum : Str) (answers : Answers) (stored : StoredVersion)
      (upstream : Chain version data origin depth before)
      (fresh : version ∉ s.processedVersions)
      (planned : plan config s version info answers = .ok (.whole checksum before.shardCount))
      (fetched : answers.whole = .ok (some data))
      (processed : version ∈
        (processVersion score config s version info answers).2.processedVersions)
      (held : (processVersion score config s version info answers).2.store.versions.get? version =
        some stored) :
      Chain version data origin (depth + 1) stored.metadata

variable {score}

theorem Chain.inferred {version : Str} {data : Bytes} {origin metadata : VersionMetadata}
    {depth : Nat} (h : Chain score version data origin (depth + 1) metadata) :
    ∃ before, Chain score version data origin depth before ∧
      metadata.shardSize = inferredShardSize data.length before.shardCount ∧
      metadata.shardCount = before.shardCount := by
  cases h with
  | middle config s info checksum answers stored upstream fresh planned fetched processed held =>
    refine ⟨_, upstream, ?_⟩
    simp only [processVersion, planned, processWhole, fetched] at processed held
    obtain ⟨⟨v, hv⟩, hcount⟩ := buffer_inRam fresh processed
    obtain rfl := Option.some.inj (held.symm.trans hv.get)
    exact ⟨hv.shardSize, by rw [hv.shardCount, hcount]⟩

theorem Chain.shardCount {version : Str} {data : Bytes} {origin metadata : VersionMetadata}
    {depth : Nat} (h : Chain score version data origin depth metadata) :
    metadata.shardCount = origin.shardCount := by
  induction depth generalizing metadata with
  | zero =>
    cases h
    rfl
  | succ depth ih =>
    obtain ⟨before, hbefore, -, hcount⟩ := h.inferred
    exact hcount.trans (ih hbefore)

/-- **The size a middle finds gives the listed count.** So a version that its
store accepts under a truthful line is kept, and along a chain of middles every
one finds the same size. The store and `build_manifest` accept no other counts. -/
theorem inferred_size_kept :
    (∀ size shardSize : Nat, 0 < shardSize →
      shardCountOf size (inferredShardSize size (shardCountOf size shardSize)) =
        shardCountOf size shardSize) ∧
    (∀ (score : Str → Nat → Str → MemberProfile → S) (config : Config) (s : Middle)
      (version info checksum : Str) (answers : Answers) (data : Bytes) (shardSize : Nat)
      (metadata : VersionMetadata) (store : CheckpointStore), 0 < shardSize →
        let count := shardCountOf data.length shardSize
        let t := processVersion score config s version info answers
        plan config s version info answers = .ok (.whole checksum count) →
          answers.whole = .ok (some data) →
          s.store.put version data (inferredShardSize data.length count) (some checksum) =
            (.ok metadata, store) →
          metadata.shardCount = count ∧ t.1 = .ok () ∧ t.2.store = store ∧
            version ∈ t.2.processedVersions) ∧
    (∀ (score : Str → Nat → Str → MemberProfile → S) (version : Str) (data : Bytes)
      (origin metadata : VersionMetadata) (depth : Nat),
        Chain score version data origin (depth + 1) metadata →
          metadata.shardSize = inferredShardSize data.length origin.shardCount ∧
            metadata.shardCount = origin.shardCount) ∧
    (∀ (store store' : CheckpointStore) (name : Str) (data : Bytes) (shardSize : Int)
      (metadata : VersionMetadata), store.Stores store' name data shardSize metadata →
        0 < shardSize.toNat ∧ metadata.shardCount = shardCountOf data.length shardSize.toNat) ∧
    ∀ (name : Str) (data : Bytes) (shardSize : Int) (m : ShardManifest),
      buildManifest name data shardSize = .ok m →
        0 < shardSize.toNat ∧ m.shardCount = shardCountOf data.length shardSize.toNat := by
  refine ⟨fun _ _ => shardCountOf_inferred, ?_, ?_, ?_, ?_⟩
  · intro score config s version info checksum answers data shardSize metadata store hpos count t
      hplan hwhole hput
    simp only [t, processVersion, hplan, processWhole, hwhole]
    exact buffer_kept (shardCountOf_inferred hpos) hput
  · intro score version data origin metadata depth hchain
    obtain ⟨before, hbefore, hshardSize, -⟩ := hchain.inferred
    exact ⟨by rw [hshardSize, hbefore.shardCount], hchain.shardCount⟩
  · intro store store' name data shardSize metadata hstored
    exact ⟨hstored.positive, hstored.spec.2.2.2.1⟩
  · intro name data shardSize m hm
    obtain ⟨-, hpos, -, -, rfl⟩ := ShardManifest.buildManifest_eq_ok hm
    exact ⟨by omega, rfl⟩

end

/-- Nine bytes that came in shards of four are kept in threes, and by the middle
that follows as well. -/
theorem inferred_size_kept_nine_bytes :
    letI := asciiLibrary
    let score (_ : Str) (_ : Nat) (_ : Str) (_ : MemberProfile) := 0
    let data : Bytes := [1, 2, 3, 4, 5, 6, 7, 8, 9]
    let t := processVersion score ⟨none, true, 1000, false⟩ (started 16 .empty .empty)
      (str "v1") (Listing.info ⟨hexdigest data, 3⟩) { whole := .ok (some data) }
    (t.1 = .ok () ∧ str "v1" ∈ t.2.processedVersions) ∧
      ∃ metadata, Chain score (str "v1") data ⟨str "v1", 9, 4, 3, hexdigest data⟩ 2 metadata ∧
        metadata.shardSize = inferredShardSize 9 3 ∧ metadata.shardCount = 3 := by
  let _ := asciiLibrary
  intro score data
  let config : Config := ⟨none, true, 1000, false⟩
  let s := started 16 .empty .empty
  let info := Listing.info ⟨hexdigest data, 3⟩
  let answers : Answers := { whole := .ok (some data) }
  have hput : (s.store.put (str "v1") data
      (inferredShardSize data.length (shardCountOf data.length 4)) (some (hexdigest data))).1 =
        .ok ⟨str "v1", 9, 3, 3, hexdigest data⟩ := by decide +kernel
  have hplan : plan config s (str "v1") info answers =
      .ok (.whole (hexdigest data) (shardCountOf data.length 4)) :=
    plan_listing rfl List.not_mem_nil (by decide +kernel) (by decide +kernel) _
  have hkept := (inferred_size_kept.2.1 score config s (str "v1") info (hexdigest data)
    answers data 4 ⟨str "v1", 9, 3, 3, hexdigest data⟩ _ (by decide) hplan rfl
    (Prod.ext hput rfl)).2
  have hok := hkept.1
  have hprocessed := hkept.2.2
  have hthree : shardCountOf data.length 4 = 3 := by decide +kernel
  rw [hthree] at hplan
  obtain ⟨stored, hheld⟩ := Option.isSome_iff_exists.mp (show ((processVersion score config s
    (str "v1") info answers).2.store.versions.get? (str "v1")).isSome = true by decide +kernel)
  have hfirst : Chain score (str "v1") data ⟨str "v1", 9, 4, 3, hexdigest data⟩ 1 stored.metadata :=
    .middle config s info (hexdigest data) answers stored .origin List.not_mem_nil hplan rfl
      hprocessed hheld
  have hsecond : Chain score (str "v1") data ⟨str "v1", 9, 4, 3, hexdigest data⟩ 2 stored.metadata :=
    .middle config s info (hexdigest data) answers stored hfirst List.not_mem_nil
      (hfirst.shardCount ▸ hplan) rfl hprocessed hheld
  have hchain := inferred_size_kept.2.2.1 score (str "v1") data _ _ 1 hsecond
  -- matching the two runs up to the instance, before either is evaluated
  intro t
  refine ⟨⟨?_, ?_⟩, stored.metadata, ?_, ?_⟩
  · convert hok
  · convert hprocessed
  · convert hsecond
  · exact hchain

end Monitor

end Litecast
