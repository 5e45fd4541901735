import Litecast.Agreement
import Litecast.Download
import Litecast.StreamedShards

/-! A buffer `download_version_buffer` returns has the checksum of its line; one
streamed with a Merkle root has the shards of a manifest that names it. -/

namespace Litecast

@[simp] theorem length_downloadInto (target : Bytes) (attempts : List HttpGet) :
    (downloadInto target attempts).2.length = target.length := by
  induction attempts generalizing target with
  | nil => rfl
  | cons answer retries ih =>
    have hfirst := length_downloadIntoFrom target answer
    rw [downloadInto]
    rcases h : downloadIntoFrom target answer with ⟨success, after⟩
    rw [h] at hfirst
    cases success with
    | true => exact hfirst
    | false => exact (ih after).trans hfirst

namespace Ucxx

theorem plainInt_eq_ok {value : Json} {label : Str} {minimum maximum n : Nat}
    (h : plainInt value label minimum maximum = .ok n) : minimum ≤ n ∧ n ≤ maximum := by
  rw [plainInt] at h
  split at h
  · split at h
    · obtain rfl := Except.ok.inj h
      omega
    · cases h
  · cases h

/-- Metadata a client accepts describes a version it has memory for. -/
theorem validateMetadata_eq_ok {value : Json} {version : Str} {maximum : Nat}
    {metadata : VersionMetadata} (h : validateMetadata value version maximum = .ok metadata) :
    metadata.totalSize ≤ maximum ∧ 0 < metadata.shardSize ∧
      metadata.shardCount = metadata.totalSize ⌈/⌉ metadata.shardSize := by
  simp only [validateMetadata] at h
  split at h
  · cases h
  split at h
  · cases h
  obtain ⟨totalSize, htotal, h⟩ := bind_eq_ok.mp h
  obtain ⟨shardSize, hsize, h⟩ := bind_eq_ok.mp h
  obtain ⟨shardCount, -, h⟩ := bind_eq_ok.mp h
  split at h
  · cases h
  next hcount =>
    split at h
    · split at h
      · obtain rfl := Except.ok.inj h
        refine ⟨(plainInt_eq_ok htotal).2, (plainInt_eq_ok hsize).1, ?_⟩
        rw [← shardCountOf_eq_ceilDiv]
        exact not_not.mp hcount
      · cases h
    · cases h

theorem length_receiveChunks {metadata : VersionMetadata} (hsize : 0 < metadata.shardSize)
    {indices : List Nat}
    (hindices : ∀ index ∈ indices, index < metadata.totalSize ⌈/⌉ metadata.shardSize)
    {data : Bytes} (hdata : data.length = metadata.totalSize) (inbox : List Message) :
    (receiveChunks metadata indices data inbox).2.1.length = metadata.totalSize := by
  induction indices generalizing data inbox with
  | nil => exact hdata
  | cons index rest ih =>
    obtain ⟨hindex, hrest⟩ := List.forall_mem_cons.mp hindices
    have hspan := Pieces.span_nonempty hsize hindex
    have hbound : (Pieces.span metadata.shardSize metadata.totalSize index).2 ≤ data.length := by
      rw [hdata]
      exact Nat.min_le_right _ _
    rw [receiveChunks, chunkSpan_eq_span]
    have hchunk := length_recv (Pieces.slice data
      (Pieces.span metadata.shardSize metadata.totalSize index).1
      (Pieces.span metadata.shardSize metadata.totalSize index).2) inbox
    rw [Pieces.length_slice hbound] at hchunk
    simp only
    generalize recv (Pieces.slice data _ _) inbox = received at hchunk ⊢
    have hwritten : (Pieces.write data (Pieces.span metadata.shardSize metadata.totalSize index).1
        received.2.1).length = metadata.totalSize := by
      rw [Pieces.length_write (by omega), hdata]
    split
    · exact hwritten
    · exact ih hrest hwritten _

variable [Library]

/-- A complete version is as long as announced, and has the digest announced. -/
theorem fetchVersion_eq_ok {peer : Peer} {version : Str} {maximum : Nat} {result : FetchResult}
    (h : fetchVersion peer version maximum = .ok result) :
    result.data.length ≤ maximum ∧ hexdigest result.data = result.metadata.checksum := by
  obtain ⟨_, -, h⟩ := bind_eq_ok.mp h
  have h := mapError_eq_ok.mp h
  rw [exchangeVersion] at h
  split at h
  · cases h
  split at h
  · cases h
  split at h
  · cases h
  next metadata hmetadata =>
    obtain ⟨value, -, hvalid⟩ := bind_eq_ok.mp hmetadata
    obtain ⟨htotal, hsize, hcount⟩ := validateMetadata_eq_ok hvalid
    next inbox _ _ =>
    have hinside : ∀ index ∈ List.range metadata.shardCount,
        index < metadata.totalSize ⌈/⌉ metadata.shardSize := by
      intro index hindex
      exact hcount ▸ List.mem_range.mp hindex
    have hlength := length_receiveChunks hsize hinside
      (List.length_replicate (a := (0 : UInt8))) inbox
    simp only at h
    split at h
    · cases h
    split at h
    · cases h
    next hdigest =>
      obtain rfl := Except.ok.inj h
      exact ⟨hlength.le.trans htotal, not_not.mp hdigest⟩

end Ucxx

section
variable [Library]

theorem loadShardManifest_first {nestingLimit : Nat} {payload : Bytes}
    (hnesting : nesting payload ≤ nestingLimit) {m : ShardManifest}
    (hread : ShardManifest.fromBytes payload = .ok m) {version : Str} (hname : m.name = version)
    (rest : List Bytes) :
    loadShardManifest nestingLimit version (payload :: rest) = .ok (some m) := by
  have hbears : ¬ (payload.length ≤ maxManifestBytes ∧ nestingLimit < nesting payload) := by omega
  simp only [loadShardManifest, if_neg hbears, hread, if_pos hname]

theorem loadShardManifest_eq_some {nestingLimit : Nat} {version : Str} {payloads : List Bytes}
    {m : ShardManifest} (h : loadShardManifest nestingLimit version payloads = .ok (some m)) :
    m.name = version ∧ ∃ payload ∈ payloads, ShardManifest.fromBytes payload = .ok m := by
  induction payloads with
  | nil => cases h
  | cons payload rest ih =>
    have hlater (h : loadShardManifest nestingLimit version rest = .ok (some m)) :
        m.name = version ∧ ∃ p ∈ payload :: rest, ShardManifest.fromBytes p = .ok m := by
      obtain ⟨hname, p, hp, hread⟩ := ih h
      exact ⟨hname, p, List.mem_cons_of_mem _ hp, hread⟩
    simp only [loadShardManifest] at h
    split at h
    next manifest hmanifest =>
      split at h
      · next hname =>
        obtain rfl := Option.some.inj (Except.ok.inj h)
        split at hmanifest
        · cases hmanifest
        · exact ⟨hname, payload, List.mem_cons_self, hmanifest⟩
      · exact hlater h
    · split at h
      · exact hlater h
      · cases h

namespace ClientNode

variable {S : Type} [LinearOrder S] {score : Str → Nat → Str → MemberProfile → S}

omit [Library] in
/-- The slices of the buffer keep their sizes. -/
theorem length_slices (sizes : List Nat) (attempts : Nat → List HttpGet) (first : Nat) :
    (((sizes.zipIdx first).map fun (size, index) =>
      downloadInto (List.replicate size 0) (attempts index)).flatMap Prod.snd).length = sizes.sum := by
  induction sizes generalizing first with
  | nil => rfl
  | cons size rest ih =>
    rw [List.zipIdx_cons, List.map_cons, List.flatMap_cons, List.length_append, ih,
      length_downloadInto, List.length_replicate, List.sum_cons]

theorem downloadListed_eq_some {client : ClientNode} {checksum : Str} {shardCount : Nat}
    {answers : VersionAnswers} {data : Bytes}
    (h : client.downloadListed checksum shardCount answers = some data) :
    data.length ≤ client.maxVersionBytes ∧ hexdigest data = checksum := by
  obtain ⟨sizes, -, h⟩ := Option.bind_eq_some_iff.mp h
  split at h
  · cases h
  next hfits =>
    simp only at h
    split at h
    · cases h
    split at h
    · cases h
    next hdigest =>
      obtain rfl := Option.some.inj h
      refine ⟨?_, not_not.mp hdigest⟩
      rw [length_slices]
      exact Nat.not_lt.mp hfits

theorem fetchListed_eq_ok {client : ClientNode} {version checksum : Str} {shardCount : Int}
    {peer : Ucxx.Peer} {data : Bytes}
    (h : client.fetchListed version checksum shardCount peer = .ok data) :
    data.length ≤ client.maxVersionBytes ∧ hexdigest data = checksum := by
  obtain ⟨result, hresult, h⟩ := bind_eq_ok.mp h
  split at h
  · cases h
  next hlisted =>
    obtain rfl := Except.ok.inj h
    obtain ⟨hlength, hdigest⟩ := Ucxx.fetchVersion_eq_ok hresult
    rw [not_or, not_not] at hlisted
    exact ⟨hlength, hdigest.trans hlisted.1⟩

/-- A buffer that was streamed from a manifest with a Merkle root: each of its
shards has its digest in the manifest, the digests have that root, and the
manifest names this checksum and number of shards. -/
structure Rooted (m : ShardManifest) (checksum : Str) (shardCount : Int) (data : Bytes) : Prop where
  checksum_eq : m.checksum = checksum
  shardCount_eq : (m.shardCount : Int) = shardCount
  length_eq : data.length = m.totalSize
  root_eq : ∃ root, m.merkleRoot = some root ∧ merkleRoot m.shardChecksums = .ok root
  digests : ∀ index < m.shardCount, m.shardChecksums[index]? =
    some (hexdigest (Pieces.piece m.shardSize data index))

/-- A streamed version fits the memory, and has the shards of its manifest. -/
theorem streamVersion_eq_some {client : ClientNode} {m : ShardManifest} {payload : Bytes}
    (hm : ShardManifest.fromBytes payload = .ok m) {schedule : Schedule} {data : Bytes}
    (h : client.streamVersion score m schedule = .ok (some data)) :
    data.length ≤ client.maxVersionBytes ∧
      (hexdigest data = m.checksum ∨ Rooted m m.checksum m.shardCount data) := by
  obtain ⟨progress, hprogress, h⟩ := bind_eq_ok.mp h
  have hconsistent := ShardManifest.fromBytes_consistent hm
  have hcounted := hconsistent.counted
  split at h
  next shards =>
    obtain rfl := Option.some.inj (Except.ok.inj h)
    have hfits : m.totalSize ≤ client.maxVersionBytes := by
      rw [downloadStreaming] at hprogress
      split at hprogress
      · cases hprogress
      next hmemory => exact Nat.not_lt.mp fun hlarge => hmemory ⟨rfl, hlarge⟩
    obtain ⟨⟨-, hlength⟩, hshards, hwhole⟩ :=
      client.streamed_verified hm none (by simp) schedule hprogress
    refine ⟨hlength.trans_le hfits, ?_⟩
    cases hroot : m.merkleRoot with
    | none => exact Or.inl ((hwhole _ rfl).2.2 hroot).2
    | some root =>
      right
      have hcurrent : m.schema.eqInt 2 = true := by
        by_contra hlegacy
        rw [(hconsistent.legacy (Bool.eq_false_iff.mpr hlegacy)).1] at hroot
        cases hroot
      obtain ⟨root', hroot', -, hmerkle⟩ := hconsistent.current hcurrent
      refine ⟨rfl, rfl, hlength, ⟨root', hroot', hmerkle⟩, ?_⟩
      intro index hindex
      have hdigest := (hshards index (List.mem_range.mpr hindex)).1
      simp only at hdigest
      rw [Selection.target_whole hcounted hindex, ← hlength] at hdigest
      exact hdigest
  · cases h

/-- The other two paths check the digest of the buffer. -/
theorem downloadUnstreamed_eq_some {client : ClientNode} {version checksum : Str} {shardCount : Int}
    {answers : VersionAnswers} {data : Bytes}
    (h : client.downloadUnstreamed version checksum shardCount answers = .ok (some data)) :
    data.length ≤ client.maxVersionBytes ∧ hexdigest data = checksum := by
  simp only [downloadUnstreamed] at h
  split at h
  · cases h
  split at h
  · cases h
  split at h
  · split at h
    next hfetched =>
      obtain rfl := Option.some.inj (Except.ok.inj h)
      exact fetchListed_eq_ok hfetched
    · split at h
      · cases h
      · exact downloadListed_eq_some (Except.ok.inj h)
  · exact downloadListed_eq_some (Except.ok.inj h)

theorem streamListed_eq_some {client : ClientNode} {manifest : Option ShardManifest}
    {checksum : Str} {shardCount : Int} {schedule : Schedule} {data : Bytes}
    (h : client.streamListed score checksum shardCount schedule manifest = .ok (some data)) :
    ∃ m, manifest = some m ∧ m.checksum = checksum ∧ (m.shardCount : Int) = shardCount ∧
      client.streamVersion score m schedule = .ok (some data) := by
  cases manifest with
  | none => cases h
  | some m =>
    rw [streamListed] at h
    split at h
    · cases h
    next hlisted =>
      rw [not_or, not_not, not_not] at hlisted
      exact ⟨m, rfl, hlisted.1, hlisted.2, h⟩

theorem downloadCounted_eq_some {client : ClientNode} {nestingLimit : Nat} {version checksum : Str}
    {shardCount : Int} {answers : VersionAnswers} {data : Bytes}
    (h : client.downloadCounted score nestingLimit version checksum shardCount answers =
      .ok (some data)) :
    data.length ≤ client.maxVersionBytes ∧
      (hexdigest data = checksum ∨
        ∃ m, loadShardManifest nestingLimit version answers.manifests = .ok (some m) ∧
          client.streamVersion score m answers.schedule = .ok (some data) ∧
          Rooted m checksum shardCount data) := by
  obtain ⟨manifest, hmanifest, h⟩ := bind_eq_ok.mp h
  obtain ⟨streamed, hstreamed, h⟩ := bind_eq_ok.mp h
  split at h
  · obtain rfl := Except.ok.inj h
    obtain ⟨m, rfl, rfl, rfl, hrun⟩ := streamListed_eq_some hstreamed
    rw [streamingManifest] at hmanifest
    split at hmanifest
    · obtain ⟨-, payload, -, hread⟩ := loadShardManifest_eq_some hmanifest
      obtain ⟨hlength, hverified⟩ := streamVersion_eq_some hread hrun
      exact ⟨hlength, hverified.imp_right fun hrooted => ⟨m, hmanifest, hrun, hrooted⟩⟩
    · cases hmanifest
  · obtain ⟨hlength, hdigest⟩ := downloadUnstreamed_eq_some h
    exact ⟨hlength, Or.inl hdigest⟩

/-- **A downloaded version is as listed**: it fits the client's memory and has the
checksum of the line that was read. The exception is a version streamed from a
manifest with a Merkle root, which is verified shard by shard only. -/
theorem downloaded_as_listed (client : ClientNode) (nestingLimit : Nat) {version : Str}
    {answers : VersionAnswers} {data : Bytes}
    (h : client.downloadVersionBuffer score nestingLimit version answers = .ok (some data)) :
    ∃ info checksum shardCount,
      (listAvailableVersions answers.distribution).get? version = some info ∧
      checksum = (partition (.ofChar '|') info).1 ∧
      intOf? (partition (.ofChar '|') info).2 = some shardCount ∧
      data.length ≤ client.maxVersionBytes ∧
      (hexdigest data = checksum ∨
        ∃ m, loadShardManifest nestingLimit version answers.manifests = .ok (some m) ∧
          client.streamVersion score m answers.schedule = .ok (some data) ∧
          Rooted m checksum shardCount data) := by
  rw [downloadVersionBuffer] at h
  split at h
  · cases h
  next info hinfo =>
    simp only at h
    split at h
    · cases h
    split at h
    · cases h
    next shardCount hcount =>
      exact ⟨info, _, shardCount, hinfo, rfl, hcount, downloadCounted_eq_some h⟩

/-- With one server nothing is streamed. -/
theorem downloadCounted_of_one {client : ClientNode} (hservers : client.servers.length < 2)
    {nestingLimit : Nat} {version checksum : Str} {shardCount : Int} {answers : VersionAnswers} :
    client.downloadCounted score nestingLimit version checksum shardCount answers =
      client.downloadUnstreamed version checksum shardCount answers := by
  rw [downloadCounted, streamingManifest, if_neg (by omega)]
  rfl

theorem downloadVersionBuffer_of_line {client : ClientNode} {nestingLimit : Nat} {version : Str}
    {answers : VersionAnswers} {info : Str}
    (hline : (listAvailableVersions answers.distribution).get? version = some info)
    (hbar : .ofChar '|' ∈ info) (hchecksum : Ucxx.matchesChecksum (partition (.ofChar '|') info).1)
    {shardCount : Int} (hcount : intOf? (partition (.ofChar '|') info).2 = some shardCount) :
    client.downloadVersionBuffer score nestingLimit version answers =
      client.downloadCounted score nestingLimit version (partition (.ofChar '|') info).1 shardCount
        answers := by
  have hlisted : ¬ (.ofChar '|' ∉ info ∨
      Ucxx.matchesChecksum (partition (.ofChar '|') info).1 = false) := by
    simp [hbar, hchecksum]
  simp only [downloadVersionBuffer, hline, if_neg hlisted, hcount]

end ClientNode

end

/-! ## One byte -/

/-- The line of `v1` with one shard. -/
def singleLine (checksum : Bytes) : Str := str "v1:" ++ hex checksum ++ str "|1"

/-- Every server has the byte 97. -/
def oneByteAnswered (line : Str) (manifests : List Bytes) : VersionAnswers where
  distribution := encodeUtf8 line
  manifests := manifests
  schedule := {
    turns := fun batches => batches.map fun batch =>
      { batch, meanwhile := fun _ => []
        answers := {
          endpoint := none, exchange := .failed fun _ => []
          rounds := fun _ => [fun _ =>
            { endpoint := none, ucxx := .failed [], http := .response none [97] }] } }
    complete := fun batches => by
      rw [List.map_map]
      exact (List.map_id _).symm ▸ List.Perm.refl batches }
  endpoint := none
  peer := fun _ => []
  size := fun _ => some 1
  attempts := fun _ => [.failed [], .response (some 1) [97]]

theorem listAvailableVersions_encoded [Library] {text : Str} (h : (encodeUtf8 text).isSome) :
    listAvailableVersions (encodeUtf8 text) = parseListing text := by
  obtain ⟨bytes, hbytes⟩ := Option.isSome_iff_exists.mp h
  rw [listAvailableVersions, hbytes, Option.bind_some, decodeUtf8_eq_some_iff.mpr hbytes]

/-- Three bytes in two files, of which the first is offered at the second attempt. -/
def twoFilesAnswered : VersionAnswers :=
  { oneByteAnswered (str "v1:" ++ hex ([1, 2, 3] ++ List.replicate 29 0) ++ str "|2") [] with
    size := fun index => some (2 - index)
    attempts := fun index =>
      if index = 0 then [.failed [9], .response (some 2) [1, 2]] else [.response none [3]] }

/-- The manifest of the byte 97, with the checksum of another. -/
def unboundManifest : ShardManifest :=
  { oneByteManifest with checksum := hex (98 :: List.replicate 31 0) }

/-- The byte is streamed under the line of the other. -/
def unboundAnswered [Library] : VersionAnswers :=
  oneByteAnswered (singleLine (98 :: List.replicate 31 0)) [dumps unboundManifest.toDict]

theorem unbound_line :
    let _ := asciiLibrary
    (listAvailableVersions unboundAnswered.distribution).get? (str "v1") =
      some (hex (98 :: List.replicate 31 0) ++ str "|1") := by
  intro _
  have hdistribution : unboundAnswered.distribution =
      encodeUtf8 (singleLine (98 :: List.replicate 31 0)) := rfl
  rw [hdistribution, listAvailableVersions_encoded (by decide +kernel)]
  decide +kernel

theorem unbound_checksum :
    (partition (.ofChar '|') (hex (98 :: List.replicate 31 0) ++ str "|1")).1 =
      hex (98 :: List.replicate 31 0) := by
  decide +kernel

theorem unbound_downloaded :
    let _ := asciiLibrary
    httpClient.downloadVersionBuffer eachItsOwner 1000 (str "v1") unboundAnswered =
      .ok (some [97]) := by
  intro _
  let raw := dumps unboundManifest.toDict
  have hbuilt : buildManifest (str "v1") [97] 4 = .ok oneByteManifest := rfl
  have hread : ShardManifest.fromBytes raw = .ok unboundManifest := by
    have hconsistent : unboundManifest.Consistent :=
      { ShardManifest.buildManifest_consistent hbuilt with checksum_valid := by decide }
    have hlegible : unboundManifest.Legible :=
      { oneByteManifest_legible with checksum := by decide }
    exact ShardManifest.fromBytes_dumps hconsistent (by decide +kernel) hlegible.roundTrips
  have hnesting : nesting raw ≤ 1000 := by
    have hdecoded : decodeUtf8 raw = some (JsonText.write true unboundManifest.toDict.sorted) :=
      decodeUtf8_eq_some_iff.mpr (by decide +kernel)
    rw [nesting, hdecoded]
    decide +kernel
  have hload : httpClient.streamingManifest 1000 (str "v1") unboundAnswered =
      .ok (some unboundManifest) := by
    rw [ClientNode.streamingManifest, if_pos (by decide)]
    exact loadShardManifest_first hnesting hread rfl []
  have hstream : httpClient.streamListed eachItsOwner (hex (98 :: List.replicate 31 0)) 1
      unboundAnswered.schedule (some unboundManifest) = .ok (some [97]) := by decide +kernel
  rw [ClientNode.downloadVersionBuffer_of_line unbound_line (by decide) (by decide)
    (show _ = some 1 by decide +kernel), unbound_checksum, ClientNode.downloadCounted, hload]
  simp only [bind, Except.bind, hstream]
  rfl

/-- What is put together from files has the digest of the line, what is streamed
shards with the digests of the manifest. -/
theorem downloaded_as_listed_either_way :
    let _ := asciiLibrary
    (httpClient.downloadVersionBuffer eachItsOwner 1000 (str "v1") twoFilesAnswered =
        .ok (some [1, 2, 3]) ∧ hexdigest [1, 2, 3] = hex ([1, 2, 3] ++ List.replicate 29 0)) ∧
      ∃ m, loadShardManifest 1000 (str "v1") unboundAnswered.manifests = .ok (some m) ∧
        ClientNode.Rooted m (hex (98 :: List.replicate 31 0)) 1 [97] := by
  intro _
  constructor
  · have hline : (listAvailableVersions twoFilesAnswered.distribution).get? (str "v1") =
        some (hex ([1, 2, 3] ++ List.replicate 29 0) ++ str "|2") := by
      have hdistribution : twoFilesAnswered.distribution =
          encodeUtf8 (str "v1:" ++ hex ([1, 2, 3] ++ List.replicate 29 0) ++ str "|2") := rfl
      rw [hdistribution, listAvailableVersions_encoded (by decide +kernel)]
      decide +kernel
    have hrun : httpClient.downloadVersionBuffer eachItsOwner 1000 (str "v1") twoFilesAnswered =
        .ok (some [1, 2, 3]) := by
      rw [ClientNode.downloadVersionBuffer_of_line hline (by decide) (by decide)
        (show _ = some 2 by decide +kernel)]
      decide +kernel
    obtain ⟨info, checksum, shardCount, hinfo, rfl, -, -, hdigest⟩ :=
      httpClient.downloaded_as_listed 1000 hrun
    obtain rfl := Option.some.inj (hline.symm.trans hinfo)
    refine ⟨hrun, ?_⟩
    rcases hdigest with hdigest | ⟨m, hm, -⟩
    · exact hdigest
    · cases hm
  · obtain ⟨info, checksum, shardCount, hinfo, rfl, hcount, -, hdigest⟩ :=
      httpClient.downloaded_as_listed 1000 unbound_downloaded
    obtain rfl := Option.some.inj (unbound_line.symm.trans hinfo)
    obtain rfl : (1 : Int) = shardCount := by
      have hone : intOf? (partition (.ofChar '|') (hex (98 :: List.replicate 31 0) ++ str "|1")).2 =
          some 1 := by decide +kernel
      exact Option.some.inj (hone.symm.trans hcount)
    rw [unbound_checksum] at hdigest
    rcases hdigest with hdigest | ⟨m, hm, -, hrooted⟩
    · exact absurd hdigest (by decide)
    · exact ⟨m, hm, hrooted⟩

theorem streamed_digest_unchecked :
    let _ := asciiLibrary
    ¬ ∀ (client : ClientNode) (nestingLimit : Nat) (version : Str) (answers : VersionAnswers)
        (data : Bytes),
      client.downloadVersionBuffer eachItsOwner nestingLimit version answers = .ok (some data) →
        ∃ info, (listAvailableVersions answers.distribution).get? version = some info ∧
          data.length ≤ client.maxVersionBytes ∧
          hexdigest data = (partition (.ofChar '|') info).1 := by
  intro _ hall
  obtain ⟨info, hinfo, -, hdigest⟩ :=
    hall httpClient 1000 (str "v1") unboundAnswered [97] unbound_downloaded
  obtain rfl := Option.some.inj (unbound_line.symm.trans hinfo)
  rw [unbound_checksum] at hdigest
  exact absurd hdigest (by decide)

end Litecast
