import Litecast.Exchange
import Litecast.Lib.Runs

/-! How `GET_VERSION` is answered: for versions assembled from shards, and
while the store changes between its lookups. -/

namespace Litecast

/-- The bytes of a version, wherever it keeps them. -/
def StoredVersion.bytes (v : StoredVersion) : Bytes :=
  match v.data with
  | some data => data
  | none => (List.range v.metadata.shardCount).flatMap fun index => (v.shards.get? index).getD []

namespace Ucxx

open Protocol

section
variable [Library]

/-- A `GET_VERSION` is answered with the metadata of the version and, in the
payloads after it, its bytes. -/
def Answered (server : Server) (served : Bool) (version : Str) (v : StoredVersion) : Prop :=
  ∃ request reply, ∃ chunks : List Bytes, encodeGetVersion version = .ok request ∧
    encodeMetadata (metadataMessage v.metadata) = .ok reply ∧
    handleRequest server served request = .obj reply :: chunks.map .buffer ∧
    chunks.flatten = v.bytes

omit [Library] in
/-- The limits of the server and of the messages. -/
structure WithinLimits (server : Server) (metadata : VersionMetadata) : Prop where
  totalSize : metadata.totalSize ≤ server.maxTotalSize
  shardSize : metadata.shardSize ≤ maxShardSize
  shardCount : metadata.shardCount ≤ maxShardCount
  reply : FitsControlUnicode (.obj (metadataMessage metadata))

omit [Library] in
theorem kind_of_frame {kind : MessageType} {payload raw : Bytes}
    (h : encodeFrame kind payload = .ok raw) : raw[5]? = some (UInt8.ofNat kind.code) := by
  rw [encodeFrame] at h
  split_ifs at h
  cases h
  simp [Header.pack, magic, BigEndian.encode]

theorem encodeError_ne_encodeMetadata {message : Str} {metadata : List (Str × Json)}
    {raw : Bytes} (herror : encodeError message = .ok raw) :
    encodeMetadata metadata ≠ .ok raw := by
  intro hmetadata
  obtain ⟨payload, -, herror⟩ := bind_eq_ok.mp herror
  rw [encodeMetadata] at hmetadata
  split at hmetadata
  · cases hmetadata
  split_ifs at hmetadata
  have hkinds := (kind_of_frame herror).symm.trans (kind_of_frame hmetadata)
  exact absurd hkinds (by decide)

/-- One error message, or nothing at all. -/
def Refused (messages : List Message) : Prop :=
  messages = [] ∨ ∃ message raw, encodeError message = .ok raw ∧ messages = [.obj raw]

theorem Refused.not_answered {server : Server} {served : Bool} {version : Str} {v : StoredVersion}
    {request : Bytes} (hencode : encodeGetVersion version = .ok request)
    (h : Refused (handleRequest server served request)) : ¬ Answered server served version v := by
  rintro ⟨request', reply, chunks, hencode', hreply, hmessages, -⟩
  obtain rfl := Except.ok.inj (hencode.symm.trans hencode')
  rw [hmessages] at h
  rcases h with hnone | ⟨message, raw, herror, hone⟩
  · cases hnone
  · obtain rfl : reply = raw := by
      simpa using (List.cons.inj hone).1
    exact encodeError_ne_encodeMetadata herror hreply

theorem refused_of_error {server : Server} (served : Bool) {raw : Bytes} {e : Exc}
    (h : decodeFrame raw maxMetadataSize >>= serveRequest server = .error e) :
    Refused (handleRequest server served raw) := by
  rw [handleRequest, h]
  cases served with
  | true => exact Or.inl rfl
  | false =>
    simp only [Bool.false_eq_true, if_false]
    split
    · next reply hreply => exact Or.inr ⟨_, reply, hreply, rfl⟩
    · exact Or.inl rfl

/-- What one turn does with a `GET_VERSION`. -/
theorem getVersion_turn (server : Server) {version : Str}
    (hversion : validateVersion version = .ok ()) :
    ∃ request frame, encodeGetVersion version = .ok request ∧ frame.messageType = .getVersion ∧
      decodeGetVersion frame = .ok version ∧
      (decodeFrame request maxMetadataSize >>= serveRequest server) = serveRequest server frame := by
  obtain ⟨request, hencode, frame, hframe, hkind, hdecode⟩ := delivers_getVersion hversion
  exact ⟨request, frame, hencode, hkind, hdecode, by rw [hframe]; rfl⟩

/-- A version not held as one buffer is not found, complete or not. -/
theorem refused_without_buffer (server : Server) (served : Bool) {version : Str}
    (hversion : validateVersion version = .ok ()) (hdata : server.store.get version = none) :
    ∃ request, encodeGetVersion version = .ok request ∧
      Refused (handleRequest server served request) := by
  obtain ⟨request, frame, hencode, hkind, hdecode, hturn⟩ := getVersion_turn server hversion
  obtain ⟨notFound, hnotFound, -⟩ := delivers_error "version not found" rfl (by decide) (by decide)
  have hserve : serveRequest server frame = .ok [.obj notFound] := by
    simp only [serveRequest, hkind, hdecode, hdata, bind, Except.bind]
    cases server.store.getMetadata version <;> simp only [hnotFound, pure, Except.pure]
  refine ⟨request, hencode, Or.inr ⟨_, notFound, hnotFound, ?_⟩⟩
  rw [handleRequest, hturn, hserve]

omit [Library] in
theorem matches_of_validated {metadata m : VersionMetadata} {version : Str} {maximum : Nat}
    (h : validateMetadata (.obj (metadataMessage metadata)) version maximum = .ok m) :
    matchesChecksum metadata.checksum = true := by
  have hchecksum : (((Json.obj (metadataMessage metadata)).get? (str "checksum")).getD .null).string? =
      some metadata.checksum := rfl
  rw [validateMetadata] at h
  simp only [hchecksum] at h
  split at h
  · cases h
  split at h
  · cases h
  obtain ⟨totalSize, -, h⟩ := bind_eq_ok.mp h
  obtain ⟨shardSize, -, h⟩ := bind_eq_ok.mp h
  obtain ⟨shardCount, -, h⟩ := bind_eq_ok.mp h
  split_ifs at h with hcount hmatches
  exact hmatches

/-- Nor is a version sent whose checksum is not written as a digest is. -/
theorem refused_without_digest {server : Server} (served : Bool) {version : Str}
    (hversion : validateVersion version = .ok ()) {data : Bytes} {metadata : VersionMetadata}
    (hdata : server.store.get version = some data)
    (hmetadata : server.store.getMetadata version = some metadata)
    (htotal : metadata.totalSize ≤ server.maxTotalSize)
    (hchecksum : ¬ matchesChecksum metadata.checksum = true) :
    ∃ request, encodeGetVersion version = .ok request ∧
      Refused (handleRequest server served request) := by
  obtain ⟨request, frame, hencode, hkind, hdecode, hturn⟩ := getVersion_turn server hversion
  refine ⟨request, hencode, ?_⟩
  cases hvalid : validateMetadata (.obj (metadataMessage metadata)) version server.maxTotalSize with
  | ok m => exact absurd (matches_of_validated hvalid) hchecksum
  | error e =>
    have hlarge : ¬ server.maxTotalSize < metadata.totalSize := by omega
    apply refused_of_error served (e := e)
    rw [hturn]
    simp only [serveRequest, hkind, hdecode, hmetadata, hdata, hlarge, hvalid, bind, Except.bind,
      if_false]

theorem answered_whole {server : Server} (hshaped : server.store.AllShaped) (served : Bool)
    {version : Str} (hversion : validateVersion version = .ok ()) {v : StoredVersion} {data : Bytes}
    (hv : server.store.versions.get? version = some v) (hdata : v.data = some data)
    (hlimits : WithinLimits server v.metadata)
    (hchecksum : matchesChecksum v.metadata.checksum = true) :
    Answered server served version v := by
  obtain ⟨hpos, hlength, hcounted⟩ := (hshaped _ _ hv).whole data hdata
  obtain ⟨request, reply, hencode, hreply, -, hmessages⟩ := served_whole hshaped served hversion
    (Option.bind_eq_some_iff.mpr ⟨v, hv, hdata⟩) (Option.map_eq_some_iff.mpr ⟨v, hv, rfl⟩)
    hlimits.totalSize hlimits.shardSize hlimits.shardCount hlimits.reply hchecksum
  refine ⟨request, reply, (List.range v.metadata.shardCount).map
    (Pieces.piece v.metadata.shardSize data), hencode, hreply, ?_, ?_⟩
  · rw [hmessages, versionChunks_eq hlength, List.map_map]
    rfl
  · have hflat := Pieces.flatten_slices (l := data) (Pieces.consecutive_spans hpos data.length) le_rfl
    rw [Pieces.slice_all, Pieces.spans, List.map_map, ← hlength, ← shardCountOf_eq_ceilDiv,
      ← hcounted, hlength] at hflat
    rw [StoredVersion.bytes, hdata]
    exact hflat

/-- **A version is answered for when it is one buffer, complete or not.** The digest
`put_verified` was given for it must be written as the messages ask. -/
theorem complete_answered_iff (server : Server) (hreached : server.store.Reached) (served : Bool)
    (version : Str) (hversion : validateVersion version = .ok ()) (v : StoredVersion)
    (hv : server.store.versions.get? version = some v)
    (hlimits : WithinLimits server v.metadata) :
    Answered server served version v ↔
      v.data.isSome = true ∧ matchesChecksum v.metadata.checksum = true := by
  cases hdata : v.data with
  | none =>
    refine iff_of_false ?_ (by simp)
    obtain ⟨request, hencode, hrefused⟩ := refused_without_buffer server served hversion
      (by rw [CheckpointStore.get, hv]; exact hdata)
    exact hrefused.not_answered hencode
  | some data =>
    have hget : server.store.get version = some data := Option.bind_eq_some_iff.mpr ⟨v, hv, hdata⟩
    by_cases hchecksum : matchesChecksum v.metadata.checksum = true
    · exact iff_of_true (answered_whole hreached.allShaped served hversion hv hdata hlimits hchecksum)
        ⟨rfl, hchecksum⟩
    · refine iff_of_false ?_ fun h => hchecksum h.2
      obtain ⟨request, hencode, hrefused⟩ := refused_without_digest served hversion hget
        (Option.map_eq_some_iff.mpr ⟨v, hv, rfl⟩) hlimits.totalSize hchecksum
      exact hrefused.not_answered hencode

end

theorem complete_answered_iff_three_bytes :
    letI := asciiLibrary
    Answered threeBytesServer false (str "v1")
        { metadata := threeBytesMetadata, data := some [1, 2, 3] } ↔
      (some ([1, 2, 3] : Bytes)).isSome = true ∧
        matchesChecksum threeBytesMetadata.checksum = true := by
  let _ := asciiLibrary
  exact complete_answered_iff threeBytesServer ⟨8, [.put (str "v1") [1, 2, 3] 2 none []], rfl⟩ false
    (str "v1") (by decide) _ rfl ⟨by decide, by decide, by decide, fits_three_bytes⟩

/-- Three bytes put shard by shard, the last first. -/
def assembledServer [Library] : Server where
  store := ([.beginVersion threeBytesMetadata [hexdigest [1, 2], hexdigest [3]],
    .putShard (str "v1") 1 [3], .putShard (str "v1") 0 [1, 2]] : List CheckpointStore.StoreOp).foldl
      CheckpointStore.apply (CheckpointStore.new 8)
  maxTotalSize := 8
  announced := fun _ => false

/-- The store has all of a version and the server does not find it. -/
theorem assembled_version_not_found :
    letI := asciiLibrary
    ∃ v, assembledServer.store.versions.get? (str "v1") = some v ∧
      assembledServer.store.isComplete (str "v1") = true ∧ WithinLimits assembledServer v.metadata ∧
      assembledServer.store.Reached ∧ ¬ Answered assembledServer false (str "v1") v := by
  let _ := asciiLibrary
  obtain ⟨v, hv⟩ : ∃ v, assembledServer.store.versions.get? (str "v1") = some v :=
    Option.isSome_iff_exists.mp (by decide +kernel)
  have hmetadata : v.metadata = threeBytesMetadata := by
    have hfound : (assembledServer.store.versions.get? (str "v1")).map StoredVersion.metadata =
        some threeBytesMetadata := by decide +kernel
    rw [hv] at hfound
    exact Option.some.inj hfound
  obtain ⟨request, hencode, hrefused⟩ := refused_without_buffer assembledServer false
    (show validateVersion (str "v1") = .ok () by decide) (by decide +kernel)
  refine ⟨v, hv, by decide +kernel, ?_, ⟨8, _, rfl⟩, hrefused.not_answered hencode⟩
  rw [hmetadata]
  exact ⟨by decide, by decide, by decide, fits_three_bytes⟩

/-! ## Three lookups -/

section
variable [Library]

/-- The check of `GET_VERSION` with the store as each of its lookups finds it. -/
def versionSnapshot (first second third : CheckpointStore) (version : Str) :
    Option (VersionMetadata × Bytes) :=
  match first.getMetadata version, second.get version with
  | some metadata, some data =>
    if third.getMetadata version ≠ some metadata then none else some (metadata, data)
  | _, _ => none

/-- The rest of `GET_VERSION`. -/
def sendVersion (server : Server) (version : Str) :
    Option (VersionMetadata × Bytes) → Except Exc (List Message)
  | none => do return [.obj (← encodeError (str "version not found"))]
  | some (metadata, data) => do
    if server.maxTotalSize < metadata.totalSize then
      return [.obj (← encodeError (str "version exceeds server limit"))]
    else
      let _ ← validateMetadata (.obj (metadataMessage metadata)) version server.maxTotalSize
      let reply ← encodeMetadata (metadataMessage metadata)
      return .obj reply :: versionChunks metadata data

/-- With nothing in between the lookups it is `serveRequest`. -/
theorem serveRequest_getVersion {server : Server} {frame : Frame} {version : Str}
    (hkind : frame.messageType = .getVersion) (hdecode : decodeGetVersion frame = .ok version) :
    serveRequest server frame =
      sendVersion server version (versionSnapshot server.store server.store server.store version) := by
  simp only [serveRequest, hkind, hdecode, versionSnapshot, bind, Except.bind]
  cases hmetadata : server.store.getMetadata version with
  | none => rfl
  | some metadata =>
    cases server.store.get version with
    | none => rfl
    | some data =>
      simp only [ne_eq, not_true_eq_false, if_false, sendVersion]
      rfl

/-- The store had the data under the metadata, and as much of it. -/
structure StoredTogether (s : CheckpointStore) (version : Str) (metadata : VersionMetadata)
    (data : Bytes) : Prop where
  entry : ∃ v, s.versions.get? version = some v ∧ v.metadata = metadata ∧ v.data = some data
  length : data.length = metadata.totalSize

/-- The second lookup finds a buffer under other metadata than the first, and
an operation after it gives the version the first metadata back. -/
def PutsBack (first : CheckpointStore) (before after : List CheckpointStore.StoreOp)
    (version : Str) : Prop :=
  ∃ metadata v, first.getMetadata version = some metadata ∧
    (before.foldl CheckpointStore.apply first).versions.get? version = some v ∧
    v.data.isSome = true ∧ v.metadata ≠ metadata ∧
    ∃ early op late, after = early ++ op :: late ∧
      (early.foldl CheckpointStore.apply (before.foldl CheckpointStore.apply first)).getMetadata
        version ≠ some metadata ∧
      Runs.Always CheckpointStore.apply (fun s => s.getMetadata version = some metadata)
        ((early.foldl CheckpointStore.apply (before.foldl CheckpointStore.apply first)).apply op) late

omit [Library] in
theorem versionSnapshot_eq_some {first second third : CheckpointStore} {version : Str}
    {metadata : VersionMetadata} {data : Bytes} :
    versionSnapshot first second third version = some (metadata, data) ↔
      first.getMetadata version = some metadata ∧ second.get version = some data ∧
        third.getMetadata version = some metadata := by
  rw [versionSnapshot]
  cases first.getMetadata version with
  | none => simp
  | some found =>
    cases second.get version with
    | none => simp
    | some bytes =>
      simp only [Option.some.injEq]
      split_ifs with hchanged
      · constructor
        · intro h
          cases h
        · rintro ⟨rfl, -, hthird⟩
          exact absurd hthird hchanged
      · rw [not_not] at hchanged
        constructor
        · intro h
          obtain ⟨rfl, rfl⟩ := Prod.mk.inj (Option.some.inj h)
          exact ⟨rfl, rfl, hchanged⟩
        · rintro ⟨rfl, rfl, -⟩
          rfl

/-- **The two reads of the metadata prove the data theirs unless they were put
back in between.** -/
theorem snapshot_together_iff (first : CheckpointStore) (hreached : first.Reached)
    (before after : List CheckpointStore.StoreOp) (version : Str) :
    (∀ metadata data, versionSnapshot first (before.foldl CheckpointStore.apply first)
        (after.foldl CheckpointStore.apply (before.foldl CheckpointStore.apply first)) version =
          some (metadata, data) →
      StoredTogether (before.foldl CheckpointStore.apply first) version metadata data) ↔
    ¬ PutsBack first before after version := by
  have hsecond : (before.foldl CheckpointStore.apply first).Reached := by
    obtain ⟨capacity, ops, rfl⟩ := hreached
    exact ⟨capacity, ops ++ before, List.foldl_append⟩
  constructor
  · rintro htogether ⟨metadata, v, hfirst, hv, hwhole, hother, early, op, late, rfl, -, hheld⟩
    obtain ⟨data, hdata⟩ := Option.isSome_iff_exists.mp hwhole
    have hthird : ((early ++ op :: late).foldl CheckpointStore.apply
        (before.foldl CheckpointStore.apply first)).getMetadata version = some metadata := by
      rw [List.foldl_append, List.foldl_cons]
      exact Runs.always_foldl hheld
    obtain ⟨⟨v', hv', hmetadata, -⟩, -⟩ := htogether metadata data (versionSnapshot_eq_some.mpr
      ⟨hfirst, Option.bind_eq_some_iff.mpr ⟨v, hv, hdata⟩, hthird⟩)
    obtain rfl := Option.some.inj (hv.symm.trans hv')
    exact hother hmetadata
  · intro hkept metadata data hsnapshot
    obtain ⟨hfirst, hget, hthird⟩ := versionSnapshot_eq_some.mp hsnapshot
    obtain ⟨v, hv, hdata⟩ := Option.bind_eq_some_iff.mp hget
    have hsame : v.metadata = metadata := by
      by_contra hother
      have hnot : (before.foldl CheckpointStore.apply first).getMetadata version ≠ some metadata := by
        rw [CheckpointStore.getMetadata, hv]
        simpa using hother
      rcases Runs.always_or_last_change CheckpointStore.apply
          (fun s => s.getMetadata version = some metadata) hthird with halways | hchange
      · exact hnot halways.start
      · exact hkept ⟨metadata, v, hfirst, hv, by rw [hdata]; rfl, hother, hchange⟩
    obtain ⟨-, hlength, -⟩ := (hsecond.allShaped _ _ hv).whole data hdata
    exact ⟨⟨v, hv, hsame, hdata⟩, by rw [← hsame, hlength]⟩

end

/-- Another version comes before the second read and leaves before the third. -/
theorem snapshot_together_iff_unchanged :
    letI := asciiLibrary
    let before : List CheckpointStore.StoreOp := [.put (str "v2") [9] 1 none []]
    let after : List CheckpointStore.StoreOp := [.remove (str "v2")]
    versionSnapshot threeBytesStore (before.foldl CheckpointStore.apply threeBytesStore)
        (after.foldl CheckpointStore.apply (before.foldl CheckpointStore.apply threeBytesStore))
        (str "v1") = some (threeBytesMetadata, [1, 2, 3]) ∧
      StoredTogether (before.foldl CheckpointStore.apply threeBytesStore) (str "v1")
        threeBytesMetadata [1, 2, 3] := by
  let _ := asciiLibrary
  intro before after
  have hsnapshot : versionSnapshot threeBytesStore
      (before.foldl CheckpointStore.apply threeBytesStore)
      (after.foldl CheckpointStore.apply (before.foldl CheckpointStore.apply threeBytesStore))
      (str "v1") = some (threeBytesMetadata, [1, 2, 3]) := by decide +kernel
  refine ⟨hsnapshot, ?_⟩
  refine (snapshot_together_iff threeBytesStore ⟨8, [.put (str "v1") [1, 2, 3] 2 none []], rfl⟩
    before after (str "v1")).mpr ?_ threeBytesMetadata [1, 2, 3] hsnapshot
  -- the metadata of the first read is that of the version all along
  rintro ⟨metadata, v, hfirst, hv, -, hother, -⟩
  have hsecond : (before.foldl CheckpointStore.apply threeBytesStore).getMetadata (str "v1") =
      threeBytesStore.getMetadata (str "v1") := by decide +kernel
  rw [CheckpointStore.getMetadata, hv, hfirst] at hsecond
  exact hother (Option.some.inj hsecond)

/-- `[1, 2]` is replaced by `[3, 4]` and put back: the metadata of the one is
announced and the bytes of the other are sent. -/
theorem replaced_and_put_back :
    letI := asciiLibrary
    let first := (CheckpointStore.new 8).apply (.put (str "v1") [1, 2] 2 none [])
    let second := first.apply (.put (str "v1") [3, 4] 2 none [])
    let third := second.apply (.put (str "v1") [1, 2] 2 none [])
    let metadata : VersionMetadata := ⟨str "v1", 2, 2, 1, hexdigest [1, 2]⟩
    versionSnapshot first second third (str "v1") = some (metadata, [3, 4]) ∧
      ¬ StoredTogether second (str "v1") metadata [3, 4] := by
  let _ := asciiLibrary
  intro first second third metadata
  refine ⟨by decide +kernel, ?_⟩
  rintro ⟨⟨v, hv, hmetadata, -⟩, -⟩
  have hother : second.getMetadata (str "v1") ≠ some metadata := by decide +kernel
  apply hother
  rw [CheckpointStore.getMetadata, hv, ← hmetadata]
  rfl

end Ucxx

end Litecast
