import Litecast.Exchange
import Litecast.JsonSize

/-! Every control frame, of the client's requests and of the server's answers,
is within the limit it is decoded with. -/

namespace Litecast

open Protocol JsonText

/-! ## What the decoders of requests accept -/

theorem requireType_eq_ok {frame : Frame} {kind : MessageType} :
    requireType frame kind = .ok () ↔ frame.messageType = kind := by
  unfold requireType
  split_ifs with h <;> simp [h]

theorem decodeText_eq_ok {payload : Bytes} {label : Str} {maximum : Nat} {text : Str} :
    decodeText payload label maximum = .ok text ↔ encodeText text label maximum = .ok payload := by
  constructor
  · intro h
    unfold decodeText at h
    split_ifs at h with hempty hlarge
    split at h
    · cases h
    · next decoded hdecoded =>
      obtain rfl := Except.ok.inj h
      exact encodeText_eq_ok.mpr
        ⟨decodeUtf8_eq_some_iff.mp hdecoded, hempty, Nat.le_of_not_lt hlarge⟩
  · exact decodeText_of_encodeText

theorem fitsUint32_iff {index : Int} : fitsUint32 index = true ↔ 0 ≤ index ∧ index ≤ 0xFFFFFFFF := by
  rw [fitsUint32, decide_eq_true_eq]

section
variable [Library]

theorem decodeGetShard_ok {frame : Frame} {version : Str} {index : Nat}
    (h : decodeGetShard frame = .ok (version, index)) :
    frame.messageType = .getShard ∧ fitsVersionName version = .ok true ∧ index ≤ 0xFFFFFFFF := by
  obtain ⟨⟨⟩, hkind, h⟩ := bind_eq_ok.mp h
  refine ⟨requireType_eq_ok.mp hkind, ?_⟩
  split at h
  · cases h
  split_ifs at h
  split at h
  · cases h
  obtain ⟨fits, hfits, h⟩ := bind_eq_ok.mp h
  split_ifs at h with hname
  split at h
  · cases h
  · next value _ =>
    split_ifs at h with huint
    obtain ⟨rfl, rfl⟩ := Prod.mk.inj (Except.ok.inj h)
    have := fitsUint32_iff.mp huint
    exact ⟨by rw [hfits, eq_true_of_ne_false hname], by omega⟩

theorem decodeGetShards_ok {frame : Frame} {version : Str} {indices : List Nat}
    (h : decodeGetShards frame = .ok (version, indices)) :
    frame.messageType = .getShards ∧ Ucxx.GoodBatch version indices := by
  obtain ⟨⟨⟩, hkind, h⟩ := bind_eq_ok.mp h
  refine ⟨requireType_eq_ok.mp hkind, ?_⟩
  split at h
  · cases h
  split_ifs at h
  split at h
  · cases h
  obtain ⟨fits, hfits, h⟩ := bind_eq_ok.mp h
  split_ifs at h with hname
  split at h
  · next items _ =>
    split_ifs at h with hcount
    split at h
    · cases h
    · next values hvalues =>
      split_ifs at h with hgood
      obtain ⟨rfl, rfl⟩ := Prod.mk.inj (Except.ok.inj h)
      obtain ⟨hnodup, hall⟩ := hgood
      have hrange : ∀ value ∈ values, 0 ≤ value ∧ value ≤ 0xFFFFFFFF := fun value hvalue =>
        fitsUint32_iff.mp (List.all_eq_true.mp hall value hvalue)
      have hlength : values.length = items.length := by
        rw [mapM_eq_some_map (g := Json.int) (p := fun _ => True) fun _ _ => by
          rw [Json.plainInt?_eq_some, and_true]] at hvalues
        rw [hvalues.1, List.length_map]
      refine ⟨by rw [hfits, eq_true_of_ne_false hname], ?_, ?_, ?_, ?_⟩
      · intro hnil
        refine hcount (Or.inl (List.length_eq_zero_iff.mp ?_))
        rw [← hlength, List.map_eq_nil_iff.mp hnil]
        rfl
      · rw [List.length_map, hlength]
        omega
      · refine hnodup.map_on fun a ha b hb hab => ?_
        have := hrange a ha
        have := hrange b hb
        omega
      · intro index hindex
        obtain ⟨value, hvalue, rfl⟩ := List.mem_map.mp hindex
        have := hrange value hvalue
        omega
  · cases h

/-! ## Room for each message -/

namespace Ucxx

omit [Library] in
theorem utf8Size_le_of_fits {version : Str} (h : fitsVersionName version = .ok true) :
    utf8Size version ≤ 1024 := by
  obtain ⟨payload, hpayload⟩ := fitsVersionName_eq_ok h
  obtain ⟨hencode, -, hle⟩ := encodeText_eq_ok.mp hpayload
  rw [← length_of_encodeUtf8 hencode]
  exact hle

/-- Every byte of the name may become an escape of six. -/
theorem textSize_version_le (ascii : Bool) {version : Str} (h : fitsVersionName version = .ok true) :
    textSize ascii (.str version) ≤ 6146 := by
  have hescaped := textSize_str_le ascii version
  have := utf8Size_le_of_fits h
  omega

theorem textSize_index_le (ascii : Bool) {index : Nat} (h : index ≤ 0xFFFFFFFF) :
    textSize ascii (.int index) ≤ 10 := textSize_int_le ascii (by decide) (by omega)

theorem textSize_size_le (ascii : Bool) {size : Nat} (h : size < 2 ^ 64) :
    textSize ascii (.int size) ≤ 20 := textSize_int_le ascii (by decide) (by omega)

omit [Library] in
theorem isHexDigit_of_matchesChecksum {checksum : Str} (h : matchesChecksum checksum = true) :
    checksum.length = 64 ∧ ∀ c ∈ checksum, c.isHexDigit = true := by
  simp only [matchesChecksum, Bool.and_eq_true, List.all_eq_true, Bool.or_eq_true,
    decide_eq_true_eq] at h
  refine ⟨h.1, fun c hc => ?_⟩
  have hdigit := h.2 c hc
  unfold CodePoint.isHexDigit CodePoint.hexValue?
  split_ifs <;> first | rfl | omega

theorem textSize_checksum (ascii : Bool) {checksum : Str} (h : matchesChecksum checksum = true) :
    textSize ascii (.str checksum) = 66 := by
  obtain ⟨hlength, hdigits⟩ := isHexDigit_of_matchesChecksum h
  rw [textSize_str_hex ascii hdigits, hlength]

theorem textSize_ok (ascii : Bool) : textSize ascii (.str (str "ok")) = 4 := by
  rw [textSize, write]
  cases ascii <;> decide

theorem textSize_obj (ascii : Bool) (members : List (Str × Json)) :
    textSize ascii (.obj members) = membersSize ascii members + 2 := by rw [textSize]

theorem textSize_indices_le (ascii : Bool) {indices : List Nat}
    (hcount : indices.length ≤ maxBatchShards) (h : ∀ index ∈ indices, index ≤ 0xFFFFFFFF) :
    textSize ascii (.arr (indices.map fun index : Nat => .int index)) ≤ 706 := by
  have hitems : itemsSize ascii (indices.map fun index : Nat => .int index) ≤
      indices.length * (10 + 1) := by
    refine (itemsSize_le ascii fun item hitem => ?_).trans_eq (by rw [List.length_map])
    obtain ⟨index, hindex, rfl⟩ := List.mem_map.mp hitem
    exact textSize_index_le ascii (h index hindex)
  have hmost : maxBatchShards = 64 := rfl
  rw [textSize]
  omega

theorem fitsControl_of_textSize {value : Json} (h : textSize true value ≤ maxMetadataSize) :
    FitsControl value := (length_dumps_le value).trans h

theorem fitsControl_shardRequest {version : Str} {index : Nat}
    (hversion : fitsVersionName version = .ok true) (hindex : index ≤ 0xFFFFFFFF) :
    FitsControl (shardRequest version index) := by
  have hname := textSize_version_le true hversion
  have hitem := textSize_index_le true hindex
  have hkeys : utf8Size (writeString true (str "version")) = 9 ∧
      utf8Size (writeString true (str "index")) = 7 := by decide
  refine fitsControl_of_textSize ?_
  simp only [shardRequest, textSize_obj, membersSize, hkeys, maxMetadataSize]
  omega

theorem fitsControl_batchRequest {version : Str} {indices : List Nat}
    (hversion : fitsVersionName version = .ok true) (hcount : indices.length ≤ maxBatchShards)
    (hindices : ∀ index ∈ indices, index ≤ 0xFFFFFFFF) :
    FitsControl (batchRequest version indices) := by
  have hname := textSize_version_le true hversion
  have hitems := textSize_indices_le true hcount hindices
  have hkeys : utf8Size (writeString true (str "version")) = 9 ∧
      utf8Size (writeString true (str "indices")) = 9 := by decide
  refine fitsControl_of_textSize ?_
  simp only [batchRequest, textSize_obj, membersSize, hkeys, maxMetadataSize]
  omega

/-- The metadata the server has validated. -/
theorem fitsControl_metadata {metadata : VersionMetadata} {version : Str} {maximum : Nat}
    (hversion : fitsVersionName version = .ok true) (hmetadata : Acceptable metadata version maximum)
    (htotal : metadata.totalSize < 2 ^ 64) : FitsControlUnicode (.obj (metadataMessage metadata)) := by
  have hname := textSize_version_le false hversion
  rw [← hmetadata.name] at hname
  have hsize := textSize_size_le false htotal
  have hshard := textSize_size_le false (show metadata.shardSize < 2 ^ 64 from
    Nat.lt_of_le_of_lt hmetadata.shardSize (by decide))
  have hcount := textSize_size_le false (show metadata.shardCount < 2 ^ 64 from
    Nat.lt_of_le_of_lt hmetadata.shardCount (by decide))
  have hdigest := textSize_checksum false hmetadata.checksum
  have hstatus := textSize_ok false
  have hkeys : utf8Size (writeString false (str "name")) = 6 ∧
      utf8Size (writeString false (str "total_size")) = 12 ∧
      utf8Size (writeString false (str "shard_size")) = 12 ∧
      utf8Size (writeString false (str "shard_count")) = 13 ∧
      utf8Size (writeString false (str "checksum")) = 10 ∧
      utf8Size (writeString false (str "status")) = 8 := by decide
  intro text htext
  refine (length_dumpsUnicode_le htext).trans ?_
  simp only [metadataMessage, textSize_obj, membersSize, hkeys, maxMetadataSize]
  omega

theorem fitsControl_shardReply {version checksum : Str} {index size : Nat}
    (hversion : fitsVersionName version = .ok true) (hindex : index ≤ 0xFFFFFFFF)
    (hsize : size < 2 ^ 64) (hchecksum : matchesChecksum checksum = true) :
    FitsControl (.obj [(str "status", .str (str "ok")), (str "version", .str version),
      (str "index", .int index), (str "size", .int size), (str "checksum", .str checksum)]) := by
  have hname := textSize_version_le true hversion
  have hitem := textSize_index_le true hindex
  have hlength := textSize_size_le true hsize
  have hdigest := textSize_checksum true hchecksum
  have hstatus := textSize_ok true
  have hkeys : utf8Size (writeString true (str "status")) = 8 ∧
      utf8Size (writeString true (str "version")) = 9 ∧
      utf8Size (writeString true (str "index")) = 7 ∧
      utf8Size (writeString true (str "size")) = 6 ∧
      utf8Size (writeString true (str "checksum")) = 10 := by decide
  refine fitsControl_of_textSize ?_
  simp only [textSize_obj, membersSize, hkeys, maxMetadataSize]
  omega

theorem textSize_shardEntry_le {index : Nat} {shard : Bytes} {checksum : Str}
    (hindex : index ≤ 0xFFFFFFFF) (hsize : shard.length < 2 ^ 64)
    (hchecksum : matchesChecksum checksum = true) :
    textSize true (shardEntry index shard checksum) ≤ 127 := by
  have hitem := textSize_index_le true hindex
  have hlength := textSize_size_le true hsize
  have hdigest := textSize_checksum true hchecksum
  have hkeys : utf8Size (writeString true (str "index")) = 7 ∧
      utf8Size (writeString true (str "size")) = 6 ∧
      utf8Size (writeString true (str "checksum")) = 10 := by decide
  simp only [shardEntry, textSize_obj, membersSize, hkeys]
  omega

/-- However the batch splits, neither list is longer than it. -/
theorem fitsControl_batchReply {version : Str} {available : List (Nat × Bytes × Str)}
    {unavailable : List Nat} (hversion : fitsVersionName version = .ok true)
    (havailable : available.length ≤ maxBatchShards)
    (hentries : ∀ item ∈ available, item.1 ≤ 0xFFFFFFFF ∧ item.2.1.length < 2 ^ 64 ∧
      matchesChecksum item.2.2 = true)
    (hunavailable : unavailable.length ≤ maxBatchShards)
    (hindices : ∀ index ∈ unavailable, index ≤ 0xFFFFFFFF) :
    FitsControl (.obj [(str "version", .str version),
      (str "shards", .arr (available.map fun (index, shard, checksum) =>
        shardEntry index shard checksum)),
      (str "unavailable", .arr (unavailable.map fun index : Nat => .int index))]) := by
  have hname := textSize_version_le true hversion
  have hmissing := textSize_indices_le true hunavailable hindices
  have hitems : itemsSize true (available.map fun (index, shard, checksum) =>
      shardEntry index shard checksum) ≤ available.length * (127 + 1) := by
    refine (itemsSize_le true fun item hitem => ?_).trans_eq (by rw [List.length_map])
    obtain ⟨entry, hentry, rfl⟩ := List.mem_map.mp hitem
    obtain ⟨hindex, hsize, hchecksum⟩ := hentries entry hentry
    exact textSize_shardEntry_le hindex hsize hchecksum
  have hheld : textSize true (.arr (available.map fun (index, shard, checksum) =>
      shardEntry index shard checksum)) ≤ 8194 := by
    have hmost : maxBatchShards = 64 := rfl
    rw [textSize]
    omega
  have hkeys : utf8Size (writeString true (str "version")) = 9 ∧
      utf8Size (writeString true (str "shards")) = 8 ∧
      utf8Size (writeString true (str "unavailable")) = 13 := by decide
  refine fitsControl_of_textSize ?_
  have hlimit : maxMetadataSize = 16384 := rfl
  rw [textSize_obj, membersSize, membersSize, membersSize, membersSize]
  omega

/-! ## Frames the other side decodes -/

/-- A frame the other side decodes, with a payload within the limit it decodes
it with. -/
def ReadAsControl (raw : Bytes) : Prop :=
  ∃ frame, decodeFrame raw maxMetadataSize = .ok frame ∧ frame.payload.length ≤ maxMetadataSize

theorem Delivers.readAsControl {α : Type} {raw : Bytes} {kind : MessageType}
    {decode : Frame → Except Exc α} {message : α} (h : Delivers raw kind decode message) :
    ReadAsControl raw := by
  obtain ⟨frame, hframe, -⟩ := h
  exact ⟨frame, hframe, (decodeFrame_sound hframe).1.fits⟩

theorem readAsControl_of_encodeFrame {kind : MessageType} {payload raw : Bytes}
    (hraw : encodeFrame kind payload = .ok raw) (hfits : payload.length ≤ maxMetadataSize)
    (hvalid : validateMessage { messageType := kind, payload } = .ok ()) : ReadAsControl raw := by
  obtain ⟨raw', hraw', hdelivers⟩ :=
    delivers_frame kind (fun _ => .ok ()) payload hfits hvalid rfl
  obtain rfl := Except.ok.inj (hraw.symm.trans hraw')
  exact hdelivers.readAsControl

theorem readAsControl_versionAvailable {version : Str} {raw : Bytes}
    (h : encodeVersionAvailable version = .ok raw) : ReadAsControl raw := by
  obtain ⟨payload, hpayload, hraw⟩ := bind_eq_ok.mp h
  have hle : payload.length ≤ maxVersionNameSize := (encodeText_eq_ok.mp hpayload).2.2
  refine readAsControl_of_encodeFrame hraw (hle.trans (by decide)) ?_
  simp [validateMessage, decodeVersionAvailable, requireType, decodeText_of_encodeText hpayload,
    bind, Except.bind, Except.map]

/-- A character takes four bytes at most, and is not escaped. -/
theorem readAsControl_error {message : Str} {raw : Bytes} (hlength : message.length ≤ 1024)
    (h : encodeError message = .ok raw) : ReadAsControl raw := by
  obtain ⟨payload, hpayload, hraw⟩ := bind_eq_ok.mp h
  have hsize : payload.length ≤ 4 * message.length := by
    rw [length_of_encodeUtf8 (encodeText_eq_ok.mp hpayload).1]
    exact utf8Size_le_length message
  have hlimit : maxMetadataSize = 16384 := rfl
  refine readAsControl_of_encodeFrame hraw (by omega) ?_
  simp [validateMessage, decodeText_of_encodeText hpayload, Except.map]

omit [Library] in
theorem plainInt_int_ok {n minimum maximum found : Nat} {label : Str}
    (h : plainInt (.int n) label minimum maximum = .ok found) :
    found = n ∧ minimum ≤ n ∧ n ≤ maximum := by
  simp only [plainInt, Json.plainInt?] at h
  split_ifs at h with hrange
  have := Except.ok.inj h
  omega

omit [Library] in
theorem acceptable_of_validateMetadata {metadata found : VersionMetadata} {version : Str}
    {maximum : Nat}
    (h : validateMetadata (.obj (metadataMessage metadata)) version maximum = .ok found) :
    Acceptable metadata version maximum := by
  have hname : (Json.obj (metadataMessage metadata)).get? (str "name") =
      some (.str metadata.name) := rfl
  have htotal : (Json.obj (metadataMessage metadata)).get? (str "total_size") =
      some (.int metadata.totalSize) := rfl
  have hsize : (Json.obj (metadataMessage metadata)).get? (str "shard_size") =
      some (.int metadata.shardSize) := rfl
  have hcount : (Json.obj (metadataMessage metadata)).get? (str "shard_count") =
      some (.int metadata.shardCount) := rfl
  have hchecksum : (Json.obj (metadataMessage metadata)).get? (str "checksum") =
      some (.str metadata.checksum) := rfl
  simp only [validateMetadata, hname, htotal, hsize, hcount, hchecksum, Option.getD_some,
    Json.string?] at h
  split_ifs at h with _ hnamed hdigits
  all_goals
    obtain ⟨total, htotal', h⟩ := bind_eq_ok.mp h
    obtain ⟨size, hsize', h⟩ := bind_eq_ok.mp h
    obtain ⟨count, hcount', h⟩ := bind_eq_ok.mp h
    split_ifs at h with hcounted
  obtain ⟨rfl, -, hmost⟩ := plainInt_int_ok htotal'
  obtain ⟨rfl, hpos, hlarge⟩ := plainInt_int_ok hsize'
  obtain ⟨rfl, -, hmany⟩ := plainInt_int_ok hcount'
  exact ⟨Option.some.inj (not_not.mp hnamed), hmost, hpos, hlarge, hmany, not_not.mp hcounted,
    hdigits⟩

theorem readAsControl_metadata {metadata : VersionMetadata} {version : Str} {maximum : Nat}
    {raw : Bytes} (hversion : fitsVersionName version = .ok true)
    (hmetadata : Acceptable metadata version maximum) (htotal : metadata.totalSize < 2 ^ 64)
    (h : encodeMetadata (metadataMessage metadata) = .ok raw) : ReadAsControl raw := by
  have hname : IsText metadata.name := hmetadata.name ▸ isText_of_fits hversion
  have hdigest : IsText metadata.checksum := isText_of_matchesChecksum hmetadata.checksum
  have hwritable : Writable false (.obj (metadataMessage metadata)) := by
    refine .of_keys (rfl : _ = [str "name", str "total_size", str "shard_size", str "shard_count",
      str "checksum", str "status"]) (by decide) (by decide) ?_
    simp [metadataMessage, Writable.str, Writable.int, hname, hdigest, isText_str]
  obtain ⟨raw', hraw', hdelivers⟩ :=
    delivers_metadata hwritable (fitsControl_metadata hversion hmetadata htotal)
  obtain rfl := Except.ok.inj (h.symm.trans hraw')
  exact hdelivers.readAsControl

theorem readAsControl_shardMetadata {members : List (Str × Json)} {raw : Bytes}
    (hwritable : Writable true (.obj members)) (hfits : FitsControl (.obj members))
    (h : encodeShardMetadata members = .ok raw) : ReadAsControl raw := by
  have hobject : (rejoined (Json.obj members).sorted).isObject = true := by
    rw [Json.sorted, rejoined]
    rfl
  obtain ⟨raw', hraw', hdelivers⟩ := delivers_shardMetadata (loads_dumps hwritable) hobject hfits
  obtain rfl := Except.ok.inj (h.symm.trans hraw')
  exact hdelivers.readAsControl

theorem readAsControl_shardsMetadata {members : List (Str × Json)} {raw : Bytes}
    (hwritable : Writable true (.obj members)) (hfits : FitsControl (.obj members))
    (h : encodeShardsMetadata members = .ok raw) : ReadAsControl raw := by
  have hobject : (rejoined (Json.obj members).sorted).isObject = true := by
    rw [Json.sorted, rejoined]
    rfl
  obtain ⟨raw', hraw', hdelivers⟩ := delivers_shardsMetadata (loads_dumps hwritable) hobject hfits
  obtain rfl := Except.ok.inj (h.symm.trans hraw')
  exact hdelivers.readAsControl

/-! ## The server's answers -/

/-- The store holds shards and totals whose sizes fit 64 bits, and checksums of
64 hexadecimal digits. -/
structure Server.Sized (server : Server) : Prop where
  total : ∀ version metadata, server.store.getMetadata version = some metadata →
    metadata.totalSize < 2 ^ 64
  shard : ∀ version (index : Nat) shard checksum,
    server.store.getShardWithChecksum version index = .ok (shard, checksum) →
      shard.length < 2 ^ 64 ∧ matchesChecksum checksum = true

theorem mem_availableShards {store : CheckpointStore} {version : Str} {indices : List Nat}
    {item : Nat × Bytes × Str} (h : item ∈ availableShards store version indices) :
    item.1 ∈ indices ∧ store.getShardWithChecksum version item.1 = .ok item.2 := by
  obtain ⟨index, hindex, hitem⟩ := List.mem_filterMap.mp h
  split at hitem
  · cases hitem
  · next shard checksum hshard =>
    obtain rfl := Option.some.inj hitem
    exact ⟨hindex, hshard⟩

/-- With `ensure_ascii` any text can be written. -/
theorem writable_batchReply (version : Str) (available : List (Nat × Bytes × Str))
    (unavailable : List Nat) :
    Writable true (.obj [(str "version", .str version),
      (str "shards", .arr (available.map fun (index, shard, checksum) =>
        shardEntry index shard checksum)),
      (str "unavailable", .arr (unavailable.map fun index : Nat => .int index))]) := by
  have hentry : ∀ entry ∈ available.map fun (index, shard, checksum) =>
      shardEntry index shard checksum, Writable true entry := by
    intro entry hentry
    obtain ⟨item, -, rfl⟩ := List.mem_map.mp hentry
    refine .of_keys (rfl : _ = [str "index", str "size", str "checksum"]) (by decide) (by decide) ?_
    simp [Writable.str, Writable.int]
  refine .of_keys (rfl : _ = [str "version", str "shards", str "unavailable"]) (by decide)
    (by decide) ?_
  simp only [List.forall_mem_cons, List.not_mem_nil, false_imp_iff, implies_true, and_true]
  exact ⟨.str (Or.inl rfl), .arr hentry, writable_indices true unavailable⟩

theorem writable_shardReply (version checksum : Str) (index size : Nat) :
    Writable true (.obj [(str "status", .str (str "ok")), (str "version", .str version),
      (str "index", .int index), (str "size", .int size), (str "checksum", .str checksum)]) := by
  refine .of_keys (rfl : _ = [str "status", str "version", str "index", str "size",
    str "checksum"]) (by decide) (by decide) ?_
  simp [Writable.str, Writable.int]

omit [Library] in
theorem fitsVersionName_of_decodeGetVersion {frame : Frame} {version : Str}
    (h : decodeGetVersion frame = .ok version) : fitsVersionName version = .ok true := by
  obtain ⟨⟨⟩, -, h⟩ := bind_eq_ok.mp h
  obtain ⟨hencode, hne, hle⟩ := encodeText_eq_ok.mp (decodeText_eq_ok.mp h)
  have hname : version ≠ [] := by
    rintro rfl
    exact hne (Option.some.inj hencode).symm
  rw [fitsVersionName, if_neg hname, encodeText?, hencode]
  simpa [bind, Except.bind] using hle

theorem readAsControl_serveRequest {server : Server} (hsized : server.Sized) {request : Frame}
    {messages : List Message} (h : serveRequest server request = .ok messages) {reply : Bytes}
    (hreply : .obj reply ∈ messages) : ReadAsControl reply := by
  have hbulk (shard : Bytes) : Message.obj reply ∉ payload shard := by
    unfold payload
    split_ifs <;> simp
  unfold serveRequest at h
  split at h
  · obtain ⟨version, -, h⟩ := bind_eq_ok.mp h
    split_ifs at h
    · obtain ⟨raw, hraw, h⟩ := bind_eq_ok.mp h
      obtain rfl := Except.ok.inj h
      obtain rfl : reply = raw := by simpa using hreply
      exact readAsControl_versionAvailable hraw
    · obtain ⟨raw, hraw, h⟩ := bind_eq_ok.mp h
      obtain rfl := Except.ok.inj h
      obtain rfl : reply = raw := by simpa using hreply
      exact readAsControl_error (by decide) hraw
  · obtain ⟨⟨version, indices⟩, hdecode, h⟩ := bind_eq_ok.mp h
    obtain ⟨raw, hraw, h⟩ := bind_eq_ok.mp h
    obtain rfl := Except.ok.inj h
    obtain ⟨-, hversion, -, hcount, -, hindices⟩ := decodeGetShards_ok hdecode
    have hheld : ∀ item ∈ availableShards server.store version indices, item.1 ≤ 0xFFFFFFFF ∧
        item.2.1.length < 2 ^ 64 ∧ matchesChecksum item.2.2 = true := by
      intro item hitem
      obtain ⟨hindex, hshard⟩ := mem_availableShards hitem
      exact ⟨hindices _ hindex, hsized.shard version _ _ _ hshard⟩
    have hmissing : ∀ index ∈ unavailableShards server.store version indices,
        index ≤ 0xFFFFFFFF := fun index hindex => hindices index (List.mem_of_mem_filter hindex)
    have hfits := fitsControl_batchReply hversion ((List.length_filterMap_le _ _).trans hcount)
      hheld ((List.length_filter_le _ _).trans hcount) hmissing
    have hsent : reply = raw := by
      rcases List.mem_cons.mp hreply with heq | hbulk'
      · exact Message.obj.inj heq
      · obtain ⟨item, -, hitem⟩ := List.mem_flatMap.mp hbulk'
        exact absurd hitem (hbulk _)
    rw [hsent]
    exact readAsControl_shardsMetadata (writable_batchReply version _ _) hfits hraw
  · obtain ⟨⟨version, index⟩, hdecode, h⟩ := bind_eq_ok.mp h
    obtain ⟨-, hversion, hindex⟩ := decodeGetShard_ok hdecode
    cases hshard : server.store.getShardWithChecksum version index with
    | error e =>
      simp only [hshard] at h
      obtain ⟨raw, hraw, h⟩ := bind_eq_ok.mp h
      obtain rfl := Except.ok.inj h
      obtain rfl : reply = raw := by simpa using hreply
      exact readAsControl_error (by decide) hraw
    | ok found =>
      obtain ⟨shard, checksum⟩ := found
      simp only [hshard] at h
      obtain ⟨raw, hraw, h⟩ := bind_eq_ok.mp h
      obtain rfl := Except.ok.inj h
      obtain ⟨hsize, hchecksum⟩ := hsized.shard version index shard checksum hshard
      have hsent : reply = raw := by
        rcases List.mem_cons.mp hreply with heq | hbulk'
        · exact Message.obj.inj heq
        · exact absurd hbulk' (hbulk shard)
      rw [hsent]
      exact readAsControl_shardMetadata (writable_shardReply version checksum index _)
        (fitsControl_shardReply hversion hindex hsize hchecksum) hraw
  · obtain ⟨version, hdecode, h⟩ := bind_eq_ok.mp h
    split at h
    · next metadata data hmetadata _ =>
      split_ifs at h
      · obtain ⟨raw, hraw, h⟩ := bind_eq_ok.mp h
        obtain rfl := Except.ok.inj h
        obtain rfl : reply = raw := by simpa using hreply
        exact readAsControl_error (by decide) hraw
      · obtain ⟨found, hfound, h⟩ := bind_eq_ok.mp h
        obtain ⟨raw, hraw, h⟩ := bind_eq_ok.mp h
        obtain rfl := Except.ok.inj h
        have hsent : reply = raw := by
          rcases List.mem_cons.mp hreply with heq | hbulk'
          · exact Message.obj.inj heq
          · obtain ⟨index, -, hindex⟩ := List.mem_map.mp hbulk'
            cases hindex
        rw [hsent]
        exact readAsControl_metadata (fitsVersionName_of_decodeGetVersion hdecode)
          (acceptable_of_validateMetadata hfound) (hsized.total version metadata hmetadata) hraw
    · obtain ⟨raw, hraw, h⟩ := bind_eq_ok.mp h
      obtain rfl := Except.ok.inj h
      obtain rfl : reply = raw := by simpa using hreply
      exact readAsControl_error (by decide) hraw

/-- Whatever arrives, the server answers with frames that can be decoded. -/
theorem readAsControl_handleRequest {server : Server} (hsized : server.Sized) (served : Bool)
    {raw reply : Bytes} (hreply : .obj reply ∈ handleRequest server served raw) :
    ReadAsControl reply := by
  unfold handleRequest at hreply
  split at hreply
  · next messages hserved =>
    obtain ⟨request, -, hserve⟩ := bind_eq_ok.mp hserved
    exact readAsControl_serveRequest hsized hserve hreply
  · next e _ =>
    split_ifs at hreply
    · cases hreply
    · simp only at hreply
      split at hreply
      · next sent hsent =>
        obtain rfl : reply = sent := by simpa using hreply
        refine readAsControl_error ?_ hsent
        split_ifs
        · decide
        · exact List.length_take_le _ _
      · cases hreply

/-! ## The client's requests -/

/-- What a client asks for in one control frame. -/
inductive Request where
  | getVersion (version : Str)
  | getShard (version : Str) (index : Nat)
  | getShards (version : Str) (indices : List Nat)
  | waitVersion (version : Str)

namespace Request

def encode : Request → Except Exc Bytes
  | .getVersion version => encodeGetVersion version
  | .getShard version index => encodeGetShard version index
  | .getShards version indices => encodeGetShards version (indices.map Int.ofNat)
  | .waitVersion version => encodeWaitVersion version

/-- The client takes the version name, every index fits 32 bits, and a batch is
one of distinct indices. -/
def Accepted : Request → Prop
  | .getVersion version => validateVersion version = .ok ()
  | .getShard version index => validateVersion version = .ok () ∧ index ≤ 0xFFFFFFFF
  | .getShards version indices =>
    validateVersion version = .ok () ∧ indices ≠ [] ∧ indices.length ≤ maxBatchShards ∧
      indices.Nodup ∧ ∀ index ∈ indices, index ≤ 0xFFFFFFFF
  | .waitVersion version => validateVersion version = .ok ()

/-- A request the client makes is encoded and reaches the server. -/
theorem Accepted.sent {request : Request} (h : request.Accepted) :
    ∃ raw, request.encode = .ok raw ∧ ReadAsControl raw := by
  cases request with
  | getVersion version =>
    obtain ⟨raw, hraw, hdelivers⟩ := delivers_getVersion h
    exact ⟨raw, hraw, hdelivers.readAsControl⟩
  | getShard version index =>
    obtain ⟨raw, hraw, hdelivers⟩ := delivers_getShard h.1 h.2
      (fitsControl_shardRequest (fits_of_validateVersion h.1) h.2)
    exact ⟨raw, hraw, hdelivers.readAsControl⟩
  | getShards version indices =>
    obtain ⟨hversion, hne, hcount, hnodup, hindices⟩ := h
    obtain ⟨raw, hraw, hdelivers⟩ := delivers_getShards hversion hne hcount hnodup hindices
      (fitsControl_batchRequest (fits_of_validateVersion hversion) hcount hindices)
    exact ⟨raw, hraw, hdelivers.readAsControl⟩
  | waitVersion version =>
    obtain ⟨payload, hpayload⟩ := fitsVersionName_eq_ok (fits_of_validateVersion h)
    have hle : payload.length ≤ maxVersionNameSize := (encodeText_eq_ok.mp hpayload).2.2
    have hdecode : decodeWaitVersion { messageType := .waitVersion, payload } = .ok version := by
      simp [decodeWaitVersion, requireType, decodeText_of_encodeText hpayload, bind, Except.bind]
    obtain ⟨raw, hraw, hdelivers⟩ := delivers_frame .waitVersion decodeWaitVersion payload
      (hle.trans (by decide)) (by simp [validateMessage, hdecode, Except.map]) hdecode
    exact ⟨raw, by rw [encode, encodeWaitVersion, hpayload]; exact hraw, hdelivers.readAsControl⟩

end Request

/-- Each request the client makes, and each answer it is given, is read at the
other end. -/
theorem control_frames_fit {server : Server} (hsized : server.Sized) (served : Bool)
    {request : Request} (haccepted : request.Accepted) :
    ∃ raw, request.encode = .ok raw ∧ ReadAsControl raw ∧
      ∀ reply, .obj reply ∈ handleRequest server served raw → ReadAsControl reply := by
  obtain ⟨raw, hraw, hread⟩ := haccepted.sent
  exact ⟨raw, hraw, hread, fun reply hreply => readAsControl_handleRequest hsized served hreply⟩

/-! ### A batch of a shard that is held and one that is not -/

theorem sized_three_bytes : threeBytesServer.Sized := by
  have honly (name : Str) (v : StoredVersion)
      (hv : threeBytesServer.store.versions.get? name = some v) :
      v = { metadata := threeBytesMetadata, data := some [1, 2, 3] } := by
    simp only [threeBytesServer, threeBytesStore, OrderedDict.get?_insert] at hv
    split at hv
    · exact (Option.some.inj hv).symm
    · cases hv
  constructor
  · intro version metadata hmetadata
    obtain ⟨v, hv, rfl⟩ := Option.map_eq_some_iff.mp hmetadata
    rw [honly version v hv]
    decide
  · intro version index shard checksum hshard
    cases hv : threeBytesServer.store.versions.get? version with
    | none => simp [CheckpointStore.getShardWithChecksum, CheckpointStore.getShard, hv] at hshard
    | some v =>
      obtain rfl := honly version v hv
      simp only [CheckpointStore.getShardWithChecksum, CheckpointStore.getShard, hv,
        Option.elim_some, if_true] at hshard
      split_ifs at hshard with hindex
      obtain ⟨rfl, rfl⟩ := Prod.mk.inj (Except.ok.inj hshard)
      refine ⟨?_, matchesChecksum_hexdigest _⟩
      have hbytes : ([1, 2, 3] : Bytes).length = 3 := rfl
      rw [Pieces.slice, List.length_drop, List.length_take, hbytes]
      omega

omit [Library] in
theorem control_frames_fit_three_bytes :
    let _ := asciiLibrary
    ∃ raw, (Request.getShards (str "v1") [1, 7]).encode = .ok raw ∧ ReadAsControl raw ∧
      ∀ reply, .obj reply ∈ handleRequest threeBytesServer false raw → ReadAsControl reply := by
  intro _
  have haccepted : (Request.getShards (str "v1") [1, 7]).Accepted := by
    refine ⟨?_, ?_, ?_, ?_, ?_⟩ <;> decide
  exact control_frames_fit sized_three_bytes false haccepted

end Ucxx

end

end Litecast
