import Litecast.Delivery
import Litecast.Geometry
import Litecast.StoreShape

/-! The server and the client of one request, as two programs over the same
messages: what one sends is what the other reads. -/

namespace Litecast

open Protocol JsonText

theorem hexDigit_lower (n : Nat) :
    (48 ≤ (hexDigit n).val ∧ (hexDigit n).val ≤ 57) ∨
      (97 ≤ (hexDigit n).val ∧ (hexDigit n).val ≤ 102) := by
  have hall : ∀ k : Fin 16, (48 ≤ (CodePoint.ofChar (Nat.digitChar k)).val ∧
      (CodePoint.ofChar (Nat.digitChar k)).val ≤ 57) ∨
      (97 ≤ (CodePoint.ofChar (Nat.digitChar k)).val ∧
        (CodePoint.ofChar (Nat.digitChar k)).val ≤ 102) := by decide
  exact hall ⟨n % 16, Nat.mod_lt _ (by decide)⟩

namespace Ucxx

theorem isText_of_matchesChecksum {checksum : Str} (h : matchesChecksum checksum = true) :
    IsText checksum := by
  simp only [matchesChecksum, Bool.and_eq_true, List.all_eq_true, Bool.or_eq_true,
    decide_eq_true_eq] at h
  intro c hc
  have hdigit := h.2 c hc
  simp only [CodePoint.isSurrogate, Bool.and_eq_false_iff, decide_eq_false_iff_not]
  omega

/-- A payload sent is received into memory of its size. -/
theorem recv_payload {target shard : Bytes} (hlength : target.length = shard.length)
    (inbox : List Message) :
    (if target = [] then (.ok (), target, payload shard ++ inbox)
      else recv target (payload shard ++ inbox)) = (.ok (), shard, inbox) := by
  by_cases hnil : shard = []
  · have htarget : target = [] := List.length_eq_zero_iff.mp (by rw [hlength, hnil]; rfl)
    rw [if_pos htarget, payload, if_pos hnil, hnil, htarget, List.nil_append]
  · have htarget : target ≠ [] := by
      intro h
      exact hnil (List.length_eq_zero_iff.mp (by rw [← hlength, h]; rfl))
    rw [if_neg htarget, payload, if_neg hnil, List.singleton_append, recv, if_pos hlength.symm]

/-- Metadata both sides accept. -/
structure Acceptable (metadata : VersionMetadata) (version : Str) (maximum : Nat) : Prop where
  name : metadata.name = version
  totalSize : metadata.totalSize ≤ maximum
  shardSize_pos : 0 < metadata.shardSize
  shardSize : metadata.shardSize ≤ maxShardSize
  shardCount : metadata.shardCount ≤ maxShardCount
  counted : metadata.shardCount = shardCountOf metadata.totalSize metadata.shardSize
  checksum : matchesChecksum metadata.checksum = true

theorem plainInt_sorted (value : Json) (label : Str) (minimum maximum : Nat) :
    plainInt value.sorted label minimum maximum = plainInt value label minimum maximum := by
  rw [plainInt, plainInt, Json.plainInt?_sorted]

theorem validateMetadata_sorted (value : Json) (version : Str) (maximum : Nat) :
    validateMetadata value.sorted version maximum = validateMetadata value version maximum := by
  simp only [validateMetadata, Json.hasExactly_sorted,
    Json.field_sorted _ _ _ Json.sorted_null, Json.string?_sorted, plainInt_sorted]

theorem plainInt_int {n minimum maximum : Nat} (label : Str) (hlo : minimum ≤ n)
    (hhi : n ≤ maximum) : plainInt (.int n) label minimum maximum = .ok n := by
  have hrange : (minimum : Int) ≤ n ∧ (n : Int) ≤ maximum := by omega
  simp only [plainInt, Json.plainInt?, if_pos hrange, Int.toNat_natCast]

theorem validateMetadata_message {metadata : VersionMetadata} {version : Str} {maximum : Nat}
    (h : Acceptable metadata version maximum) :
    validateMetadata (.obj (metadataMessage metadata)) version maximum = .ok metadata := by
  have hexactly : (Json.obj (metadataMessage metadata)).hasExactly [str "status", str "name",
      str "total_size", str "shard_size", str "shard_count", str "checksum"] = true := by
    simp [metadataMessage, Json.hasExactly, Json.isObject, Json.keys]
  have hname : (Json.obj (metadataMessage metadata)).get? (str "name") =
      some (.str metadata.name) := rfl
  have htotal : (Json.obj (metadataMessage metadata)).get? (str "total_size") =
      some (.int metadata.totalSize) := rfl
  have hsize : (Json.obj (metadataMessage metadata)).get? (str "shard_size") =
      some (.int metadata.shardSize) := rfl
  have hcount : (Json.obj (metadataMessage metadata)).get? (str "shard_count") =
      some (.int metadata.shardCount) := rfl
  have hchecksum : (Json.obj (metadataMessage metadata)).get? (str "checksum") =
      some (.str metadata.checksum) := rfl
  have hstatus : (Json.obj (metadataMessage metadata)).get? (str "status") =
      some (.str (str "ok")) := rfl
  obtain ⟨rfl, htotal', hpos, hsize', hcount', hcounted, hmatches⟩ := h
  simp only [validateMetadata, hexactly, hname, htotal, hsize, hcount, hchecksum, hstatus,
    Option.getD_some, Json.string?, plainInt_int _ (Nat.zero_le _) htotal',
    plainInt_int _ hpos hsize', plainInt_int _ (Nat.zero_le _) hcount', bind, Except.bind,
    ← hcounted, hmatches]
  simp

/-- Every chunk is received into the slice it was cut from. -/
theorem receiveChunks_pieces {metadata : VersionMetadata} {data : Bytes}
    (hlength : metadata.totalSize = data.length) (hsize : 0 < metadata.shardSize)
    (indices : List Nat) (hindices : ∀ index ∈ indices, index < data.length ⌈/⌉ metadata.shardSize)
    (buffer : Bytes) (hbuffer : buffer.length = data.length) (inbox : List Message) :
    receiveChunks metadata indices buffer
        (indices.map (fun index => Message.buffer (Pieces.piece metadata.shardSize data index)) ++
          inbox) =
      (.ok (), Pieces.writeAll metadata.shardSize data indices buffer, inbox) := by
  induction indices generalizing buffer with
  | nil => rfl
  | cons index rest ih =>
    have hspan : chunkSpan metadata index = Pieces.span metadata.shardSize data.length index := by
      rw [chunkSpan_eq_span, hlength]
    have hbound : (Pieces.span metadata.shardSize data.length index).2 ≤ data.length :=
      Nat.min_le_right _ _
    have hnonempty := Pieces.span_nonempty hsize (hindices index (by simp))
    have hslice : (Pieces.slice buffer (Pieces.span metadata.shardSize data.length index).1
        (Pieces.span metadata.shardSize data.length index).2).length =
        (Pieces.piece metadata.shardSize data index).length := by
      rw [Pieces.length_piece, Pieces.length_slice (by omega)]
    have hwritten : (Pieces.write buffer (Pieces.span metadata.shardSize data.length index).1
        (Pieces.piece metadata.shardSize data index)).length = data.length := by
      rw [Pieces.length_write, hbuffer]
      rw [Pieces.length_piece]
      omega
    simp only [List.map_cons, List.cons_append, receiveChunks, hspan, recv, hslice, if_true]
    exact ih (fun i hi => hindices i (by simp [hi])) _ hwritten

theorem keyOf?_int (n : Nat) : keyOf? (.int n) = some n := by
  simp [keyOf?, Json.number?]

theorem readUnavailable_missing {targets : Targets} {seen missing : List Nat}
    (hknown : ∀ index ∈ missing, index ∈ targets.keys) (hnodup : missing.Nodup)
    (hall : ∀ index ∈ targets.keys, index ∈ seen ∨ index ∈ missing)
    (hapart : ∀ index ∈ missing, index ∉ seen) :
    readUnavailable targets seen (missing.map fun index : Nat => .int index) = .ok missing := by
  have hplain : (missing.map fun index : Nat => Json.int index).mapM Json.plainInt? =
      some (missing.map Int.ofNat) := by
    rw [mapM_eq_some_map (g := Json.int) (p := fun _ => True) fun _ _ => by
      rw [Json.plainInt?_eq_some, and_true]]
    simp
  have hback : (missing.map Int.ofNat).map Int.toNat = missing := by
    rw [List.map_map]
    exact List.map_id'' (fun _ => rfl) missing
  have hinside : (missing.map Int.ofNat).any
      (fun index => index < 0 || !targets.contains index.toNat) = false := by
    rw [List.any_eq_false]
    intro value hvalue
    obtain ⟨index, hindex, rfl⟩ := List.mem_map.mp hvalue
    obtain ⟨target, htarget⟩ := OrderedDict.mem_keys_iff.mp (hknown index hindex)
    simp [OrderedDict.contains, htarget]
  have hcovered : targets.keys.any (fun index => index ∉ seen ∧ index ∉ missing) = false := by
    rw [List.any_eq_false]
    intro index hindex
    simp only [decide_eq_true_eq, not_and, not_not]
    exact (hall index hindex).resolve_left
  have hdisjoint : missing.any (· ∈ seen) = false := by
    rw [List.any_eq_false]
    intro index hindex
    simpa using hapart index hindex
  simp only [readUnavailable, hplain, hback, hinside, hcovered, hdisjoint, hnodup,
    not_true_eq_false, Bool.false_eq_true, or_self, if_false]

/-- The requested shards the store holds, in the order of the request. -/
def heldShards (store : CheckpointStore) (version : Str) (indices : List Nat) : List (Nat × Bytes) :=
  indices.filterMap fun index : Nat =>
    match store.getShard version index with
    | .ok shard => some (index, shard)
    | .error _ => none

def Holds (store : CheckpointStore) (version : Str) (index : Nat) : Bool :=
  (store.getShard version index).isOk

theorem heldShards_fst (store : CheckpointStore) (version : Str) (indices : List Nat) :
    (heldShards store version indices).map Prod.fst = indices.filter (Holds store version) := by
  induction indices with
  | nil => rfl
  | cons index rest ih =>
    cases hshard : store.getShard version index with
    | ok shard => simpa [heldShards, Holds, hshard, Except.isOk, Except.toBool] using ih
    | error e => simpa [heldShards, Holds, hshard, Except.isOk, Except.toBool] using ih

theorem mem_heldShards {store : CheckpointStore} {version : Str} {indices : List Nat}
    {item : Nat × Bytes} :
    item ∈ heldShards store version indices ↔
      item.1 ∈ indices ∧ store.getShard version item.1 = .ok item.2 := by
  simp only [heldShards, List.mem_filterMap]
  constructor
  · rintro ⟨index, hindex, hitem⟩
    split at hitem
    · next shard hshard =>
      obtain rfl := Option.some.inj hitem
      exact ⟨hindex, hshard⟩
    · cases hitem
  · rintro ⟨hindex, hshard⟩
    exact ⟨item.1, hindex, by rw [hshard]⟩

/-- The targets once every held shard is in its place. -/
def filled (store : CheckpointStore) (version : Str) (targets : Targets) : Targets :=
  (heldShards store version targets.keys).foldl (fun targets item => targets.insert item.1 item.2)
    targets

theorem get?_filled (store : CheckpointStore) (version : Str) (targets : Targets) (index : Nat) :
    (filled store version targets).get? index =
      (targets.get? index).map fun target =>
        match store.getShard version index with
        | .ok shard => shard
        | .error _ => target := by
  have hnodup : ((heldShards store version targets.keys).map Prod.fst).Nodup := by
    rw [heldShards_fst]
    exact List.Nodup.filter _ targets.nodup
  rw [filled, OrderedDict.get?_foldl_insert hnodup]
  cases htarget : targets.get? index with
  | none =>
    have habsent : OrderedDict.lookup index (heldShards store version targets.keys) = none := by
      rw [OrderedDict.lookup_eq_none_iff, heldShards_fst, List.mem_filter]
      exact fun h => OrderedDict.get?_eq_none_iff.mp htarget h.1
    rw [habsent]
    rfl
  | some target =>
    have hkey : index ∈ targets.keys := OrderedDict.mem_keys_iff.mpr ⟨target, htarget⟩
    cases hshard : store.getShard version index with
    | ok shard =>
      rw [OrderedDict.lookup_of_mem hnodup (mem_heldShards.mpr ⟨hkey, hshard⟩)]
      rfl
    | error e =>
      have habsent : OrderedDict.lookup index (heldShards store version targets.keys) = none := by
        rw [OrderedDict.lookup_eq_none_iff, heldShards_fst, List.mem_filter]
        simp [Holds, hshard, Except.isOk, Except.toBool]
      rw [habsent]
      rfl

section
variable [Library]

open CheckpointStore (Digested)

theorem matchesChecksum_hexdigest (data : Bytes) : matchesChecksum (hexdigest data) = true := by
  simp only [matchesChecksum, length_hexdigest, decide_true, Bool.true_and, List.all_eq_true,
    Bool.or_eq_true, Bool.and_eq_true, decide_eq_true_eq]
  intro c hc
  obtain ⟨x, -, hx⟩ := List.mem_flatMap.mp hc
  simp only [List.mem_cons, List.not_mem_nil, or_false] at hx
  rcases hx with rfl | rfl
  · exact hexDigit_lower _
  · exact hexDigit_lower _

/-! ## One shard -/

def shardReply (version : Str) (index : Nat) (shard : Bytes) : List (Str × Json) :=
  [(str "status", .str (str "ok")), (str "version", .str version), (str "index", .int index),
    (str "size", .int shard.length), (str "checksum", .str (hexdigest shard))]

theorem isText_hexdigest (data : Bytes) : IsText (hexdigest data) :=
  isText_of_matchesChecksum (matchesChecksum_hexdigest data)

theorem roundTrips_shardReply {version : Str} (h : IsText version) (index : Nat) (shard : Bytes) :
    RoundTrips (.obj (shardReply version index shard)) := by
  refine roundTrips_of_writable (.of_keys
    (rfl : _ = [str "status", str "version", str "index", str "size", str "checksum"]) (by decide)
    (by decide) ?_) ?_
  · simp [shardReply, Writable.str, Writable.int]
  · simp [shardReply, rejoined, rejoinedMembers, rejoin_of_isText h,
      rejoin_of_isText (isText_hexdigest shard), rejoin_of_isText (isText_str "ok")]

theorem readShardReply_shardReply {raw : Bytes} {version : Str} {index : Nat} {shard : Bytes}
    (hsize : shard.length ≤ maxShardSize)
    (hreply : Delivers raw .shardMetadata decodeShardMetadata
      (Json.obj (shardReply version index shard)).sorted) :
    readShardReply raw version index = .ok (shard.length, hexdigest shard) := by
  have hread := readReply_of_delivers hreply (by decide)
  have hexactly : (Json.obj (shardReply version index shard)).hasExactly
      [str "status", str "version", str "index", str "size", str "checksum"] = true := by
    simp [shardReply, Json.hasExactly, Json.isObject, Json.keys]
  have hstatus : (Json.obj (shardReply version index shard)).get? (str "status") =
      some (.str (str "ok")) := rfl
  have hversion : (Json.obj (shardReply version index shard)).get? (str "version") =
      some (.str version) := rfl
  have hindex : (Json.obj (shardReply version index shard)).get? (str "index") =
      some (.int index) := rfl
  have hlength : (Json.obj (shardReply version index shard)).get? (str "size") =
      some (.int shard.length) := rfl
  have hchecksum : (Json.obj (shardReply version index shard)).get? (str "checksum") =
      some (.str (hexdigest shard)) := rfl
  have hlimit : 0 ≤ (shard.length : Int) ∧ (shard.length : Int) ≤ maxShardSize ∧
      matchesChecksum (hexdigest shard) = true :=
    ⟨by omega, by omega, matchesChecksum_hexdigest shard⟩
  simp only [readShardReply, hread, bind, Except.bind, Json.hasExactly_sorted, hexactly,
    Json.get?_sorted, hstatus, hversion, hindex, hlength, hchecksum, Option.map_some,
    Option.getD_some, Json.sorted_str, Json.sorted_int, Json.string?, Json.plainInt?, Json.eqInt,
    Json.number?, hlimit]
  simp

/-- `GET_SHARD` of a shard that is held. -/
theorem exchangeShard_held {server : Server} (hshaped : server.store.AllShaped)
    (hdigested : Digested server.store) (served : Bool) {version : Str}
    (hversion : validateVersion version = .ok ()) {index : Nat} (hindex : index ≤ 0xFFFFFFFF)
    (hrequest : FitsControl (shardRequest version index)) {shard : Bytes}
    (hshard : server.store.getShard version index = .ok shard)
    (hsize : shard.length ≤ maxShardSize)
    (hreply : FitsControl (.obj (shardReply version index shard))) {target : Option Bytes}
    (htarget : ∀ memory ∈ target, memory.length = shard.length) {expected : Option Str}
    (hexpected : ∀ checksum ∈ expected, checksum = hexdigest shard) :
    exchangeShard (handleRequest server served) version index expected target =
      ⟨.ok ⟨shard, version, index, hexdigest shard⟩, target.map fun _ => shard, []⟩ := by
  obtain ⟨request, hencode, hdelivers⟩ := delivers_getShard hversion hindex hrequest
  have htrips := roundTrips_shardReply (isText_of_validateVersion hversion) index shard
  obtain ⟨reply, hencodeReply, hdeliversReply⟩ :=
    delivers_shardMetadata htrips (Json.isObject_sorted _) hreply
  have hget := CheckpointStore.getShardWithChecksum_of_ok hshaped hdigested hshard
  have hserve : ∀ frame, frame.messageType = .getShard →
      decodeGetShard frame = .ok (version, index) →
        serveRequest server frame = .ok (.obj reply :: payload shard) := by
    intro frame hkind hdecode
    rw [shardReply] at hencodeReply
    simp only [serveRequest, hkind, hdecode, hget, hencodeReply, bind, Except.bind, pure,
      Except.pure]
  have hmessages := handleRequest_of_delivers served hdelivers hserve
  have hread := readShardReply_shardReply hsize hdeliversReply
  have hfits : target.any (fun memory => memory.length ≠ shard.length) = false := by
    cases target with
    | none => rfl
    | some memory => simpa using htarget memory rfl
  have hdata : (target.getD (List.replicate shard.length 0)).length = shard.length := by
    cases target with
    | none => simp
    | some memory => exact htarget memory rfl
  have hrecv := recv_payload hdata []
  have hagrees : expected.any (hexdigest shard ≠ ·) = false := by
    cases expected with
    | none => rfl
    | some checksum => simpa using (hexpected checksum rfl).symm
  rw [List.append_nil] at hrecv
  simp only [exchangeShard, hencode, hmessages, recvObj, hread, hfits, hrecv, hagrees,
    Bool.false_eq_true, if_false, ne_eq, not_true_eq_false, or_self]

/-- `GET_SHARD` of a shard that is not held. -/
theorem exchangeShard_missing {server : Server} (served : Bool) {version : Str}
    (hversion : validateVersion version = .ok ()) {index : Nat} (hindex : index ≤ 0xFFFFFFFF)
    (hrequest : FitsControl (shardRequest version index)) {e : Exc}
    (hshard : server.store.getShard version index = .error e) (expected : Option Str)
    (target : Option Bytes) :
    exchangeShard (handleRequest server served) version index expected target =
      ⟨.error ⟨.versionUnavailableError, str "shard not available"⟩, target, []⟩ := by
  obtain ⟨request, hencode, hdelivers⟩ := delivers_getShard hversion hindex hrequest
  obtain ⟨reply, hencodeReply, hdeliversReply⟩ :=
    delivers_error "shard not available" rfl (by decide) (by decide)
  have hget := CheckpointStore.getShardWithChecksum_of_error hshard
  have hserve : ∀ frame, frame.messageType = .getShard →
      decodeGetShard frame = .ok (version, index) →
        serveRequest server frame = .ok [.obj reply] := by
    intro frame hkind hdecode
    simp only [serveRequest, hkind, hdecode, hget, hencodeReply, bind, Except.bind, pure,
      Except.pure]
  have hmessages := handleRequest_of_delivers served hdelivers hserve
  have hread := readReply_of_error hdeliversReply decodeShardMetadata
  simp only [exchangeShard, hencode, hmessages, recvObj, readShardReply, hread, bind, Except.bind]

/-! ## A complete version -/

/-- The answer to `GET_VERSION` of a version held as one buffer. -/
theorem served_whole {server : Server} (hshaped : server.store.AllShaped) (served : Bool)
    {version : Str} (hversion : validateVersion version = .ok ()) {data : Bytes}
    {metadata : VersionMetadata} (hdata : server.store.get version = some data)
    (hmetadata : server.store.getMetadata version = some metadata)
    (htotal : metadata.totalSize ≤ server.maxTotalSize) (hsize : metadata.shardSize ≤ maxShardSize)
    (hcount : metadata.shardCount ≤ maxShardCount)
    (hreply : FitsControlUnicode (.obj (metadataMessage metadata)))
    (hchecksum : matchesChecksum metadata.checksum = true) :
    ∃ request reply, encodeGetVersion version = .ok request ∧
      encodeMetadata (metadataMessage metadata) = .ok reply ∧
      Delivers reply .metadata decodeMetadata (Json.obj (metadataMessage metadata)).sorted ∧
      handleRequest server served request = .obj reply :: versionChunks metadata data := by
  obtain ⟨v, hv, hdata'⟩ := Option.bind_eq_some_iff.mp hdata
  have hmeta : v.metadata = metadata := by
    simpa [CheckpointStore.getMetadata, hv] using hmetadata
  obtain ⟨hpos, -, hcounted⟩ := (hshaped _ _ hv).whole data hdata'
  have hnamed := (hshaped _ _ hv).named
  rw [hmeta] at hpos hcounted hnamed
  have hserver := validateMetadata_message
    ⟨hnamed, htotal, hpos, hsize, hcount, hcounted, hchecksum⟩
  obtain ⟨request, hencode, hdelivers⟩ := delivers_getVersion hversion
  have hname : IsText metadata.name := hnamed ▸ isText_of_validateVersion hversion
  have hdigest : IsText metadata.checksum := isText_of_matchesChecksum hchecksum
  have hwritable : Writable false (.obj (metadataMessage metadata)) := by
    refine .of_keys (rfl : _ = [str "name", str "total_size", str "shard_size", str "shard_count",
      str "checksum", str "status"]) (by decide) (by decide) ?_
    simp [metadataMessage, Writable.str, Writable.int, hname, hdigest, isText_str]
  have hsame : rejoined (.obj (metadataMessage metadata)) = .obj (metadataMessage metadata) := by
    simp [metadataMessage, rejoined, rejoinedMembers, rejoin_of_isText hname,
      rejoin_of_isText hdigest, rejoin_of_isText (isText_str "ok")]
  obtain ⟨reply, hencodeReply, hdeliversReply⟩ := delivers_metadata hwritable hreply
  rw [hwritable.rejoined_sorted, hsame] at hdeliversReply
  have hlarge : ¬ server.maxTotalSize < metadata.totalSize := by omega
  have hserve : ∀ frame, frame.messageType = .getVersion → decodeGetVersion frame = .ok version →
      serveRequest server frame = .ok (.obj reply :: versionChunks metadata data) := by
    intro frame hkind hdecode
    simp only [serveRequest, hkind, hdecode, hmetadata, hdata, hlarge, hserver, hencodeReply, bind,
      Except.bind, pure, Except.pure, if_false]
  exact ⟨request, reply, hencode, hencodeReply, hdeliversReply,
    handleRequest_of_delivers served hdelivers hserve⟩

omit [Library] in
theorem versionChunks_eq {metadata : VersionMetadata} {data : Bytes}
    (hlength : metadata.totalSize = data.length) :
    versionChunks metadata data = (List.range metadata.shardCount).map fun index =>
      Message.buffer (Pieces.piece metadata.shardSize data index) := by
  rw [versionChunks]
  apply List.map_congr_left
  intro index _
  rw [chunkSpan_eq_span, hlength]
  rfl

/-- `GET_VERSION` of a version held as one buffer. -/
theorem exchangeVersion_held {server : Server} (hshaped : server.store.AllShaped)
    (hdigested : Digested server.store) (served : Bool) {version : Str}
    (hversion : validateVersion version = .ok ()) {data : Bytes} {metadata : VersionMetadata}
    (hdata : server.store.get version = some data)
    (hmetadata : server.store.getMetadata version = some metadata) {maximum : Nat}
    (htotal : metadata.totalSize ≤ min maximum server.maxTotalSize)
    (hsize : metadata.shardSize ≤ maxShardSize) (hcount : metadata.shardCount ≤ maxShardCount)
    (hreply : FitsControlUnicode (.obj (metadataMessage metadata))) :
    exchangeVersion (handleRequest server served) version maximum =
      ⟨.ok ⟨data, metadata⟩, (), []⟩ := by
  obtain ⟨v, hv, hdata'⟩ := Option.bind_eq_some_iff.mp hdata
  have hmeta : v.metadata = metadata := by
    simpa [CheckpointStore.getMetadata, hv] using hmetadata
  obtain ⟨hpos, hlength, hcounted⟩ := (hshaped _ _ hv).whole data hdata'
  have hnamed := (hshaped _ _ hv).named
  have hchecksum := hdigested.version _ _ _ hv hdata'
  rw [hmeta] at hpos hlength hcounted hnamed hchecksum
  have hmatches : matchesChecksum metadata.checksum = true :=
    hchecksum ▸ matchesChecksum_hexdigest data
  have hclient : validateMetadata (.obj (metadataMessage metadata)) version maximum = .ok metadata :=
    validateMetadata_message ⟨hnamed, by omega, hpos, hsize, hcount, hcounted, hmatches⟩
  obtain ⟨request, reply, hencode, -, hdeliversReply, hmessages⟩ := served_whole hshaped served
    hversion hdata hmetadata (by omega) hsize hcount hreply hmatches
  have hread := readReply_of_delivers hdeliversReply (by decide)
  rw [shardCountOf_eq_ceilDiv, hlength] at hcounted
  have hindices : ∀ index ∈ List.range metadata.shardCount,
      index < data.length ⌈/⌉ metadata.shardSize := by
    intro index hindex
    exact hcounted ▸ List.mem_range.mp hindex
  have hreceived := receiveChunks_pieces hlength hpos _ hindices
    (List.replicate metadata.totalSize 0) (by rw [List.length_replicate, hlength]) []
  rw [List.append_nil, ← versionChunks_eq hlength, Pieces.writeAll_eq hpos hindices
    (fun index hindex => List.mem_range.mpr (hcounted ▸ hindex))
    (by rw [List.length_replicate, hlength])] at hreceived
  simp only [exchangeVersion, hencode, hmessages, recvObj, hread, bind, Except.bind,
    validateMetadata_sorted, hclient, hreceived, hchecksum, ne_eq, not_true_eq_false, if_false]

/-! ## A batch of shards -/

def batchReply (version : Str) (held : List (Nat × Bytes)) (unavailable : List Nat) :
    List (Str × Json) :=
  [(str "version", .str version),
    (str "shards", .arr (held.map fun item => shardEntry item.1 item.2 (hexdigest item.2))),
    (str "unavailable", .arr (unavailable.map fun index : Nat => .int index))]

theorem roundTrips_batchReply {version : Str} (h : IsText version) (held : List (Nat × Bytes))
    (unavailable : List Nat) : RoundTrips (.obj (batchReply version held unavailable)) := by
  have hentry (item : Nat × Bytes) : Writable true (shardEntry item.1 item.2 (hexdigest item.2)) ∧
      rejoined (shardEntry item.1 item.2 (hexdigest item.2)) =
        shardEntry item.1 item.2 (hexdigest item.2) := by
    constructor
    · refine .of_keys (rfl : _ = [str "index", str "size", str "checksum"]) (by decide) (by decide) ?_
      simp [Writable.str, Writable.int]
    · simp [shardEntry, rejoined, rejoinedMembers, rejoin_of_isText (isText_hexdigest item.2)]
  have hentries : Writable true
      (.arr (held.map fun item => shardEntry item.1 item.2 (hexdigest item.2))) := by
    refine .arr fun j hj => ?_
    obtain ⟨item, -, rfl⟩ := List.mem_map.mp hj
    exact (hentry item).1
  have hsame : rejoined (.arr (held.map fun item => shardEntry item.1 item.2 (hexdigest item.2))) =
      .arr (held.map fun item => shardEntry item.1 item.2 (hexdigest item.2)) := by
    rw [rejoined, rejoinedItems_eq_map, List.map_map]
    exact congrArg Json.arr (List.map_congr_left fun item _ => (hentry item).2)
  refine roundTrips_of_writable (.of_keys
    (rfl : _ = [str "version", str "shards", str "unavailable"]) (by decide) (by decide) ?_) ?_
  · simp [batchReply, Writable.str, hentries, writable_indices]
  · simp only [batchReply, rejoined.eq_3, rejoinedMembers, rejoined_indices, hsame, rejoined.eq_1,
      rejoin_of_isText h]

theorem readShardEntry_entry {targets : Targets} {seen : List Nat} {index : Nat}
    {target shard : Bytes} (htarget : targets.get? index = some target)
    (hlength : target.length = shard.length) (hseen : index ∉ seen) :
    readShardEntry targets seen (shardEntry index shard (hexdigest shard)).sorted =
      .ok (index, hexdigest shard) := by
  have hexactly : (shardEntry index shard (hexdigest shard)).hasExactly
      [str "index", str "size", str "checksum"] = true := by
    simp [shardEntry, Json.hasExactly, Json.isObject, Json.keys]
  have hindex : (shardEntry index shard (hexdigest shard)).get? (str "index") =
      some (.int index) := rfl
  have hsize : (shardEntry index shard (hexdigest shard)).get? (str "size") =
      some (.int shard.length) := rfl
  have hchecksum : (shardEntry index shard (hexdigest shard)).get? (str "checksum") =
      some (.str (hexdigest shard)) := rfl
  simp only [readShardEntry, Json.hasExactly_sorted, hexactly, Json.get?_sorted, hindex, hsize,
    hchecksum, Option.map_some, Option.getD_some, Json.sorted_int, Json.sorted_str, Json.hashable,
    keyOf?_int, htarget, Json.string?, hseen, Json.eqInt, Json.number?, hlength,
    matchesChecksum_hexdigest]
  simp

theorem readShardEntries_entries {targets : Targets} {held : List (Nat × Bytes)} (seen : List Nat)
    (htargets : ∀ item ∈ held, ∃ target, targets.get? item.1 = some target ∧
      target.length = item.2.length)
    (hnodup : (held.map Prod.fst).Nodup) (hseen : ∀ item ∈ held, item.1 ∉ seen) :
    readShardEntries targets seen
        (held.map fun item => (shardEntry item.1 item.2 (hexdigest item.2)).sorted) =
      .ok (held.map fun item => (item.1, hexdigest item.2)) := by
  induction held generalizing seen with
  | nil => rfl
  | cons item rest ih =>
    obtain ⟨index, shard⟩ := item
    obtain ⟨target, htarget, hlength⟩ := htargets (index, shard) (by simp)
    simp only [List.map_cons, List.nodup_cons] at hnodup
    have hfirst := readShardEntry_entry htarget hlength (hseen (index, shard) (by simp))
    have hrest := ih (index :: seen) (fun item hitem => htargets item (by simp [hitem]))
      hnodup.2 (by
        intro item hitem
        rw [List.mem_cons, not_or]
        constructor
        · intro heq
          exact hnodup.1 (List.mem_map.mpr ⟨item, hitem, heq⟩)
        · exact hseen item (by simp [hitem]))
    simp only [List.map_cons, readShardEntries, hfirst, hrest, bind, Except.bind, pure, Except.pure]

theorem readBatchReply_batchReply {raw : Bytes} {version : Str} {targets : Targets}
    {held : List (Nat × Bytes)} {missing : List Nat}
    (hreply : Delivers raw .shardsMetadata decodeShardsMetadata
      (Json.obj (batchReply version held missing)).sorted)
    (hfits : ∀ item ∈ held, ∃ target, targets.get? item.1 = some target ∧
      target.length = item.2.length)
    (hnodup : (held.map Prod.fst).Nodup)
    (hmissing : readUnavailable targets (held.map Prod.fst)
      (missing.map fun index : Nat => .int index) = .ok missing) :
    readBatchReply raw version targets =
      .ok (held.map fun item => (item.1, hexdigest item.2), missing) := by
  have hread := readReply_of_delivers hreply (by decide)
  have hentries := readShardEntries_entries [] hfits hnodup (by simp)
  have hexactly : (Json.obj (batchReply version held missing)).hasExactly
      [str "version", str "shards", str "unavailable"] = true := by
    simp [batchReply, Json.hasExactly, Json.isObject, Json.keys]
  have hversion : (Json.obj (batchReply version held missing)).get? (str "version") =
      some (.str version) := rfl
  have hshards : ((Json.obj (batchReply version held missing)).get? (str "shards")).map Json.sorted =
      some (.arr (held.map fun item => (shardEntry item.1 item.2 (hexdigest item.2)).sorted)) := by
    have hget : (Json.obj (batchReply version held missing)).get? (str "shards") =
      some (.arr (held.map fun item => shardEntry item.1 item.2 (hexdigest item.2))) := rfl
    simp [hget, Json.sorted, Json.sortedItems_eq_map]
  have hunavailable : ((Json.obj (batchReply version held missing)).get? (str "unavailable")).map
      Json.sorted = some (.arr (missing.map fun index : Nat => .int index)) := by
    have hget : (Json.obj (batchReply version held missing)).get? (str "unavailable") =
      some (.arr (missing.map fun index : Nat => .int index)) := rfl
    simp [hget, Json.sorted, Json.sortedItems_eq_map]
  have hfst : (held.map fun item => (item.1, hexdigest item.2)).map Prod.fst =
      held.map Prod.fst := by
    rw [List.map_map]
    rfl
  simp only [readBatchReply, hread, bind, Except.bind, Json.hasExactly_sorted, hexactly,
    Json.get?_sorted, hversion, hshards, hunavailable, Option.map_some, Option.getD_some,
    Json.sorted_str, Json.string?, hentries, hfst, hmissing, pure, Except.pure]
  simp

/-- Every announced shard is received into its target. -/
theorem receiveShards_held {expected : Nat → Str} {held : List (Nat × Bytes)} (targets : Targets)
    (htargets : ∀ item ∈ held, ∃ target, targets.get? item.1 = some target ∧
      target.length = item.2.length)
    (hnodup : (held.map Prod.fst).Nodup)
    (hexpected : ∀ item ∈ held, expected item.1 = hexdigest item.2) (inbox : List Message) :
    receiveShards expected (held.map fun item => (item.1, hexdigest item.2)) targets
        (held.flatMap (fun item => payload item.2) ++ inbox) =
      ⟨.ok (held.map Prod.fst), held.foldl (fun targets item => targets.insert item.1 item.2) targets,
        inbox⟩ := by
  induction held generalizing targets with
  | nil => rfl
  | cons item rest ih =>
    obtain ⟨index, shard⟩ := item
    obtain ⟨target, htarget, hlength⟩ := htargets (index, shard) (by simp)
    simp only [List.map_cons, List.nodup_cons] at hnodup
    have hrecv := recv_payload hlength (rest.flatMap (fun item => payload item.2) ++ inbox)
    have hagrees := hexpected (index, shard) (by simp)
    have hrest := ih (targets.insert index shard) (by
        intro item hitem
        obtain ⟨target, htarget, hlength⟩ := htargets item (by simp [hitem])
        refine ⟨target, ?_, hlength⟩
        rw [OrderedDict.get?_insert, if_neg, htarget]
        intro heq
        exact hnodup.1 (List.mem_map.mpr ⟨item, hitem, heq⟩))
      hnodup.2 (fun item hitem => hexpected item (by simp [hitem]))
    simp only [List.map_cons, List.flatMap_cons, List.append_assoc, receiveShards, htarget,
      Option.getD_some, hrecv, hagrees, ne_eq, not_true_eq_false, or_self, if_false, hrest,
      Except.map, List.foldl_cons]

/-! ### What the server announces -/

theorem availableShards_eq {store : CheckpointStore} (hshaped : store.AllShaped)
    (hdigested : Digested store) (version : Str) (indices : List Nat) :
    availableShards store version indices =
      (heldShards store version indices).map fun item => (item.1, item.2, hexdigest item.2) := by
  rw [availableShards, heldShards, List.map_filterMap]
  apply List.filterMap_congr
  intro index _
  cases hshard : store.getShard version index with
  | ok shard => simp [CheckpointStore.getShardWithChecksum_of_ok hshaped hdigested hshard]
  | error e => simp [CheckpointStore.getShardWithChecksum_of_error hshard]

theorem unavailableShards_eq {store : CheckpointStore} (hshaped : store.AllShaped)
    (hdigested : Digested store) (version : Str) (indices : List Nat) :
    unavailableShards store version indices =
      indices.filter fun index => !Holds store version index := by
  apply List.filter_congr
  intro index _
  cases hshard : store.getShard version index with
  | ok shard =>
    simp [Holds, hshard, CheckpointStore.getShardWithChecksum_of_ok hshaped hdigested hshard,
      Except.isOk, Except.toBool]
  | error e =>
    simp [Holds, hshard, CheckpointStore.getShardWithChecksum_of_error hshard, Except.isOk,
      Except.toBool]

/-- `GET_SHARDS`: held shards land in their targets, the others are reported. -/
theorem exchangeShards_exact {server : Server} (hshaped : server.store.AllShaped)
    (hdigested : Digested server.store) (served : Bool) {version : Str}
    (hversion : validateVersion version = .ok ()) {targets : Targets} (hne : targets.keys ≠ [])
    (hcount : targets.keys.length ≤ maxBatchShards)
    (hindices : ∀ index ∈ targets.keys, index ≤ 0xFFFFFFFF)
    (hrequest : FitsControl (batchRequest version targets.keys))
    (htargets : ∀ index target shard, targets.get? index = some target →
      server.store.getShard version index = .ok shard → target.length = shard.length)
    {expected : Nat → Str}
    (hexpected : ∀ index ∈ targets.keys, ∀ shard,
      server.store.getShard version index = .ok shard → expected index = hexdigest shard)
    (hreply : FitsControl (.obj (batchReply version (heldShards server.store version targets.keys)
      (targets.keys.filter fun index => !Holds server.store version index)))) :
    exchangeShards (handleRequest server served) version targets expected =
      ⟨.ok ⟨targets.keys.filter (Holds server.store version),
        targets.keys.filter fun index => !Holds server.store version index⟩,
        filled server.store version targets, []⟩ := by
  set held := heldShards server.store version targets.keys with hheld
  set missing := targets.keys.filter fun index => !Holds server.store version index with hmissing
  have hnodup : (held.map Prod.fst).Nodup := by
    rw [hheld, heldShards_fst]
    exact List.Nodup.filter _ targets.nodup
  have hfits : ∀ item ∈ held, ∃ target, targets.get? item.1 = some target ∧
      target.length = item.2.length := by
    intro item hitem
    obtain ⟨hkey, hshard⟩ := mem_heldShards.mp hitem
    obtain ⟨target, htarget⟩ := OrderedDict.mem_keys_iff.mp hkey
    exact ⟨target, htarget, htargets _ _ _ htarget hshard⟩
  obtain ⟨request, hencode, hdelivers⟩ :=
    delivers_getShards hversion hne hcount targets.nodup hindices hrequest
  have htrips := roundTrips_batchReply (isText_of_validateVersion hversion) held missing
  obtain ⟨reply, hencodeReply, hdeliversReply⟩ :=
    delivers_shardsMetadata htrips (Json.isObject_sorted _) hreply
  have hserve : ∀ frame, frame.messageType = .getShards →
      decodeGetShards frame = .ok (version, targets.keys) →
        serveRequest server frame = .ok (.obj reply :: held.flatMap fun item => payload item.2) := by
    intro frame hkind hdecode
    rw [batchReply] at hencodeReply
    simp only [serveRequest, hkind, hdecode, availableShards_eq hshaped hdigested,
      unavailableShards_eq hshaped hdigested, ← hheld, ← hmissing, List.map_map, Function.comp_def,
      List.flatMap_map, hencodeReply, bind, Except.bind, pure, Except.pure]
  have hmessages := handleRequest_of_delivers served hdelivers hserve
  have hunavailable : readUnavailable targets (held.map Prod.fst)
      (missing.map fun index : Nat => .int index) = .ok missing := by
    rw [hheld, heldShards_fst]
    apply readUnavailable_missing
    · intro index hindex
      exact (List.mem_filter.mp hindex).1
    · exact List.Nodup.filter _ targets.nodup
    · intro index hindex
      cases hholds : Holds server.store version index with
      | true => exact Or.inl (List.mem_filter.mpr ⟨hindex, hholds⟩)
      | false => exact Or.inr (List.mem_filter.mpr ⟨hindex, by rw [hholds]; rfl⟩)
    · intro index hindex hboth
      have hmiss := (List.mem_filter.mp hindex).2
      rw [(List.mem_filter.mp hboth).2] at hmiss
      cases hmiss
  have hread := readBatchReply_batchReply hdeliversReply hfits hnodup hunavailable
  have hreceived := receiveShards_held targets hfits hnodup (by
    intro item hitem
    obtain ⟨hkey, hshard⟩ := mem_heldShards.mp hitem
    exact hexpected item.1 hkey item.2 hshard) []
  rw [List.append_nil] at hreceived
  have hfst : held.map Prod.fst = targets.keys.filter (Holds server.store version) :=
    heldShards_fst _ _ _
  simp only [exchangeShards, hencode, hmessages, recvObj, hread, hreceived, Except.map, hfst]
  rfl

/-- **One request, one outcome.** With a store that any run of operations left
and whose checksums are digests, every message the server sends is received
where the client expects it and none is left over; a version held as one
buffer, a shard and a batch of shards arrive exactly, and what is not held is
reported unavailable. -/
theorem exchanges_exact (server : Server) (hreached : server.store.Reached)
    (hdigested : Digested server.store) (served : Bool) (version : Str)
    (hversion : validateVersion version = .ok ()) :
    (∀ (data : Bytes) (metadata : VersionMetadata) (maximum : Nat),
      server.store.get version = some data → server.store.getMetadata version = some metadata →
      metadata.totalSize ≤ min maximum server.maxTotalSize → metadata.shardSize ≤ maxShardSize →
      metadata.shardCount ≤ maxShardCount → FitsControlUnicode (.obj (metadataMessage metadata)) →
        exchangeVersion (handleRequest server served) version maximum =
          ⟨.ok ⟨data, metadata⟩, (), []⟩) ∧
    (∀ (index : Nat) (expected : Option Str) (target : Option Bytes), index ≤ 0xFFFFFFFF →
      FitsControl (shardRequest version index) →
        match server.store.getShard version index with
        | .ok shard =>
          shard.length ≤ maxShardSize → FitsControl (.obj (shardReply version index shard)) →
          (∀ memory ∈ target, memory.length = shard.length) →
          (∀ checksum ∈ expected, checksum = hexdigest shard) →
            exchangeShard (handleRequest server served) version index expected target =
              ⟨.ok ⟨shard, version, index, hexdigest shard⟩, target.map fun _ => shard, []⟩
        | .error _ =>
          exchangeShard (handleRequest server served) version index expected target =
            ⟨.error ⟨.versionUnavailableError, str "shard not available"⟩, target, []⟩) ∧
    ∀ (targets : Targets) (expected : Nat → Str), targets.keys ≠ [] →
      targets.keys.length ≤ maxBatchShards → (∀ index ∈ targets.keys, index ≤ 0xFFFFFFFF) →
      FitsControl (batchRequest version targets.keys) →
      (∀ index target shard, targets.get? index = some target →
        server.store.getShard version index = .ok shard → target.length = shard.length) →
      (∀ index ∈ targets.keys, ∀ shard,
        server.store.getShard version index = .ok shard → expected index = hexdigest shard) →
      FitsControl (.obj (batchReply version (heldShards server.store version targets.keys)
        (targets.keys.filter fun index => !Holds server.store version index))) →
        ∃ memory, exchangeShards (handleRequest server served) version targets expected =
            ⟨.ok ⟨targets.keys.filter (Holds server.store version),
              targets.keys.filter fun index => !Holds server.store version index⟩, memory, []⟩ ∧
          ∀ index, memory.get? index = (targets.get? index).map fun target =>
            match server.store.getShard version index with
            | .ok shard => shard
            | .error _ => target := by
  have hshaped := hreached.allShaped
  refine ⟨?_, ?_, ?_⟩
  · intro data metadata maximum hdata hmetadata htotal hsize hcount hreply
    exact exchangeVersion_held hshaped hdigested served hversion hdata hmetadata htotal hsize
      hcount hreply
  · intro index expected target hindex hrequest
    cases hshard : server.store.getShard version index with
    | ok shard =>
      intro hsize hreply htarget hexpected
      exact exchangeShard_held hshaped hdigested served hversion hindex hrequest hshard hsize
        hreply htarget hexpected
    | error e => exact exchangeShard_missing served hversion hindex hrequest hshard expected target
  · intro targets expected hne hcount hindices hrequest htargets hexpected hreply
    exact ⟨_, exchangeShards_exact hshaped hdigested served hversion hne hcount hindices hrequest
      htargets hexpected hreply, get?_filled server.store version targets⟩

end

/-! ### Three bytes in two shards -/

def threeBytesMetadata : VersionMetadata :=
  ⟨str "v1", 3, 2, 2, hex ([1, 2, 3] ++ List.replicate 29 0)⟩

def threeBytesStore : CheckpointStore where
  capacity := 8
  size := 3
  versions := OrderedDict.empty.insert (str "v1")
    { metadata := threeBytesMetadata, data := some [1, 2, 3] }

def threeBytesServer : Server where
  store := threeBytesStore
  maxTotalSize := 8
  announced := fun _ => false

/-- Memory for the last shard and for one past the end. -/
def twoTargets : Targets := (OrderedDict.empty.insert 1 [0]).insert 7 [9, 9]

theorem fits_three_bytes :
    letI := asciiLibrary
    FitsControlUnicode (.obj (metadataMessage threeBytesMetadata)) := by
  let _ := asciiLibrary
  have hlength : (dumpsUnicode (.obj (metadataMessage threeBytesMetadata))).all
      (·.length ≤ maxMetadataSize) = true := by decide +kernel
  intro text htext
  simpa [htext] using hlength

theorem exchanges_exact_three_bytes :
    let _ := asciiLibrary
    exchangeVersion (handleRequest threeBytesServer false) (str "v1") 8 =
        ⟨.ok ⟨[1, 2, 3], threeBytesMetadata⟩, (), []⟩ ∧
      exchangeShard (handleRequest threeBytesServer true) (str "v1") 1 none (some [0]) =
        ⟨.ok ⟨[3], str "v1", 1, hexdigest [3]⟩, some [3], []⟩ ∧
      ∃ memory, exchangeShards (handleRequest threeBytesServer true) (str "v1") twoTargets
          (fun _ => hexdigest [3]) = ⟨.ok ⟨[1], [7]⟩, memory, []⟩ ∧
        memory.get? 1 = some [3] ∧ memory.get? 7 = some [9, 9] := by
  intro _
  have hreached : threeBytesServer.store.Reached := ⟨8, [.put (str "v1") [1, 2, 3] 2 none []], rfl⟩
  have honly (name : Str) (v : StoredVersion)
      (hv : threeBytesServer.store.versions.get? name = some v) :
      v = { metadata := threeBytesMetadata, data := some [1, 2, 3] } := by
    simp only [threeBytesServer, threeBytesStore, OrderedDict.get?_insert] at hv
    split at hv
    · exact (Option.some.inj hv).symm
    · cases hv
  have hdigested : CheckpointStore.Digested threeBytesServer.store := by
    constructor
    · intro name v data hv hdata
      obtain rfl := honly name v hv
      obtain rfl := Option.some.inj hdata
      rfl
    · intro name v index shard checksum hv _ hchecksum
      obtain rfl := honly name v hv
      cases hchecksum
  obtain ⟨hversion, -, -⟩ :=
    exchanges_exact threeBytesServer hreached hdigested false (str "v1") (by decide)
  obtain ⟨-, hshard, hbatch⟩ :=
    exchanges_exact threeBytesServer hreached hdigested true (str "v1") (by decide)
  have hrequest : FitsControl (shardRequest (str "v1") 1) := by unfold FitsControl; decide +kernel
  have hreply : FitsControl (.obj (shardReply (str "v1") 1 [3])) := by
    unfold FitsControl
    decide +kernel
  have hbatchRequest : FitsControl (batchRequest (str "v1") twoTargets.keys) := by
    unfold FitsControl
    decide +kernel
  have hbatchReply : FitsControl (.obj (batchReply (str "v1") [(1, [3])] [7])) := by
    unfold FitsControl
    decide +kernel
  have hheld (index : Nat) (hindex : index ∈ twoTargets.keys) (shard : Bytes)
      (hget : threeBytesServer.store.getShard (str "v1") index = .ok shard) :
      index = 1 ∧ shard = [3] := by
    have hkeys : twoTargets.keys = [1, 7] := rfl
    have hcases : index = 1 ∨ index = 7 := by simpa [hkeys] using hindex
    rcases hcases with rfl | rfl
    · exact ⟨rfl, (Except.ok.inj hget).symm⟩
    · cases hget
  have hfits (index : Nat) (target shard : Bytes) (htarget : twoTargets.get? index = some target)
      (hget : threeBytesServer.store.getShard (str "v1") index = .ok shard) :
      target.length = shard.length := by
    obtain ⟨rfl, rfl⟩ := hheld index (OrderedDict.mem_keys_iff.mpr ⟨target, htarget⟩) shard hget
    obtain rfl := Option.some.inj htarget
    rfl
  refine ⟨hversion [1, 2, 3] threeBytesMetadata 8 rfl rfl (by decide) (by decide) (by decide)
    fits_three_bytes, ?_, ?_⟩
  · refine hshard 1 none (some [0]) (by decide) hrequest (by decide) hreply ?_ ?_
    · intro memory hmemory
      obtain rfl := Option.some.inj hmemory
      rfl
    · intro checksum hchecksum
      cases hchecksum
  · obtain ⟨memory, hexchange, hmemory⟩ := hbatch twoTargets (fun _ => hexdigest [3]) (by decide)
      (by decide) (by decide) hbatchRequest hfits
      (fun index hindex shard hget => (hheld index hindex shard hget).2 ▸ rfl) hbatchReply
    exact ⟨memory, hexchange, hmemory 1, hmemory 7⟩

end Ucxx

end Litecast
