import Litecast.FrameStream
import Litecast.JsonRoundTrip
import Litecast.Ucxx

/-! A control message is read at the other end as it was written. -/

namespace Litecast

open Protocol JsonText

/-! ## Text -/

theorem encodeUtf8_str (s : String) :
    encodeUtf8 (str s) = some (s.toList.flatMap String.utf8EncodeChar) := by
  rw [encodeUtf8, str, mapM_toChar.mpr rfl, Option.map_some]

theorem encodeUtf8_eq_nil {s : Str} (h : encodeUtf8 s = some []) : s = [] := by
  have hempty : decodeUtf8 [] = some [] := decodeUtf8_eq_some_iff.mpr rfl
  have hs := decodeUtf8_eq_some_iff.mpr h
  exact Option.some.inj (hs.symm.trans hempty)

/-- Text that can be sent, with its encoding. -/
theorem encodeText_eq_ok {value label : Str} {maximum : Nat} {payload : Bytes} :
    encodeText value label maximum = .ok payload ↔
      encodeUtf8 value = some payload ∧ payload ≠ [] ∧ payload.length ≤ maximum := by
  rw [encodeText, encodeText?]
  cases encodeUtf8 value with
  | none => simp [bind, Except.bind]
  | some encoded =>
    simp only [bind, Except.bind, Option.some.injEq]
    split_ifs with hempty hlarge
    · rw [iff_false_left (by simp)]
      rintro ⟨rfl, hne, -⟩
      exact hne hempty
    · rw [iff_false_left (by simp)]
      rintro ⟨rfl, -, hle⟩
      omega
    · simp only [Except.ok.injEq]
      constructor
      · rintro rfl
        exact ⟨rfl, hempty, Nat.le_of_not_lt hlarge⟩
      · exact And.left

theorem decodeText_of_encodeText {value label : Str} {maximum : Nat} {payload : Bytes}
    (h : encodeText value label maximum = .ok payload) :
    decodeText payload label maximum = .ok value := by
  obtain ⟨hencode, hne, hle⟩ := encodeText_eq_ok.mp h
  rw [decodeText, if_neg hne, if_neg (Nat.not_lt.mpr hle), decodeUtf8_eq_some_iff.mpr hencode]

theorem fitsVersionName_eq_ok {version : Str} (h : fitsVersionName version = .ok true) :
    ∃ payload, encodeText version (str "version") maxVersionNameSize = .ok payload := by
  unfold fitsVersionName at h
  split_ifs at h with hne
  · cases h
  obtain ⟨payload, hpayload, hle⟩ := bind_eq_ok.mp h
  have hencode : encodeUtf8 version = some payload := by
    unfold encodeText? at hpayload
    split at hpayload
    · cases hpayload
    · next hsome => rwa [← Except.ok.inj hpayload]
  refine ⟨payload, encodeText_eq_ok.mpr ⟨hencode, ?_, by simpa using hle⟩⟩
  rintro rfl
  exact hne (encodeUtf8_eq_nil hencode)

namespace Ucxx

theorem fits_of_validateVersion {version : Str} (h : validateVersion version = .ok ()) :
    fitsVersionName version = .ok true := by
  unfold validateVersion at h
  cases hfits : fitsVersionName version with
  | error e => simp [hfits] at h
  | ok fits =>
    cases fits with
    | true => rfl
    | false => simp [hfits] at h

theorem isText_of_fits {version : Str} (h : fitsVersionName version = .ok true) : IsText version := by
  obtain ⟨payload, hpayload⟩ := fitsVersionName_eq_ok h
  exact isText_of_encodeUtf8 (encodeText_eq_ok.mp hpayload).1

theorem isText_of_validateVersion {version : Str} (h : validateVersion version = .ok ()) :
    IsText version := isText_of_fits (fits_of_validateVersion h)

theorem rejoined_indices (indices : List Nat) :
    rejoined (.arr (indices.map fun index : Nat => .int index)) =
      .arr (indices.map fun index : Nat => .int index) := by
  rw [rejoined, rejoinedItems_eq_map, List.map_map]
  exact congrArg Json.arr (List.map_congr_left fun index _ => by rw [Function.comp_apply, rejoined])

/-! ## Frames -/

section
variable [Library]

/-- The frame is accepted under the control limit, is of that kind and reads
as the message. -/
def Delivers {α : Type} (raw : Bytes) (kind : MessageType) (decode : Frame → Except Exc α)
    (message : α) : Prop :=
  ∃ frame, decodeFrame raw maxMetadataSize = .ok frame ∧ frame.messageType = kind ∧
    decode frame = .ok message

theorem delivers_frame {α : Type} (kind : MessageType) (decode : Frame → Except Exc α)
    (payload : Bytes) {message : α} (hfits : payload.length ≤ maxMetadataSize)
    (hvalid : validateMessage { messageType := kind, payload } = .ok ())
    (hdecode : decode { messageType := kind, payload } = .ok message) :
    ∃ raw, encodeFrame kind payload = .ok raw ∧ Delivers raw kind decode message := by
  have hlimit : maxMetadataSize ≤ maxPayloadSize := by decide
  have hsendable : Frame.Sendable maxMetadataSize { messageType := kind, payload } :=
    ⟨Nat.zero_le _, rfl, hfits, hvalid⟩
  refine ⟨_, encodeFrame_wire hlimit hsendable, _, ?_, rfl, hdecode⟩
  rw [decodeFrame_eq_ok_iff, front_eq_item_iff]
  exact ⟨⟨hsendable.carried hlimit, hvalid⟩, (List.append_nil _).symm⟩

theorem delivers_getVersion {version : Str} (hversion : validateVersion version = .ok ()) :
    ∃ raw, encodeGetVersion version = .ok raw ∧
      Delivers raw .getVersion decodeGetVersion version := by
  obtain ⟨payload, hpayload⟩ := fitsVersionName_eq_ok (fits_of_validateVersion hversion)
  have htext := decodeText_of_encodeText hpayload
  have hle : payload.length ≤ maxVersionNameSize := (encodeText_eq_ok.mp hpayload).2.2
  have hdecode : decodeGetVersion { messageType := .getVersion, payload } = .ok version := by
    simp [decodeGetVersion, requireType, htext, bind, Except.bind]
  obtain ⟨raw, hraw, hdelivers⟩ := delivers_frame .getVersion decodeGetVersion payload
    (Nat.le_trans hle (by decide)) (by simp [validateMessage, htext, Except.map]) hdecode
  refine ⟨raw, ?_, hdelivers⟩
  rw [encodeGetVersion, hpayload]
  exact hraw

theorem delivers_error (message : String) {payload : Bytes}
    (hpayload : message.toList.flatMap String.utf8EncodeChar = payload) (hne : payload ≠ [])
    (hfits : payload.length ≤ maxMetadataSize) :
    ∃ raw, encodeError (str message) = .ok raw ∧ Delivers raw .error decodeError (str message) := by
  have hencode : encodeText (str message) (str "error") maxTextSize = .ok payload :=
    encodeText_eq_ok.mpr ⟨by rw [encodeUtf8_str, hpayload], hne, Nat.le_trans hfits (by decide)⟩
  have htext := decodeText_of_encodeText hencode
  have hdecode : decodeError { messageType := .error, payload } = .ok (str message) := by
    simp [decodeError, requireType, htext, bind, Except.bind]
  obtain ⟨raw, hraw, hdelivers⟩ := delivers_frame .error decodeError payload hfits
    (by simp [validateMessage, htext, Except.map]) hdecode
  refine ⟨raw, ?_, hdelivers⟩
  rw [encodeError, hencode]
  exact hraw

/-! ## Messages in JSON -/

/-- The text of a value fits a control frame. -/
def FitsControl (value : Json) : Prop := (dumps value).length ≤ maxMetadataSize

/-- The same for the text `encode_metadata` writes. -/
def FitsControlUnicode (value : Json) : Prop :=
  ∀ text, dumpsUnicode value = some text → text.length ≤ maxMetadataSize

def shardRequest (version : Str) (index : Nat) : Json :=
  .obj [(str "version", .str version), (str "index", .int index)]

def batchRequest (version : Str) (indices : List Nat) : Json :=
  .obj [(str "version", .str version), (str "indices", .arr (indices.map fun index : Nat => .int index))]

theorem writable_indices (ascii : Bool) (indices : List Nat) :
    Writable ascii (.arr (indices.map fun index : Nat => .int index)) := by
  refine .arr fun j hj => ?_
  obtain ⟨index, -, rfl⟩ := List.mem_map.mp hj
  exact .int index

theorem roundTrips_shardRequest {version : Str} (h : IsText version) (index : Nat) :
    RoundTrips (shardRequest version index) := by
  refine roundTrips_of_writable (.of_keys (rfl : _ = [str "version", str "index"]) (by decide)
    (by decide) ?_) ?_
  · simp [Writable.str, Writable.int]
  · simp [shardRequest, rejoined, rejoinedMembers, rejoin_of_isText h]

theorem roundTrips_batchRequest {version : Str} (h : IsText version) (indices : List Nat) :
    RoundTrips (batchRequest version indices) := by
  refine roundTrips_of_writable (.of_keys (rfl : _ = [str "version", str "indices"]) (by decide)
    (by decide) ?_) ?_
  · simp [Writable.str, writable_indices]
  · simp only [batchRequest, rejoined.eq_3, rejoinedMembers, rejoined_indices, rejoined.eq_1,
      rejoin_of_isText h]

theorem encodeGetShard_eq {version : Str} {index : Nat} (hfits : fitsVersionName version = .ok true)
    (hindex : index ≤ 0xFFFFFFFF) :
    encodeGetShard version index = encodeFrame .getShard (dumps (shardRequest version index)) := by
  have huint : fitsUint32 index = true := by simp [fitsUint32]; omega
  rw [encodeGetShard, hfits]
  simp [huint, bind, Except.bind, shardRequest]

theorem decodeGetShard_dumps {version : Str} {index : Nat}
    (hfits : fitsVersionName version = .ok true) (hindex : index ≤ 0xFFFFFFFF) :
    decodeGetShard { messageType := .getShard, payload := dumps (shardRequest version index) } =
      .ok (version, index) := by
  have huint : fitsUint32 index = true := by simp [fitsUint32]; omega
  have hloads : loads (dumps (shardRequest version index)) =
      some (shardRequest version index).sorted := roundTrips_shardRequest (isText_of_fits hfits) index
  have hexactly : (shardRequest version index).hasExactly [str "version", str "index"] = true := by
    simp [shardRequest, Json.hasExactly, Json.isObject, Json.keys]
  have hname : (shardRequest version index).get? (str "version") = some (.str version) := rfl
  have hitem : (shardRequest version index).get? (str "index") = some (.int index) := rfl
  simp [decodeGetShard, requireType, hloads, Json.hasExactly_sorted, hexactly, Json.get?_sorted,
    hname, hitem, hfits, huint, Json.string?, Json.plainInt?, bind, Except.bind]

theorem delivers_getShard {version : Str} {index : Nat}
    (hversion : validateVersion version = .ok ()) (hindex : index ≤ 0xFFFFFFFF)
    (hfitsControl : FitsControl (shardRequest version index)) :
    ∃ raw, encodeGetShard version index = .ok raw ∧
      Delivers raw .getShard decodeGetShard (version, index) := by
  have hfits := fits_of_validateVersion hversion
  have hdecode := decodeGetShard_dumps hfits hindex
  rw [encodeGetShard_eq hfits hindex]
  exact delivers_frame .getShard decodeGetShard _ hfitsControl
    (by simp [validateMessage, hdecode, Except.map]) hdecode

/-- A batch both sides accept. -/
structure GoodBatch (version : Str) (indices : List Nat) : Prop where
  name : fitsVersionName version = .ok true
  ne_nil : indices ≠ []
  length_le : indices.length ≤ maxBatchShards
  nodup : indices.Nodup
  uint32 : ∀ index ∈ indices, index ≤ 0xFFFFFFFF

omit [Library] in
theorem GoodBatch.fitsUint32 {version : Str} {indices : List Nat} (h : GoodBatch version indices) :
    ∀ index ∈ indices.map Int.ofNat, Litecast.fitsUint32 index = true := by
  intro value hvalue
  obtain ⟨index, hindex, rfl⟩ := List.mem_map.mp hvalue
  have := h.uint32 index hindex
  simp [Litecast.fitsUint32]
  omega

theorem encodeGetShards_eq {version : Str} {indices : List Nat} (h : GoodBatch version indices) :
    encodeGetShards version (indices.map Int.ofNat) =
      encodeFrame .getShards (dumps (batchRequest version indices)) := by
  have hlarge : ¬ maxBatchShards < indices.length := Nat.not_lt.mpr h.length_le
  have hnodup : (indices.map Int.ofNat).Nodup := h.nodup.map Int.ofNat_injective
  have hany : (indices.map Int.ofNat).any (fun index => !Litecast.fitsUint32 index) = false := by
    rw [List.any_eq_false]
    intro index hindex
    simp [h.fitsUint32 index hindex]
  have hdoc : (indices.map Int.ofNat).map Json.int = indices.map fun index : Nat => .int index := by
    simp
  rw [encodeGetShards, h.name]
  simp only [bind, Except.bind, Bool.true_eq_false, if_false, List.map_eq_nil_iff, h.ne_nil,
    List.length_map, hlarge, hnodup, not_true_eq_false, hany, Bool.false_eq_true, or_self, hdoc,
    batchRequest]

theorem decodeGetShards_dumps {version : Str} {indices : List Nat} (h : GoodBatch version indices) :
    decodeGetShards { messageType := .getShards, payload := dumps (batchRequest version indices) } =
      .ok (version, indices) := by
  have hloads : loads (dumps (batchRequest version indices)) =
      some (batchRequest version indices).sorted :=
    roundTrips_batchRequest (isText_of_fits h.name) indices
  have hexactly : (batchRequest version indices).hasExactly [str "version", str "indices"] = true := by
    simp [batchRequest, Json.hasExactly, Json.isObject, Json.keys]
  have hname : (batchRequest version indices).get? (str "version") = some (.str version) := rfl
  have hitems : (batchRequest version indices).get? (str "indices") =
      some (.arr (indices.map fun index : Nat => .int index)) := rfl
  have hsorted : (Json.arr (indices.map fun index : Nat => .int index)).sorted =
      .arr (indices.map fun index : Nat => .int index) := by
    simp [Json.sorted, Json.sortedItems_eq_map]
  have hplain : (indices.map fun index : Nat => Json.int index).mapM Json.plainInt? =
      some (indices.map Int.ofNat) := by
    rw [mapM_eq_some_map (g := Json.int) (p := fun _ => True) fun _ _ => by
      rw [Json.plainInt?_eq_some, and_true]]
    simp
  have hnodup : (indices.map Int.ofNat).Nodup := h.nodup.map Int.ofNat_injective
  have hhashable : (indices.map fun index : Nat => Json.int index).any (fun j => !j.hashable) = false := by
    simp [Json.hashable]
  have hlarge : ¬ maxBatchShards < indices.length := Nat.not_lt.mpr h.length_le
  have hback : (indices.map Int.ofNat).map Int.toNat = indices := by
    rw [List.map_map]
    exact List.map_id'' (fun _ => rfl) indices
  simp only [decodeGetShards, requireType, hloads, Json.hasExactly_sorted, hexactly,
    Json.get?_sorted, hname, hitems, Option.map_some, hsorted, Option.bind_some, h.name,
    Json.sorted_str, Json.string?, bind, Except.bind, if_true, Bool.true_eq_false, if_false,
    List.map_eq_nil_iff, h.ne_nil, List.length_map, hlarge, or_self, hhashable, Bool.false_eq_true,
    hplain, hnodup, List.all_eq_true.mpr h.fitsUint32, and_self, hback]

theorem delivers_getShards {version : Str} {indices : List Nat}
    (hversion : validateVersion version = .ok ()) (hne : indices ≠ [])
    (hlength : indices.length ≤ maxBatchShards) (hnodup : indices.Nodup)
    (hindices : ∀ index ∈ indices, index ≤ 0xFFFFFFFF)
    (hfitsControl : FitsControl (batchRequest version indices)) :
    ∃ raw, encodeGetShards version (indices.map Int.ofNat) = .ok raw ∧
      Delivers raw .getShards decodeGetShards (version, indices) := by
  have hgood : GoodBatch version indices :=
    ⟨fits_of_validateVersion hversion, hne, hlength, hnodup, hindices⟩
  have hdecode := decodeGetShards_dumps hgood
  rw [encodeGetShards_eq hgood]
  exact delivers_frame .getShards decodeGetShards _ hfitsControl
    (by simp [validateMessage, hdecode, Except.map]) hdecode

/-- A reply that carries an object. -/
theorem delivers_object {kind : MessageType} {decode : Frame → Except Exc Json}
    {members : List (Str × Json)} {value : Json} (hfits : FitsControl (.obj members))
    (hdecode : decode { messageType := kind, payload := dumps (.obj members) } = .ok value)
    (hvalid : validateMessage { messageType := kind, payload := dumps (.obj members) } = .ok ()) :
    ∃ raw, encodeObject kind members = .ok raw ∧ Delivers raw kind decode value := by
  obtain ⟨raw, hraw, hdelivers⟩ := delivers_frame kind decode _ hfits hvalid hdecode
  have hsmall : ¬ maxTextSize < (dumps (.obj members)).length :=
    Nat.not_lt.mpr (Nat.le_trans hfits (by decide))
  exact ⟨raw, by simpa only [encodeObject, if_neg hsmall] using hraw, hdelivers⟩

theorem delivers_shardMetadata {members : List (Str × Json)} {value : Json}
    (hloads : loads (dumps (.obj members)) = some value) (hobject : value.isObject = true)
    (hfits : FitsControl (.obj members)) :
    ∃ raw, encodeShardMetadata members = .ok raw ∧
      Delivers raw .shardMetadata decodeShardMetadata value := by
  have hdecode : decodeShardMetadata
      { messageType := .shardMetadata, payload := dumps (.obj members) } = .ok value := by
    simp [decodeShardMetadata, requireType, decodeObject, hloads, hobject, bind, Except.bind]
  exact delivers_object hfits hdecode (by simp [validateMessage, hdecode, Except.map])

theorem delivers_shardsMetadata {members : List (Str × Json)} {value : Json}
    (hloads : loads (dumps (.obj members)) = some value) (hobject : value.isObject = true)
    (hfits : FitsControl (.obj members)) :
    ∃ raw, encodeShardsMetadata members = .ok raw ∧
      Delivers raw .shardsMetadata decodeShardsMetadata value := by
  have hdecode : decodeShardsMetadata
      { messageType := .shardsMetadata, payload := dumps (.obj members) } = .ok value := by
    simp [decodeShardsMetadata, requireType, decodeObject, hloads, hobject, bind, Except.bind]
  exact delivers_object hfits hdecode (by simp [validateMessage, hdecode, Except.map])

theorem delivers_metadata {members : List (Str × Json)} (hwritable : Writable false (.obj members))
    (hfits : FitsControlUnicode (.obj members)) :
    ∃ raw, encodeMetadata members = .ok raw ∧
      Delivers raw .metadata decodeMetadata (rejoined (Json.obj members).sorted) := by
  obtain ⟨text, htext, hloads⟩ := loads_dumpsUnicode hwritable
  have hsmall : ¬ maxTextSize < text.length :=
    Nat.not_lt.mpr (Nat.le_trans (hfits text htext) (by decide))
  have hobject : (rejoined (Json.obj members).sorted).isObject = true := by
    rw [Json.sorted, rejoined]
    rfl
  have hdecode : decodeMetadata { messageType := .metadata, payload := text } =
      .ok (rejoined (Json.obj members).sorted) := by
    simp [decodeMetadata, requireType, decodeObject, hsmall, hloads, hobject, bind, Except.bind]
  obtain ⟨raw, hraw, hdelivers⟩ := delivers_frame .metadata decodeMetadata text (hfits text htext)
    (by simp [validateMessage, hsmall, hdecode, Except.map]) hdecode
  refine ⟨raw, ?_, hdelivers⟩
  simpa only [encodeMetadata, htext, if_neg hsmall] using hraw

/-! ## Requests served, replies read -/

theorem handleRequest_of_delivers {α : Type} {server : Server} (served : Bool) {raw : Bytes}
    {kind : MessageType} {decode : Frame → Except Exc α} {message : α} {messages : List Message}
    (h : Delivers raw kind decode message)
    (hserve : ∀ frame, frame.messageType = kind → decode frame = .ok message →
      serveRequest server frame = .ok messages) :
    handleRequest server served raw = messages := by
  obtain ⟨frame, hframe, hkind, hdecode⟩ := h
  have hserved : decodeFrame raw maxMetadataSize >>= serveRequest server = .ok messages :=
    bind_eq_ok.mpr ⟨frame, hframe, hserve frame hkind hdecode⟩
  rw [handleRequest, hserved]

theorem readReply_of_delivers {raw : Bytes} {kind : MessageType}
    {decode : Frame → Except Exc Json} {value : Json} (h : Delivers raw kind decode value)
    (hkind : kind ≠ .error) : readReply raw decode = .ok value := by
  obtain ⟨frame, hframe, rfl, hdecode⟩ := h
  exact bind_eq_ok.mpr ⟨frame, hframe, by rw [if_neg hkind, hdecode]⟩

theorem readReply_of_error {raw : Bytes} {message : Str}
    (h : Delivers raw .error decodeError message) (decode : Frame → Except Exc Json) :
    readReply raw decode = .error ⟨.versionUnavailableError, message⟩ := by
  obtain ⟨frame, hframe, hkind, hdecode⟩ := h
  simp only [readReply, hframe, hkind, hdecode, bind, Except.bind, if_true]

end

end Ucxx

end Litecast
