import Litecast.ControlFrames

/-! What an encoder accepts is what its decoder returns: the two state their
conditions apart, and neither is the wider. -/

namespace Litecast

open Protocol Ucxx

section
variable [Library]

/-- The encoder's domain is the decoder's range. A frame may have come under any
limit up to that of the protocol. -/
structure Matched {α : Type} (encode : α → Except Exc Bytes) (decode : Frame → Except Exc α) :
    Prop where
  read_back : ∀ message raw, encode message = .ok raw →
    ∃ frame, decodeFrame raw = .ok frame ∧ decode frame = .ok message
  written_again : ∀ limit ≤ maxPayloadSize, ∀ raw frame message,
    decodeFrame raw limit = .ok frame → decode frame = .ok message →
      ∃ again, encode message = .ok again

/-- An object read back with the members it was written with. -/
def ReadsBack (encode : List (Str × Json) → Except Exc Bytes) (decode : Frame → Except Exc Json)
    (roundTrips : Json → Prop) : Prop :=
  ∀ members raw, encode members = .ok raw → roundTrips (.obj members) →
    ∃ frame, decodeFrame raw = .ok frame ∧ decode frame = .ok (Json.obj members).sorted

/-- JSON text in UTF-8, as `encode_metadata` writes it, reads back as the value written. -/
def RoundTripsUnicode (value : Json) : Prop :=
  ∀ text, dumpsUnicode value = some text → loads text = some value.sorted

/-! ## Frames -/

omit [Library] in
theorem encodeFrame_ok_iff (kind : MessageType) (payload : Bytes) :
    (∃ raw, encodeFrame kind payload = .ok raw) ↔ payload.length ≤ maxPayloadSize := by
  have hflags : 0 ≤ (0 : Int) ∧ (0 : Int) ≤ 0xFFFF := by decide
  have hversion : 0 ≤ (protocolVersion : Int) ∧ (protocolVersion : Int) ≤ 0xFF := by decide
  unfold encodeFrame
  rw [if_neg (not_not.mpr hflags), if_neg (not_not.mpr hversion)]
  split_ifs with hlarge
  · simp [hlarge]
  · simp [Nat.le_of_not_lt hlarge]

theorem decodeFrame_encodeFrame {kind : MessageType} {payload raw : Bytes}
    (hraw : encodeFrame kind payload = .ok raw)
    (hvalid : validateMessage { messageType := kind, payload } = .ok ()) :
    decodeFrame raw = .ok { messageType := kind, payload } := by
  have hfits := (encodeFrame_ok_iff kind payload).mp ⟨raw, hraw⟩
  have hsendable : Frame.Sendable maxPayloadSize { messageType := kind, payload } :=
    ⟨Nat.zero_le _, rfl, hfits, hvalid⟩
  have hwire := encodeFrame_wire (Nat.le_refl _) hsendable
  obtain rfl := Except.ok.inj (hraw.symm.trans hwire)
  rw [decodeFrame_eq_ok_iff, front_eq_item_iff]
  exact ⟨⟨hsendable.carried (Nat.le_refl _), hvalid⟩, (List.append_nil _).symm⟩

/-! ## Text -/

/-- The text messages, which differ in their kind and their limit. -/
theorem matched_text {encode : Str → Except Exc Bytes} {decode : Frame → Except Exc Str}
    {kind : MessageType} {label : Str} {maximum : Nat} (hmaximum : maximum ≤ maxPayloadSize)
    (hencode : ∀ text, encode text =
      encodeText text label maximum >>= fun payload => encodeFrame kind payload)
    (hdecode : ∀ frame, decode frame =
      requireType frame kind >>= fun _ => decodeText frame.payload label maximum)
    (hvalid : ∀ payload text, decodeText payload label maximum = .ok text →
      validateMessage { messageType := kind, payload } = .ok ()) : Matched encode decode := by
  constructor
  · intro text raw hraw
    rw [hencode] at hraw
    obtain ⟨payload, hpayload, hraw⟩ := bind_eq_ok.mp hraw
    have htext := decodeText_of_encodeText hpayload
    refine ⟨_, decodeFrame_encodeFrame hraw (hvalid payload text htext), ?_⟩
    rw [hdecode]
    exact bind_eq_ok.mpr ⟨(), requireType_eq_ok.mpr rfl, htext⟩
  · intro limit _ raw frame text _ htext
    rw [hdecode] at htext
    obtain ⟨_, -, htext⟩ := bind_eq_ok.mp htext
    have hpayload := decodeText_eq_ok.mp htext
    have hfits : frame.payload.length ≤ maxPayloadSize :=
      (encodeText_eq_ok.mp hpayload).2.2.trans hmaximum
    obtain ⟨again, hagain⟩ := (encodeFrame_ok_iff kind frame.payload).mpr hfits
    exact ⟨again, by rw [hencode]; exact bind_eq_ok.mpr ⟨_, hpayload, hagain⟩⟩

theorem matched_getVersion : Matched encodeGetVersion decodeGetVersion :=
  matched_text (by decide) (fun _ => rfl) (fun _ => rfl) fun payload text htext => by
    simp [validateMessage, htext, Except.map]

theorem matched_waitVersion : Matched encodeWaitVersion decodeWaitVersion :=
  matched_text (by decide) (fun _ => rfl) (fun _ => rfl) fun payload text htext => by
    simp [validateMessage, decodeWaitVersion, requireType, htext, bind, Except.bind, Except.map]

theorem matched_versionAvailable : Matched encodeVersionAvailable decodeVersionAvailable :=
  matched_text (by decide) (fun _ => rfl) (fun _ => rfl) fun payload text htext => by
    simp [validateMessage, decodeVersionAvailable, requireType, htext, bind, Except.bind, Except.map]

theorem matched_error : Matched encodeError decodeError :=
  matched_text (by decide) (fun _ => rfl) (fun _ => rfl) fun payload text htext => by
    simp [validateMessage, htext, Except.map]

/-! ## Requests for shards -/

theorem encodeGetShard_ok {version : Str} {value : Int} {raw : Bytes}
    (h : encodeGetShard version value = .ok raw) :
    fitsVersionName version = .ok true ∧ ∃ index : Nat, value = index ∧ index ≤ 0xFFFFFFFF := by
  obtain ⟨fits, hfits, h⟩ := bind_eq_ok.mp h
  split_ifs at h with hname huint
  have hrange := fitsUint32_iff.mp (eq_true_of_ne_false huint)
  exact ⟨by rw [hfits, eq_true_of_ne_false hname], value.toNat, by omega, by omega⟩

theorem encodeGetShard_ok_of {version : Str} {index : Nat} (hfits : fitsVersionName version = .ok true)
    (hindex : index ≤ 0xFFFFFFFF) : ∃ raw, encodeGetShard version index = .ok raw := by
  rw [encodeGetShard_eq hfits hindex]
  exact (encodeFrame_ok_iff _ _).mpr
    ((fitsControl_shardRequest hfits hindex).trans (by decide))

theorem matched_getShard :
    Matched (fun request : Str × Int => encodeGetShard request.1 request.2)
      fun frame => (decodeGetShard frame).map fun request => (request.1, (request.2 : Int)) := by
  constructor
  · rintro ⟨version, value⟩ raw hraw
    obtain ⟨hfits, index, rfl, hindex⟩ := encodeGetShard_ok hraw
    have hdecode := decodeGetShard_dumps hfits hindex
    simp only [encodeGetShard_eq hfits hindex] at hraw
    refine ⟨_, decodeFrame_encodeFrame hraw ?_, ?_⟩
    · simp [validateMessage, hdecode, Except.map]
    · simp only [hdecode, Except.map]
  · rintro limit - raw frame request - hdecode
    obtain ⟨⟨version, index⟩, hfound, rfl⟩ := map_eq_ok.mp hdecode
    obtain ⟨-, hfits, hindex⟩ := decodeGetShard_ok hfound
    exact encodeGetShard_ok_of hfits hindex

theorem encodeGetShards_ok_iff {version : Str} {values : List Int} :
    (∃ raw, encodeGetShards version values = .ok raw) ↔
      ∃ indices : List Nat, values = indices.map Int.ofNat ∧ GoodBatch version indices := by
  constructor
  · rintro ⟨raw, h⟩
    obtain ⟨fits, hfits, h⟩ := bind_eq_ok.mp h
    split_ifs at h with hname hbad
    simp only [not_or, not_not, Bool.not_eq_true, List.any_eq_false] at hbad
    obtain ⟨hne, hcount, hnodup, hall⟩ := hbad
    have hrange : ∀ value ∈ values, 0 ≤ value ∧ value ≤ 0xFFFFFFFF := by
      intro value hvalue
      exact fitsUint32_iff.mp (by simpa using hall value hvalue)
    have hback : values = (values.map Int.toNat).map Int.ofNat := by
      rw [List.map_map]
      exact (List.map_id'' (fun _ => rfl) values).symm.trans
        (List.map_congr_left fun value hvalue => (Int.toNat_of_nonneg (hrange value hvalue).1).symm)
    refine ⟨values.map Int.toNat, hback, by rw [hfits, eq_true_of_ne_false hname],
      by simpa using hne, by rw [List.length_map]; omega, ?_, ?_⟩
    · refine hnodup.map_on fun a ha b hb hab => ?_
      have := hrange a ha
      have := hrange b hb
      omega
    · intro index hindex
      obtain ⟨value, hvalue, rfl⟩ := List.mem_map.mp hindex
      have := hrange value hvalue
      omega
  · rintro ⟨indices, rfl, hgood⟩
    rw [encodeGetShards_eq hgood]
    exact (encodeFrame_ok_iff _ _).mpr
      ((fitsControl_batchRequest hgood.name hgood.length_le hgood.uint32).trans (by decide))

theorem matched_getShards :
    Matched (fun request : Str × List Int => encodeGetShards request.1 request.2)
      fun frame => (decodeGetShards frame).map fun request =>
        (request.1, request.2.map Int.ofNat) := by
  constructor
  · rintro ⟨version, values⟩ raw hraw
    obtain ⟨indices, rfl, hgood⟩ := encodeGetShards_ok_iff.mp ⟨raw, hraw⟩
    have hdecode := decodeGetShards_dumps hgood
    simp only [encodeGetShards_eq hgood] at hraw
    refine ⟨_, decodeFrame_encodeFrame hraw ?_, ?_⟩
    · simp [validateMessage, hdecode, Except.map]
    · simp only [hdecode, Except.map]
  · rintro limit - raw frame request - hdecode
    obtain ⟨⟨version, indices⟩, hfound, rfl⟩ := map_eq_ok.mp hdecode
    obtain ⟨-, hgood⟩ := decodeGetShards_ok hfound
    exact encodeGetShards_ok_iff.mpr ⟨indices, rfl, hgood⟩

/-! ## Chunks -/

theorem matched_chunkData :
    Matched (fun chunk : Int × Bytes => encodeChunkData chunk.1 chunk.2)
      fun frame => (decodeChunkData frame).map fun chunk => ((chunk.1 : Int), chunk.2) := by
  have hwidth : chunkPrefixSize = 4 := rfl
  constructor
  · rintro ⟨value, body⟩ raw hraw
    simp only [encodeChunkData] at hraw
    split_ifs at hraw with hrange hlarge
    have hlength := BigEndian.length_encode chunkPrefixSize value.toNat
    have hsize : ¬ (BigEndian.encode chunkPrefixSize value.toNat ++ body).length < chunkPrefixSize := by
      rw [List.length_append, hlength]
      omega
    have hindex : BigEndian.decode (BigEndian.encode chunkPrefixSize value.toNat) = value.toNat :=
      BigEndian.decode_encode (by rw [hwidth]; omega)
    have hback : ((value.toNat : Nat) : Int) = value := Int.toNat_of_nonneg (by omega)
    refine ⟨_, decodeFrame_encodeFrame hraw (by simp only [validateMessage, if_neg hsize]), ?_⟩
    simp only [decodeChunkData, requireType, if_true, if_neg hsize, List.take_left' hlength,
      List.drop_left' hlength, hindex, hback, bind, Except.bind, Except.map]
  · intro limit hlimit raw frame chunk hframe hdecode
    obtain ⟨⟨index, body⟩, hfound, rfl⟩ := map_eq_ok.mp hdecode
    obtain ⟨_, -, hfound⟩ := bind_eq_ok.mp hfound
    split_ifs at hfound with hsize
    obtain ⟨rfl, rfl⟩ := Prod.mk.inj (Except.ok.inj hfound)
    have hfits := (decodeFrame_sound hframe).1.fits
    have hlength : (frame.payload.take chunkPrefixSize).length = 4 := by
      rw [List.length_take]
      omega
    have hsmall : BigEndian.decode (frame.payload.take chunkPrefixSize) < 256 ^ 4 := by
      rw [← hlength]
      exact BigEndian.decode_lt _
    have hbody : ¬ maxPayloadSize - chunkPrefixSize < (frame.payload.drop chunkPrefixSize).length := by
      rw [List.length_drop]
      omega
    simp only [encodeChunkData, if_neg hbody]
    rw [if_neg (by omega)]
    refine (encodeFrame_ok_iff _ _).mpr ?_
    rw [List.length_append, BigEndian.length_encode, List.length_drop]
    omega

/-! ## Metadata -/

theorem readsBack_metadata : ReadsBack encodeMetadata decodeMetadata RoundTripsUnicode := by
  intro members raw hraw htrips
  unfold encodeMetadata at hraw
  split at hraw
  · cases hraw
  · next text htext =>
    split_ifs at hraw with hlarge
    have hloads := htrips text htext
    have hobject : (Json.obj members).sorted.isObject = true := Json.isObject_sorted _
    have hdecode : decodeMetadata { messageType := .metadata, payload := text } =
        .ok (Json.obj members).sorted := by
      simp [decodeMetadata, requireType, decodeObject, hlarge, hloads, hobject, bind, Except.bind]
    refine ⟨_, decodeFrame_encodeFrame hraw ?_, hdecode⟩
    simp [validateMessage, hlarge, hdecode, Except.map]

theorem readsBack_object {kind : MessageType} {decode : Frame → Except Exc Json}
    (hdecode : ∀ payload value, loads payload = some value → value.isObject = true →
      decode { messageType := kind, payload } = .ok value)
    (hvalid : ∀ payload value, decode { messageType := kind, payload } = .ok value →
      validateMessage { messageType := kind, payload } = .ok ()) :
    ReadsBack (encodeObject kind) decode RoundTrips := by
  intro members raw hraw htrips
  simp only [encodeObject] at hraw
  split_ifs at hraw
  have hback := hdecode _ _ htrips (Json.isObject_sorted _)
  exact ⟨_, decodeFrame_encodeFrame hraw (hvalid _ _ hback), hback⟩

theorem readsBack_shardMetadata : ReadsBack encodeShardMetadata decodeShardMetadata RoundTrips := by
  refine readsBack_object (fun payload value hloads hobject => ?_) fun payload value hdecode => ?_
  · simp [decodeShardMetadata, requireType, decodeObject, hloads, hobject, bind, Except.bind]
  · simp [validateMessage, hdecode, Except.map]

theorem readsBack_shardsMetadata :
    ReadsBack encodeShardsMetadata decodeShardsMetadata RoundTrips := by
  refine readsBack_object (fun payload value hloads hobject => ?_) fun payload value hdecode => ?_
  · simp [decodeShardsMetadata, requireType, decodeObject, hloads, hobject, bind, Except.bind]
  · simp [validateMessage, hdecode, Except.map]

/-- Every kind of message is read back as it was written, and what can be read
can be written. -/
theorem messages_matched :
    Matched encodeGetVersion decodeGetVersion ∧
    Matched (fun request : Str × Int => encodeGetShard request.1 request.2)
      (fun frame => (decodeGetShard frame).map fun request => (request.1, (request.2 : Int))) ∧
    Matched (fun request : Str × List Int => encodeGetShards request.1 request.2)
      (fun frame => (decodeGetShards frame).map fun request =>
        (request.1, request.2.map Int.ofNat)) ∧
    Matched encodeWaitVersion decodeWaitVersion ∧
    Matched encodeVersionAvailable decodeVersionAvailable ∧
    Matched (fun chunk : Int × Bytes => encodeChunkData chunk.1 chunk.2)
      (fun frame => (decodeChunkData frame).map fun chunk => ((chunk.1 : Int), chunk.2)) ∧
    Matched encodeError decodeError ∧
    ReadsBack encodeMetadata decodeMetadata RoundTripsUnicode ∧
    ReadsBack encodeShardMetadata decodeShardMetadata RoundTrips ∧
    ReadsBack encodeShardsMetadata decodeShardsMetadata RoundTrips :=
  ⟨matched_getVersion, matched_getShard, matched_getShards, matched_waitVersion,
    matched_versionAvailable, matched_chunkData, matched_error, readsBack_metadata,
    readsBack_shardMetadata, readsBack_shardsMetadata⟩

end

end Litecast
