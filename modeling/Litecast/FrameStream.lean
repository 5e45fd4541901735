import Litecast.Protocol

/-! Frames cut into chunks anywhere come out of `FrameDecoder` whole, in order
and as early as possible, and `decode_frame` agrees with it. -/

namespace Litecast

open Protocol

/-! ## Headers -/

structure Header.Packable (h : Header) : Prop where
  magic_length : h.magic.length = 4
  version_lt : h.version < 256
  rawType_lt : h.rawType < 256
  flags_lt : h.flags < 65536
  payloadSize_lt : h.payloadSize < 18446744073709551616

theorem Header.length_pack {h : Header} (hmagic : h.magic.length = 4) :
    h.pack.length = headerSize := by
  simp [Header.pack, hmagic, headerSize]

theorem middle_of_append {a b c : Bytes} {i n : Nat} (ha : a.length = i) (hb : b.length = n) :
    ((a ++ (b ++ c)).drop i).take n = b := by
  subst ha hb
  simp

theorem Header.unpack_pack {h : Header} (hp : h.Packable) : Header.unpack h.pack = h := by
  obtain ⟨magic, version, rawType, flags, payloadSize⟩ := h
  obtain ⟨hmagic, hversion, htype, hflags, hsize⟩ := hp
  simp only at hmagic hversion htype hflags hsize
  let v := BigEndian.encode 1 version
  let t := BigEndian.encode 1 rawType
  let f := BigEndian.encode 2 flags
  let s := BigEndian.encode 8 payloadSize
  have hm : (magic ++ (v ++ t ++ f ++ s)).take 4 = magic := by rw [← hmagic, List.take_left]
  have hv : ((magic ++ (v ++ (t ++ f ++ s))).drop 4).take 1 = v :=
    middle_of_append hmagic (BigEndian.length_encode ..)
  have ht : (((magic ++ v) ++ (t ++ (f ++ s))).drop 5).take 1 = t :=
    middle_of_append (by simp [v, hmagic]) (BigEndian.length_encode ..)
  have hf : (((magic ++ v ++ t) ++ (f ++ s)).drop 6).take 2 = f :=
    middle_of_append (by simp [v, t, hmagic]) (BigEndian.length_encode ..)
  have hs : (((magic ++ v ++ t ++ f) ++ (s ++ [])).drop 8).take 8 = s :=
    middle_of_append (by simp [v, t, f, hmagic]) (BigEndian.length_encode ..)
  simp only [List.append_assoc, List.append_nil] at hm hv ht hf hs
  simp only [Header.pack, Header.unpack, List.append_assoc]
  rw [hm, hv, ht, hf, hs, BigEndian.decode_encode hversion, BigEndian.decode_encode htype,
    BigEndian.decode_encode hflags, BigEndian.decode_encode hsize]

theorem Header.pack_unpack {raw : Bytes} (h : raw.length = headerSize) :
    (Header.unpack raw).pack = raw := by
  have h16 : raw.length = 16 := h
  have h1 : ((raw.drop 4).take 1).length = 1 := by simp; omega
  have h2 : ((raw.drop 5).take 1).length = 1 := by simp; omega
  have h3 : ((raw.drop 6).take 2).length = 2 := by simp; omega
  have h4 : ((raw.drop 8).take 8).length = 8 := by simp; omega
  simp only [Header.pack, Header.unpack, BigEndian.encode_decode h1, BigEndian.encode_decode h2,
    BigEndian.encode_decode h3, BigEndian.encode_decode h4]
  rw [← List.take_add, ← List.take_add, ← List.take_add, ← List.take_add]
  exact List.take_of_length_le (by omega)

theorem Header.packable_unpack {raw : Bytes} (h : raw.length = headerSize) :
    (Header.unpack raw).Packable := by
  have h16 : raw.length = 16 := h
  have hfield (i n : Nat) (hn : i + n ≤ 16) :
      BigEndian.decode ((raw.drop i).take n) < 256 ^ n := by
    have hlen : ((raw.drop i).take n).length = n := by simp; omega
    have := BigEndian.decode_lt ((raw.drop i).take n)
    rwa [hlen] at this
  exact ⟨by simp [Header.unpack]; omega, hfield 4 1 (by omega), hfield 5 1 (by omega),
    hfield 6 2 (by omega), hfield 8 8 (by omega)⟩

/-- The header of a frame the decoder may accept. -/
def wireHeader (messageType : MessageType) (flags payloadSize : Nat) : Header :=
  ⟨magic, protocolVersion, messageType.code, flags, payloadSize⟩

theorem MessageType.code_lt (kind : MessageType) : kind.code < 256 := by
  cases kind <;> decide

theorem wireHeader_packable (messageType : MessageType) {flags payloadSize : Nat}
    (hflags : flags ≤ 0xFFFF) (hsize : payloadSize < 18446744073709551616) :
    (wireHeader messageType flags payloadSize).Packable where
  magic_length := rfl
  version_lt := by simp [wireHeader, protocolVersion]
  rawType_lt := messageType.code_lt
  flags_lt := Nat.lt_succ_of_le hflags
  payloadSize_lt := hsize

/-- `decode_header` accepts the headers within the limit and no others. -/
theorem decodeHeader_eq_ok_iff {raw : Bytes} {limit : Nat} {messageType : MessageType}
    {flags payloadSize : Nat} :
    decodeHeader raw limit = .ok (messageType, flags, payloadSize) ↔
      raw = (wireHeader messageType flags payloadSize).pack ∧ flags ≤ 0xFFFF ∧
        payloadSize ≤ limit ∧ payloadSize < 18446744073709551616 := by
  constructor
  · intro h
    by_cases hlen : raw.length = headerSize
    · have hpacked := Header.pack_unpack hlen
      have hflags := (Header.packable_unpack hlen).flags_lt
      have hsmall := (Header.packable_unpack hlen).payloadSize_lt
      simp only [decodeHeader, Protocol.error, hlen, ne_eq, not_true_eq_false, if_false] at h
      generalize Header.unpack raw = header at h hpacked hflags hsmall
      obtain ⟨magic', version, rawType, flags', size⟩ := header
      simp only at h hflags hsmall
      cases hkind : MessageType.ofCode? rawType with
      | none => simp only [hkind] at h; split_ifs at h
      | some kind =>
        simp only [hkind] at h
        split_ifs at h with hmagic hversion hsize
        simp only [Except.ok.injEq, Prod.mk.injEq] at h
        obtain ⟨rfl, rfl, rfl⟩ := h
        subst hmagic hversion
        refine ⟨?_, by omega, Nat.le_of_not_lt hsize, hsmall⟩
        rw [wireHeader, MessageType.code_of_ofCode hkind, ← hpacked]
    · simp [decodeHeader, Protocol.error, hlen] at h
  · rintro ⟨rfl, hflags, hsize, hsmall⟩
    have hp := wireHeader_packable messageType hflags hsmall
    simp only [decodeHeader, Header.length_pack hp.magic_length, Header.unpack_pack hp]
    simp [wireHeader, Nat.not_lt.mpr hsize]

/-! ## One frame -/

/-- The bytes of a frame on the wire. -/
def Frame.wire (f : Frame) : Bytes :=
  (wireHeader f.messageType f.flags f.payload.length).pack ++ f.payload

theorem Frame.length_wire (f : Frame) : f.wire.length = headerSize + f.payload.length := by
  have h := Header.length_pack (h := wireHeader f.messageType f.flags f.payload.length) rfl
  rw [Frame.wire, List.length_append, h]

theorem take_wire_append (f : Frame) (rest : Bytes) :
    (f.wire ++ rest).take headerSize
      = (wireHeader f.messageType f.flags f.payload.length).pack := by
  rw [Frame.wire, List.append_assoc, ← Header.length_pack (h := wireHeader ..) rfl, List.take_left]

/-- A frame whose header a decoder of this limit accepts. -/
structure Frame.Carried (limit : Nat) (f : Frame) : Prop where
  flags_le : f.flags ≤ 0xFFFF
  version_eq : f.protocolVersion = Protocol.protocolVersion
  fits : f.payload.length ≤ limit
  small : f.payload.length < 18446744073709551616

section
variable [Library]

/-- A frame the protocol may carry under a payload limit. -/
structure Frame.Sendable (limit : Nat) (f : Frame) : Prop where
  flags_le : f.flags ≤ 0xFFFF
  version_eq : f.protocolVersion = Protocol.protocolVersion
  fits : f.payload.length ≤ limit
  valid : validateMessage f = .ok ()

theorem Frame.Sendable.carried {limit : Nat} (hlimit : limit ≤ maxPayloadSize) {f : Frame}
    (hf : f.Sendable limit) : f.Carried limit where
  flags_le := hf.flags_le
  version_eq := hf.version_eq
  fits := hf.fits
  small := Nat.lt_of_le_of_lt (Nat.le_trans hf.fits hlimit) (by decide)

/-- Encoding a sendable frame cannot fail. -/
theorem encodeFrame_wire {limit : Nat} (hlimit : limit ≤ maxPayloadSize) {f : Frame}
    (hf : f.Sendable limit) : encodeFrame f.messageType f.payload f.flags = .ok f.wire := by
  have hsize : ¬ maxPayloadSize < f.payload.length :=
    Nat.not_lt.mpr (Nat.le_trans hf.fits hlimit)
  have hflags : 0 ≤ (f.flags : Int) ∧ (f.flags : Int) ≤ 0xFFFF := by
    have := hf.flags_le; omega
  simp [encodeFrame, hsize, hflags, protocolVersion, Frame.wire, wireHeader]

theorem front_nil (limit : Nat) : FrameDecoder.front limit [] = .incomplete := rfl

/-- With a whole frame in front, the turn is decided by its message. -/
theorem front_wire_append {limit : Nat} {f : Frame} (hf : f.Carried limit) (rest : Bytes) :
    FrameDecoder.front limit (f.wire ++ rest) =
      match validateMessage f with
      | .error e => .rejected e rest
      | .ok () => .item f rest := by
  have hlen : ¬ (f.wire ++ rest).length < headerSize := by
    rw [List.length_append, f.length_wire]; omega
  have hheader := decodeHeader_eq_ok_iff.mpr
    ⟨take_wire_append f rest, hf.flags_le, hf.fits, hf.small⟩
  have hfull : ¬ (f.wire ++ rest).length < headerSize + f.payload.length := by
    rw [List.length_append, f.length_wire]; omega
  have htake : (f.wire ++ rest).take (headerSize + f.payload.length) = f.wire := by
    rw [← f.length_wire, List.take_left]
  have hdrop : (f.wire ++ rest).drop (headerSize + f.payload.length) = rest := by
    rw [← f.length_wire, List.drop_left]
  have hpayload : f.wire.drop headerSize = f.payload := by
    rw [Frame.wire, ← Header.length_pack (h := wireHeader ..) rfl, List.drop_left]
  have hframe : ({ messageType := f.messageType, payload := f.payload, flags := f.flags } : Frame)
      = f := by
    have hversion := hf.version_eq
    cases f
    cases hversion
    rfl
  cases hvalid : validateMessage f with
  | error e =>
    simp only [FrameDecoder.front, hlen, hheader, hfull, htake, hdrop, hpayload, hframe, hvalid,
      if_false]
  | ok _ =>
    simp only [FrameDecoder.front, hlen, hheader, hfull, htake, hdrop, hpayload, hframe, hvalid,
      if_false]

/-- A turn waits, refuses the header, or has a whole frame in front. -/
theorem front_cases (limit : Nat) (b : Bytes) :
    FrameDecoder.front limit b = .incomplete ∨
      (headerSize ≤ b.length ∧ ∃ e, decodeHeader (b.take headerSize) limit = .error e) ∨
      ∃ f rest, Frame.Carried limit f ∧ b = f.wire ++ rest := by
  by_cases hlen : b.length < headerSize
  · exact Or.inl (by simp [FrameDecoder.front, hlen])
  cases hheader : decodeHeader (b.take headerSize) limit with
  | error e => exact Or.inr (Or.inl ⟨Nat.not_lt.mp hlen, e, rfl⟩)
  | ok fields =>
    obtain ⟨messageType, flags, payloadSize⟩ := fields
    obtain ⟨hpack, hflags, hsize, hsmall⟩ := decodeHeader_eq_ok_iff.mp hheader
    by_cases hshort : b.length < headerSize + payloadSize
    · exact Or.inl (by simp [FrameDecoder.front, hlen, hheader, hshort])
    · set payload := (b.take (headerSize + payloadSize)).drop headerSize with hpayload
      have hpaylen : payload.length = payloadSize := by
        rw [hpayload, List.length_drop, List.length_take]; omega
      have hbody : (wireHeader messageType flags payloadSize).pack ++ payload
          = b.take (headerSize + payloadSize) := by
        have hfront : (b.take (headerSize + payloadSize)).take headerSize = b.take headerSize := by
          rw [List.take_take, Nat.min_eq_left (Nat.le_add_right ..)]
        rw [← hpack, hpayload, ← hfront, List.take_append_drop]
      refine Or.inr (Or.inr ⟨{ messageType, payload, flags }, b.drop (headerSize + payloadSize),
        ⟨hflags, rfl, hpaylen.trans_le hsize, hpaylen.trans_lt hsmall⟩, ?_⟩)
      rw [Frame.wire, hpaylen, hbody, List.take_append_drop]

/-- A turn of the decoder takes off a frame exactly when its encoding starts
the buffer. -/
theorem front_eq_item_iff {limit : Nat} {b rest : Bytes} {f : Frame} :
    FrameDecoder.front limit b = .item f rest ↔
      (f.Carried limit ∧ validateMessage f = .ok ()) ∧ b = f.wire ++ rest := by
  constructor
  · intro h
    rcases front_cases limit b with hwait | ⟨hlen, e, he⟩ | ⟨g, more, hg, rfl⟩
    · rw [hwait] at h
      cases h
    · simp [FrameDecoder.front, Nat.not_lt.mpr hlen, he] at h
    · rw [front_wire_append hg] at h
      cases hvalid : validateMessage g with
      | error e => rw [hvalid] at h; cases h
      | ok _ =>
        rw [hvalid] at h
        cases h
        exact ⟨⟨hg, hvalid⟩, rfl⟩
  · rintro ⟨⟨hf, hvalid⟩, rfl⟩
    rw [front_wire_append hf, hvalid]

/-- Part of a frame is waited on, whatever its message. -/
theorem front_part {limit : Nat} {f : Frame} (hf : f.Carried limit) {p : Bytes}
    (hp : p <+: f.wire) (hlt : p.length < f.wire.length) :
    FrameDecoder.front limit p = .incomplete := by
  obtain ⟨q, hq⟩ := hp
  by_cases hlen : p.length < headerSize
  · simp [FrameDecoder.front, hlen]
  · have htake : p.take headerSize
        = (wireHeader f.messageType f.flags f.payload.length).pack := by
      have := take_wire_append f []
      rwa [← hq, List.append_nil, List.take_append_of_le_length (Nat.le_of_not_lt hlen)] at this
    have hheader := decodeHeader_eq_ok_iff.mpr ⟨htake, hf.flags_le, hf.fits, hf.small⟩
    rw [f.length_wire] at hlt
    simp only [FrameDecoder.front, hlen, hheader, hlt, if_false, if_true]

theorem reads_wire {limit : Nat} {f : Frame} (hf : f.Carried limit)
    (hvalid : validateMessage f = .ok ()) :
    StreamCode.Reads (FrameDecoder.front limit) Frame.wire f where
  nonempty := by
    intro h
    have hlen := f.length_wire
    simp only [h, List.length_nil, headerSize] at hlen
    omega
  whole := fun rest => front_eq_item_iff.mpr ⟨⟨hf, hvalid⟩, rfl⟩
  part := fun _ hp hlt => front_part hf hp hlt

/-- `decode_frame` accepts what leaves nothing of the buffer behind. -/
theorem decodeFrame_eq_ok_iff {limit : Nat} {b : Bytes} {f : Frame} :
    decodeFrame b limit = .ok f ↔ FrameDecoder.front limit b = .item f [] := by
  unfold decodeFrame FrameDecoder.front
  by_cases hlen : b.length < headerSize
  · simp [hlen, Protocol.error]
  cases decodeHeader (b.take headerSize) limit with
  | error e => simp [hlen]
  | ok fields =>
    obtain ⟨messageType, flags, payloadSize⟩ := fields
    simp only [hlen, if_false]
    rcases Nat.lt_trichotomy b.length (headerSize + payloadSize) with hlt | heq | hgt
    · simp [hlt, Protocol.error]
    · have htake : b.take (headerSize + payloadSize) = b := List.take_of_length_le (by omega)
      have hdrop : b.drop (headerSize + payloadSize) = [] := List.drop_eq_nil_of_le (by omega)
      simp only [heq, Nat.lt_irrefl, if_false, htake, hdrop]
      cases validateMessage { messageType, payload := b.drop headerSize, flags } <;> simp
    · have hrest : b.drop (headerSize + payloadSize) ≠ [] := by
        simp only [ne_eq, List.drop_eq_nil_iff]; omega
      simp only [Nat.not_lt_of_gt hgt, hgt, if_false, if_true, Protocol.error]
      cases validateMessage { messageType, payload := (b.take (headerSize + payloadSize)).drop headerSize, flags } <;>
        simp [hrest]

/-- What `decode_frame` accepts is the encoding of its result. -/
theorem decodeFrame_sound {limit : Nat} {b : Bytes} {f : Frame} (h : decodeFrame b limit = .ok f) :
    f.Sendable limit ∧ f.wire = b := by
  obtain ⟨⟨hf, hvalid⟩, hb⟩ := front_eq_item_iff.mp (decodeFrame_eq_ok_iff.mp h)
  exact ⟨⟨hf.flags_le, hf.version_eq, hf.fits, hvalid⟩, by rw [hb, List.append_nil]⟩

/-! ## Streams of frames -/

theorem feed_eq_single_iff {limit : Nat} {b : Bytes} {f : Frame} :
    FrameDecoder.feed { maximum := limit } b = (.ok [f], { maximum := limit }) ↔
      FrameDecoder.front limit b = .item f [] := by
  rw [← StreamCode.feed_single_iff (front_nil limit)]
  simp only [FrameDecoder.feed, Prod.ext_iff, FrameDecoder.mk.injEq, true_and]

/-- The frames that have all their bytes among the first `n` of the stream. -/
abbrev framesWithin (frames : List Frame) (n : Nat) : List Frame :=
  StreamCode.arrived Frame.wire frames n

/-- Fed any chunks of the stream, the decoder has delivered the frames that
are complete and holds less than one frame. -/
theorem feedAll_framesWithin {limit : Nat} (hlimit : limit ≤ maxPayloadSize) {frames : List Frame}
    (hframes : ∀ f ∈ frames, f.Sendable limit) {chunks : List Bytes}
    (hcut : chunks.flatten <+: frames.flatMap Frame.wire) :
    ∃ decoder, FrameDecoder.feedAll { maximum := limit } chunks =
        (.ok (framesWithin frames chunks.flatten.length), decoder) ∧
      decoder.buffer.length ≤ headerSize + limit - 1 := by
  obtain ⟨ys, left, hsplit, hstub, hall⟩ := StreamCode.feedAll_arrived (front_nil limit)
    (fun f hf => reads_wire ((hframes f hf).carried hlimit) (hframes f hf).valid) chunks hcut
  refine ⟨{ maximum := limit, buffer := left }, by simp only [FrameDecoder.feedAll, hall], ?_⟩
  have hys : ∀ f ∈ ys, f.wire.length ≤ headerSize + limit := by
    intro f hf
    have hmem : f ∈ frames := by rw [hsplit]; exact List.mem_append_right _ hf
    rw [f.length_wire]
    exact Nat.add_le_add_left (hframes f hmem).fits _
  exact Nat.le_sub_one_of_lt (hstub.length_lt (by simp [headerSize]) hys)

/-- **Fragmentation is invisible.** Whatever the cut, after each chunk exactly
the frames whose last byte has arrived have been delivered, in order; the
buffer stays below one frame and ends empty. One frame alone is what
`decode_frame` accepts, and encodes back to the bytes it came from. -/
theorem fragmentation_invisible (limit : Nat) (hlimit : limit ≤ maxPayloadSize) :
    (∀ frames : List Frame, (∀ f ∈ frames, f.Sendable limit) →
      (∀ f ∈ frames, encodeFrame f.messageType f.payload f.flags = .ok f.wire) ∧
      ∀ chunks : List Bytes, chunks.flatten = frames.flatMap Frame.wire →
        (∀ n, ∃ decoder, FrameDecoder.feedAll { maximum := limit } (chunks.take n) =
            (.ok (framesWithin frames (chunks.take n).flatten.length), decoder) ∧
          decoder.buffer.length ≤ headerSize + limit - 1) ∧
        FrameDecoder.feedAll { maximum := limit } chunks = (.ok frames, { maximum := limit })) ∧
    ∀ (b : Bytes) (f : Frame),
      (decodeFrame b limit = .ok f ↔
        FrameDecoder.feed { maximum := limit } b = (.ok [f], { maximum := limit })) ∧
      (decodeFrame b limit = .ok f → encodeFrame f.messageType f.payload f.flags = .ok b) := by
  refine ⟨fun frames hframes => ⟨fun f hf => encodeFrame_wire hlimit (hframes f hf), ?_⟩, ?_⟩
  · intro chunks hcut
    constructor
    · intro n
      apply feedAll_framesWithin hlimit hframes
      rw [← hcut]
      conv_rhs => rw [← List.take_append_drop n chunks, List.flatten_append]
      exact List.prefix_append _ _
    · have hall := StreamCode.feedAll_complete (front_nil limit)
        (fun f hf => reads_wire ((hframes f hf).carried hlimit) (hframes f hf).valid) chunks hcut
      simp only [FrameDecoder.feedAll, hall]
  · intro b f
    refine ⟨decodeFrame_eq_ok_iff.trans feed_eq_single_iff.symm, ?_⟩
    intro h
    obtain ⟨hf, hwire⟩ := decodeFrame_sound h
    rw [encodeFrame_wire hlimit hf, hwire]

end

/-- A chunk of data and a shutdown, cut inside both headers. -/
theorem fragmentation_invisible_two_frames :
    let _ := asciiLibrary
    let frames : List Frame := [{ messageType := .chunkData, payload := [0, 0, 0, 7, 1] },
      { messageType := .shutdown, flags := 2 }]
    FrameDecoder.feedAll { maximum := 8 }
      [[83, 67, 83], [84, 1, 3, 0, 0, 0, 0, 0, 0, 0, 0, 0, 5, 0, 0, 0, 7], [], [1, 83, 67, 83, 84],
        [1, 5, 0, 2, 0, 0, 0, 0, 0, 0, 0], [0]] = (.ok frames, { maximum := 8 }) := by
  let _ := asciiLibrary
  intro _ frames
  have hframes : ∀ f ∈ frames, f.Sendable 8 := by
    intro f hf
    simp only [frames, List.mem_cons, List.not_mem_nil, or_false] at hf
    obtain rfl | rfl := hf <;> exact ⟨by decide, rfl, by decide, rfl⟩
  exact (((fragmentation_invisible 8 (by decide)).1 frames hframes).2 _ (by decide)).2

end Litecast
