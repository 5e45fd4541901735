import Litecast.FrameStream
import Litecast.Exceptions

/-! What the decoders raise, and which frames an exception takes along. -/

namespace Litecast

open Protocol

def ExcClass.isProtocolError (cls : ExcClass) : Bool := cls = .protocolError

/-! ## Messages -/

theorem not_uncaught_decodeText (payload : Bytes) (label : Str) (maximum : Nat) :
    ¬ Uncaught ExcClass.isProtocolError (decodeText payload label maximum) := by
  unfold decodeText
  split_ifs
  · simp [ExcClass.isProtocolError]
  · simp [ExcClass.isProtocolError]
  · cases decodeUtf8 payload <;> simp [ExcClass.isProtocolError]

theorem not_uncaught_requireType (f : Frame) (expected : MessageType) :
    ¬ Uncaught ExcClass.isProtocolError (requireType f expected) := by
  unfold requireType
  split_ifs <;> simp [ExcClass.isProtocolError]

/-- The name's length is measured in bytes it may not have. -/
theorem fitsVersionName_uncaught_iff (version : Str) :
    Uncaught ExcClass.isProtocolError (fitsVersionName version) ↔
      version ≠ [] ∧ encodeUtf8 version = none := by
  unfold fitsVersionName encodeText?
  split_ifs with hempty
  · simp [hempty]
  · rw [uncaught_bind]
    cases encodeUtf8 version <;> simp [hempty, ExcClass.isProtocolError]

theorem fitsVersionName_ok_true (version : Str) :
    fitsVersionName version = .ok true ↔
      version ≠ [] ∧ ∃ payload, encodeUtf8 version = some payload ∧
        payload.length ≤ maxVersionNameSize := by
  unfold fitsVersionName encodeText?
  split_ifs with hempty
  · simp [hempty]
  · cases encodeUtf8 version <;> simp [hempty, bind, Except.bind]

theorem string?_eq_some {o : Option Json} {s : Str} :
    o.bind Json.string? = some s ↔ o = some (.str s) := by
  cases o with
  | none => simp
  | some j => cases j <;> simp [Json.string?]

theorem refused_not_uncaught {α : Type} {message : Str} {P : Prop}
    (h : Uncaught ExcClass.isProtocolError (Protocol.error message : Except Exc α)) : P := by
  simp [ExcClass.isProtocolError] at h

section
variable [Library]

theorem not_uncaught_decodeObject (payload : Bytes) (invalid notObject : Str) :
    ¬ Uncaught ExcClass.isProtocolError (decodeObject payload invalid notObject) := by
  unfold decodeObject
  cases loads payload with
  | none => simp [ExcClass.isProtocolError]
  | some value => simp only; split_ifs <;> simp [ExcClass.isProtocolError]

/-- A request for shards whose version name has no UTF-8, or whose indices, in a
list of the right length, no set can be made of. -/
def Frame.TripsCheck (f : Frame) : Prop :=
  ∃ value version, loads f.payload = some value ∧
    value.get? (str "version") = some (.str version) ∧ version ≠ [] ∧
    ((f.messageType = .getShard ∧ value.hasExactly [str "version", str "index"] = true ∧
        encodeUtf8 version = none) ∨
      (f.messageType = .getShards ∧ value.hasExactly [str "version", str "indices"] = true ∧
        (encodeUtf8 version = none ∨
          ∃ payload indices, encodeUtf8 version = some payload ∧
            payload.length ≤ maxVersionNameSize ∧ value.get? (str "indices") = some (.arr indices) ∧
            indices ≠ [] ∧ indices.length ≤ maxBatchShards ∧
            ∃ item ∈ indices, item.hashable = false)))

theorem decodeGetShard_uncaught_iff {f : Frame} (hkind : f.messageType = .getShard) :
    Uncaught ExcClass.isProtocolError (decodeGetShard f) ↔ f.TripsCheck := by
  rw [decodeGetShard, uncaught_bind, or_iff_right (not_uncaught_requireType _ _)]
  constructor
  · rintro ⟨-, -, h⟩
    split at h
    · exact refused_not_uncaught h
    · next value hvalue =>
      split at h
      · exact refused_not_uncaught h
      · next hkeys =>
        split at h
        · exact refused_not_uncaught h
        · next version hversion =>
          rw [uncaught_bind, fitsVersionName_uncaught_iff] at h
          rcases h with ⟨hne, hencode⟩ | ⟨fits, -, h⟩
          · exact ⟨value, version, hvalue, string?_eq_some.mp hversion, hne,
              Or.inl ⟨hkind, eq_true_of_ne_false hkeys, hencode⟩⟩
          · split at h
            · exact refused_not_uncaught h
            · split at h
              · exact refused_not_uncaught h
              · split at h
                · exact absurd h (not_uncaught_ok _)
                · exact refused_not_uncaught h
  · rintro ⟨value, version, hvalue, hversion, hne, ⟨-, hkeys, hencode⟩ | ⟨hother, -⟩⟩
    · refine ⟨(), if_pos hkind, ?_⟩
      simp only [hvalue, hkeys, Bool.true_eq_false, if_false, string?_eq_some.mpr hversion]
      exact uncaught_bind.mpr (Or.inl ((fitsVersionName_uncaught_iff version).mpr ⟨hne, hencode⟩))
    · rw [hkind] at hother
      cases hother

theorem decodeGetShards_uncaught_iff {f : Frame} (hkind : f.messageType = .getShards) :
    Uncaught ExcClass.isProtocolError (decodeGetShards f) ↔ f.TripsCheck := by
  rw [decodeGetShards, uncaught_bind, or_iff_right (not_uncaught_requireType _ _)]
  constructor
  · rintro ⟨-, -, h⟩
    split at h
    · exact refused_not_uncaught h
    · next value hvalue =>
      split at h
      · exact refused_not_uncaught h
      · next hkeys =>
        split at h
        · exact refused_not_uncaught h
        · next version hversion =>
          rw [uncaught_bind, fitsVersionName_uncaught_iff] at h
          rw [string?_eq_some] at hversion
          rw [Bool.not_eq_false] at hkeys
          rcases h with ⟨hne, hencode⟩ | ⟨fits, hfits, h⟩
          · exact ⟨value, version, hvalue, hversion, hne, Or.inr ⟨hkind, hkeys, Or.inl hencode⟩⟩
          · split at h
            · exact refused_not_uncaught h
            · next htrue =>
              rw [Bool.not_eq_false] at htrue
              subst htrue
              obtain ⟨hne, payload, hpayload, hlength⟩ := (fitsVersionName_ok_true version).mp hfits
              split at h
              · next indices hindices =>
                split at h
                · exact refused_not_uncaught h
                · next hcount =>
                  split at h
                  · next hunhashable =>
                    rw [not_or, Nat.not_lt] at hcount
                    obtain ⟨item, hitem, hhash⟩ := List.any_eq_true.mp hunhashable
                    exact ⟨value, version, hvalue, hversion, hne, Or.inr ⟨hkind, hkeys, Or.inr
                      ⟨payload, indices, hpayload, hlength, hindices, hcount.1, hcount.2, item, hitem,
                        by simpa using hhash⟩⟩⟩
                  · split at h
                    · exact refused_not_uncaught h
                    · split at h
                      · exact absurd h (not_uncaught_ok _)
                      · exact refused_not_uncaught h
              · exact refused_not_uncaught h
  · rintro ⟨value, version, hvalue, hversion, hne, ⟨hother, -⟩ | ⟨-, hkeys, htrips⟩⟩
    · rw [hkind] at hother
      cases hother
    · refine ⟨(), if_pos hkind, ?_⟩
      simp only [hvalue, hkeys, Bool.true_eq_false, if_false, string?_eq_some.mpr hversion]
      rw [uncaught_bind]
      rcases htrips with hencode | ⟨payload, indices, hpayload, hlength, hindices, hsome, hcount,
        item, hitem, hhash⟩
      · exact Or.inl ((fitsVersionName_uncaught_iff version).mpr ⟨hne, hencode⟩)
      · refine Or.inr ⟨true, (fitsVersionName_ok_true version).mpr ⟨hne, payload, hpayload, hlength⟩, ?_⟩
        have hany : indices.any (fun j => !j.hashable) = true :=
          List.any_eq_true.mpr ⟨item, hitem, by simp [hhash]⟩
        have hbounds : ¬ (indices = [] ∨ maxBatchShards < indices.length) := by
          rw [not_or, Nat.not_lt]
          exact ⟨hsome, hcount⟩
        simp [hindices, hbounds, hany, ExcClass.isProtocolError]

/-- **A message is checked or refused, but for two kinds of request.** -/
theorem validateMessage_uncaught_iff (f : Frame) :
    Uncaught ExcClass.isProtocolError (validateMessage f) ↔ f.TripsCheck := by
  have hother (h : f.messageType ≠ .getShard ∧ f.messageType ≠ .getShards) : ¬ f.TripsCheck := by
    rintro ⟨value, version, -, -, -, ⟨hkind, -⟩ | ⟨hkind, -⟩⟩
    · exact h.1 hkind
    · exact h.2 hkind
  have htext (kind : MessageType) (label : Str) (maximum : Nat) :
      ¬ Uncaught ExcClass.isProtocolError (do
        requireType f kind
        decodeText f.payload label maximum) := by
    rw [uncaught_bind, not_or]
    exact ⟨not_uncaught_requireType _ _, fun ⟨_, _, h⟩ => not_uncaught_decodeText _ _ _ h⟩
  have hobject (kind : MessageType) (invalid notObject : Str) :
      ¬ Uncaught ExcClass.isProtocolError (do
        requireType f kind
        decodeObject f.payload invalid notObject) := by
    rw [uncaught_bind, not_or]
    exact ⟨not_uncaught_requireType _ _, fun ⟨_, _, h⟩ => not_uncaught_decodeObject _ _ _ h⟩
  unfold validateMessage
  cases hkind : f.messageType with
  | getShard => rw [uncaught_map]; exact decodeGetShard_uncaught_iff hkind
  | getShards => rw [uncaught_map]; exact decodeGetShards_uncaught_iff hkind
  | getVersion | error =>
    refine iff_of_false ?_ (hother (by simp [hkind]))
    simp only [uncaught_map]
    exact not_uncaught_decodeText _ _ _
  | waitVersion | versionAvailable =>
    refine iff_of_false ?_ (hother (by simp [hkind]))
    simp only [uncaught_map]
    exact htext _ _ _
  | shardMetadata | shardsMetadata =>
    refine iff_of_false ?_ (hother (by simp [hkind]))
    simp only [uncaught_map]
    exact hobject _ _ _
  | chunkData | shutdown =>
    refine iff_of_false ?_ (hother (by simp [hkind]))
    simp only
    split <;> simp [ExcClass.isProtocolError]
  | metadata =>
    refine iff_of_false ?_ (hother (by simp [hkind]))
    simp only
    split
    · simp [ExcClass.isProtocolError]
    · rw [uncaught_map, decodeMetadata, uncaught_bind, not_or]
      refine ⟨not_uncaught_requireType _ _, fun ⟨_, _, h⟩ => ?_⟩
      split at h
      · exact refused_not_uncaught h
      · exact not_uncaught_decodeObject _ _ _ h

/-! ## Frames -/

omit [Library] in
theorem not_uncaught_decodeHeader (raw : Bytes) (limit : Nat) :
    ¬ Uncaught ExcClass.isProtocolError (decodeHeader raw limit) := by
  unfold decodeHeader
  intro h
  split at h
  · exact refused_not_uncaught h
  · simp only at h
    split at h
    · exact refused_not_uncaught h
    · split at h
      · exact refused_not_uncaught h
      · split at h
        · exact refused_not_uncaught h
        · split at h
          · exact refused_not_uncaught h
          · exact not_uncaught_ok _ h

theorem decodeFrame_wire {limit : Nat} {f : Frame} (hf : f.Carried limit) :
    decodeFrame f.wire limit = (validateMessage f).map fun _ => f := by
  have htake := take_wire_append f []
  rw [List.append_nil] at htake
  have hheader := decodeHeader_eq_ok_iff.mpr ⟨htake, hf.flags_le, hf.fits, hf.small⟩
  have hlen : ¬ headerSize + f.payload.length < headerSize := by omega
  have hpayload : f.wire.drop headerSize = f.payload := by
    rw [Frame.wire, ← Header.length_pack (h := wireHeader ..) rfl, List.drop_left]
  have hframe : ({ messageType := f.messageType, payload := f.payload, flags := f.flags } : Frame)
      = f := by
    have hversion := hf.version_eq
    cases f
    cases hversion
    rfl
  simp only [decodeFrame, hlen, if_false, hheader, f.length_wire, Nat.lt_irrefl, hpayload, hframe]
  cases validateMessage f <;> rfl

/-- A whole frame is decoded, or the bytes are refused. -/
theorem decodeFrame_cases (limit : Nat) (b : Bytes) :
    (∃ f, Frame.Carried limit f ∧ b = f.wire) ∨
      ¬ Uncaught ExcClass.isProtocolError (decodeFrame b limit) := by
  rcases Classical.em (Uncaught ExcClass.isProtocolError (decodeFrame b limit)) with h | h
  · left
    unfold decodeFrame at h
    split at h
    · exact refused_not_uncaught h
    · cases hheader : decodeHeader (b.take headerSize) limit with
      | error e =>
        have hnot := not_uncaught_decodeHeader (b.take headerSize) limit
        simp only [hheader, uncaught_error] at h hnot
        exact absurd h hnot
      | ok fields =>
        obtain ⟨messageType, flags, payloadSize⟩ := fields
        obtain ⟨hpack, hflags, hsize, hsmall⟩ := decodeHeader_eq_ok_iff.mp hheader
        simp only [hheader] at h
        split at h
        · exact refused_not_uncaught h
        · split at h
          · exact refused_not_uncaught h
          · have hpayload : (b.drop headerSize).length = payloadSize := by
              rw [List.length_drop]; omega
            refine ⟨{ messageType, payload := b.drop headerSize, flags },
              ⟨hflags, rfl, hpayload.trans_le hsize, hpayload.trans_lt hsmall⟩, ?_⟩
            rw [Frame.wire, hpayload, ← hpack, List.take_append_drop]
  · exact Or.inr h

theorem decodeFrame_uncaught_iff (limit : Nat) (b : Bytes) :
    Uncaught ExcClass.isProtocolError (decodeFrame b limit) ↔
      ∃ f, Frame.Carried limit f ∧ f.TripsCheck ∧ b = f.wire := by
  constructor
  · intro h
    rcases decodeFrame_cases limit b with ⟨f, hf, rfl⟩ | hnot
    · rw [decodeFrame_wire hf, uncaught_map, validateMessage_uncaught_iff] at h
      exact ⟨f, hf, h, rfl⟩
    · exact absurd h hnot
  · rintro ⟨f, hf, htrips, rfl⟩
    rw [decodeFrame_wire hf, uncaught_map, validateMessage_uncaught_iff]
    exact htrips

theorem feed_uncaught_iff (d : FrameDecoder) (data : Bytes) :
    Uncaught ExcClass.isProtocolError (d.feed data).1 ↔
      ∃ (frames : List Frame) (f : Frame) (rest : Bytes),
        (∀ g ∈ frames, Frame.Carried d.maximum g ∧ validateMessage g = .ok ()) ∧
        Frame.Carried d.maximum f ∧ f.TripsCheck ∧
        d.buffer ++ data = frames.flatMap Frame.wire ++ (f.wire ++ rest) := by
  have hfeed : (d.feed data).1 = (StreamCode.feed (FrameDecoder.front d.maximum) d.buffer data).1 := rfl
  rw [hfeed, StreamCode.feed]
  constructor
  · rintro ⟨e, he, hcls⟩
    obtain ⟨frames, tail, hframes, hbuffer, htail⟩ := StreamCode.drain_error
      (fun b f rest h => front_eq_item_iff.mp h) (Prod.ext he rfl)
    rcases front_cases d.maximum tail with hwait | ⟨hlen, e', he'⟩ | ⟨f, rest, hf, rfl⟩
    · rw [hwait] at htail
      cases htail
    · -- a refused header is a ProtocolError
      simp only [FrameDecoder.front, Nat.not_lt.mpr hlen, if_false, he'] at htail
      cases htail
      exact absurd ⟨e, he', hcls⟩ (not_uncaught_decodeHeader _ _)
    · rw [front_wire_append hf] at htail
      cases hvalid : validateMessage f with
      | ok _ => rw [hvalid] at htail; cases htail
      | error e' =>
        rw [hvalid] at htail
        cases htail
        exact ⟨frames, f, _, hframes, hf,
          (validateMessage_uncaught_iff f).mp ⟨e, hvalid, hcls⟩, hbuffer⟩
  · rintro ⟨frames, f, rest, hframes, hf, htrips, hbuffer⟩
    obtain ⟨e, hvalid, hcls⟩ := (validateMessage_uncaught_iff f).mpr htrips
    have hfront := front_wire_append hf rest
    rw [hvalid] at hfront
    rw [hbuffer, StreamCode.drain_rejected hfront frames
      (fun g hg => reads_wire (hframes g hg).1 (hframes g hg).2) _ (Nat.lt_succ_self _)]
    exact ⟨e, rfl, hcls⟩

/-- **Which bytes make a decoder raise something other than `ProtocolError`**:
those with a request in front whose version name has no UTF-8 or whose indices
no set can be made of. -/
theorem decoders_protocolError_iff (limit : Nat) :
    (∀ b, (∀ e, decodeFrame b limit = .error e → e.cls = .protocolError) ↔
      ¬ ∃ f, Frame.Carried limit f ∧ f.TripsCheck ∧ b = f.wire) ∧
    ∀ buffer data,
      (∀ e, (FrameDecoder.feed { maximum := limit, buffer } data).1 = .error e →
        e.cls = .protocolError) ↔
      ¬ ∃ (frames : List Frame) (f : Frame) (rest : Bytes),
        (∀ g ∈ frames, Frame.Carried limit g ∧ validateMessage g = .ok ()) ∧
        Frame.Carried limit f ∧ f.TripsCheck ∧
        buffer ++ data = frames.flatMap Frame.wire ++ (f.wire ++ rest) := by
  have hexpected {α : Type} (x : Except Exc α) :
      (∀ e, x = .error e → e.cls = .protocolError) ↔ ¬ Uncaught ExcClass.isProtocolError x := by
    simp [Uncaught, ExcClass.isProtocolError]
  constructor
  · intro b
    rw [hexpected, decodeFrame_uncaught_iff]
  · intro buffer data
    rw [hexpected, feed_uncaught_iff]

end

/-- A request for shards whose one index is a list. -/
def listForIndex [Library] : Frame where
  messageType := .getShards
  payload := dumps (.obj [(str "indices", .arr [.arr []]), (str "version", .str (str "v1"))])

/-- `set([[]])` raises a `TypeError`. -/
theorem list_for_index_raises :
    letI := asciiLibrary
    decodeFrame listForIndex.wire = .error ⟨.typeError, str "unhashable type"⟩ ∧
      (FrameDecoder.feed {} listForIndex.wire).1 = .error ⟨.typeError, str "unhashable type"⟩ ∧
      ¬ ∀ raw e, decodeFrame raw = .error e → e.cls = .protocolError := by
  let _ := asciiLibrary
  have hraises : decodeFrame listForIndex.wire = .error ⟨.typeError, str "unhashable type"⟩ := by
    decide +kernel
  refine ⟨hraises, by decide +kernel, fun hall => ?_⟩
  cases hall _ _ hraises

/-! ## Frames before a malformed one -/

namespace FrameDecoder

section
variable [Library]

/-- What one `feed` after another returns or raises. -/
def feedEach (d : FrameDecoder) : List Bytes → List (Except Exc (List Frame))
  | [] => []
  | chunk :: rest => (d.feed chunk).1 :: (d.feed chunk).2.feedEach rest

theorem feedEach_eq_results (d : FrameDecoder) (chunks : List Bytes) :
    d.feedEach chunks = StreamCode.results (front d.maximum) d.buffer chunks := by
  induction chunks generalizing d with
  | nil => rfl
  | cons chunk rest ih => rw [feedEach, StreamCode.results, ih]; rfl

/-- Bytes whose header is refused, or a frame whose message is; `n` of them
show it. -/
def Malformed (limit : Nat) (bad : Bytes) (n : Nat) : Prop :=
  (n = headerSize ∧ headerSize ≤ bad.length ∧
      ∃ e, decodeHeader (bad.take headerSize) limit = .error e) ∨
    (n = bad.length ∧ ∃ f e, Frame.Carried limit f ∧ bad = f.wire ∧ validateMessage f = .error e)

theorem Malformed.rejected {limit : Nat} {bad : Bytes} {n : Nat} (h : Malformed limit bad n) :
    StreamCode.Malformed (front limit) bad n := by
  rcases h with ⟨rfl, hlen, e, he⟩ | ⟨rfl, f, e, hf, rfl, hvalid⟩
  · refine ⟨by decide, hlen, ?_, ?_⟩
    · intro k hk
      have hshort : (bad.take k).length < headerSize := by
        rw [List.length_take]; omega
      simp only [front, hshort, if_true]
    · intro k hk
      have hlong : ¬ (bad.take k).length < headerSize := by
        rw [List.length_take]; omega
      have htake : (bad.take k).take headerSize = bad.take headerSize := by
        rw [List.take_take, Nat.min_eq_left hk]
      exact ⟨e, bad.take k, by simp only [front, hlong, if_false, htake, he], Or.inl rfl⟩
  · have hlen := f.length_wire
    refine ⟨by rw [hlen]; simp [headerSize], Nat.le_refl _, ?_, ?_⟩
    · intro k hk
      apply front_part hf (List.take_prefix _ _)
      rw [List.length_take]
      omega
    · intro k hk
      rw [List.take_of_length_le hk]
      have hfront := front_wire_append hf []
      rw [List.append_nil, hvalid] at hfront
      exact ⟨e, [], hfront, Or.inr ⟨rfl, hk⟩⟩

/-- **The frames before a malformed one are all delivered exactly when some
`feed` ends between the last of them and the byte that shows the malformation.** -/
theorem delivered_before_malformed_iff (limit : Nat) {frames : List Frame} {bad : Bytes} {n : Nat}
    (hframes : ∀ f ∈ frames, Frame.Carried limit f ∧ validateMessage f = .ok ())
    (hbad : Malformed limit bad n) {chunks : List Bytes}
    (hcut : chunks.flatten = frames.flatMap Frame.wire ++ bad) :
    StreamCode.delivered (feedEach { maximum := limit } chunks) = frames ↔
      ∃ m, (frames.flatMap Frame.wire).length ≤ (chunks.take m).flatten.length ∧
        (chunks.take m).flatten.length < (frames.flatMap Frame.wire).length + n := by
  have hreads : ∀ f ∈ frames, StreamCode.Reads (front limit) Frame.wire f :=
    fun f hf => reads_wire (hframes f hf).1 (hframes f hf).2
  have hstart : StreamCode.Waiting Frame.wire frames bad n [] := by
    cases frames with
    | nil => exact Or.inr ⟨rfl, 0, hbad.rejected.pos, rfl⟩
    | cons f rest =>
      refine Or.inl ⟨List.cons_ne_nil _ _, List.nil_prefix, ?_⟩
      intro g hg
      exact List.length_pos_iff.mpr (hreads g (List.mem_of_mem_head? hg)).nonempty
  rw [feedEach_eq_results]
  exact hbad.rejected.delivered_from chunks hreads hstart hcut

end

/-- A chunk of data and 16 bytes that are no header, cut between them. -/
theorem delivered_before_malformed_cut :
    letI := asciiLibrary
    let frames : List Frame := [{ messageType := .chunkData, payload := [0, 0, 0, 7, 1] }]
    let bad : Bytes := List.replicate 16 0
    StreamCode.delivered (feedEach { maximum := 8 } [frames.flatMap Frame.wire, bad]) = frames := by
  let _ := asciiLibrary
  intro frames bad
  have hframes : ∀ f ∈ frames, Frame.Carried 8 f ∧ validateMessage f = .ok () := by
    intro f hf
    obtain rfl := List.mem_singleton.mp hf
    exact ⟨⟨by decide, rfl, by decide, by decide⟩, rfl⟩
  have hbad : Malformed 8 bad headerSize :=
    Or.inl ⟨rfl, by decide, ⟨.protocolError, str "invalid protocol magic"⟩, by decide +kernel⟩
  have hcut : [frames.flatMap Frame.wire, bad].flatten = frames.flatMap Frame.wire ++ bad := by simp
  exact (delivered_before_malformed_iff 8 hframes hbad hcut).mpr ⟨1, by decide⟩

/-- In one piece, nothing is delivered. -/
theorem malformed_frame_takes_others :
    letI := asciiLibrary
    let frames : List Frame := [{ messageType := .chunkData, payload := [0, 0, 0, 7, 1] }]
    let bad : Bytes := List.replicate 16 0
    StreamCode.delivered (feedEach { maximum := 8 } [frames.flatMap Frame.wire ++ bad]) = [] ∧
      StreamCode.delivered (feedEach { maximum := 8 } [frames.flatMap Frame.wire, bad]) = frames := by
  let _ := asciiLibrary
  intro frames bad
  exact ⟨by decide +kernel, by decide +kernel⟩

end FrameDecoder

end Litecast
