import Litecast.Lib.BigEndian
import Litecast.Lib.StreamCode
import Litecast.JsonText

/-! `protocol.py`: control frames, the message in each kind of frame, and the
incremental decoder. -/

namespace Litecast

namespace Protocol

def magic : Bytes := [0x53, 0x43, 0x53, 0x54]
def protocolVersion : Nat := 1
def maxPayloadSize : Nat := 64 * 1024 * 1024
def maxTextSize : Nat := 64 * 1024
def maxVersionNameSize : Nat := 1024
def maxBatchShards : Nat := 64
def headerSize : Nat := 16
def chunkPrefixSize : Nat := 4

abbrev error {α : Type} (message : Str) : Except Exc α := .error ⟨.protocolError, message⟩

end Protocol

open Protocol

inductive MessageType where
  | getVersion | metadata | chunkData | error | shutdown | getShard | shardMetadata
  | waitVersion | versionAvailable | getShards | shardsMetadata
  deriving DecidableEq

namespace MessageType

def code : MessageType → Nat
  | getVersion => 1
  | metadata => 2
  | chunkData => 3
  | error => 4
  | shutdown => 5
  | getShard => 6
  | shardMetadata => 7
  | waitVersion => 8
  | versionAvailable => 9
  | getShards => 10
  | shardsMetadata => 11

def all : List MessageType :=
  [getVersion, metadata, chunkData, error, shutdown, getShard, shardMetadata, waitVersion,
    versionAvailable, getShards, shardsMetadata]

/-- `MessageType(code)`, `none` where it raises. -/
def ofCode? (code : Nat) : Option MessageType := all.find? (·.code = code)

/-- `METADATA` and `CLEAN_SHUTDOWN` are aliases of the names given first. -/
def name : MessageType → Str
  | getVersion => str "GET_VERSION"
  | metadata => str "VERSION_METADATA"
  | chunkData => str "CHUNK_DATA"
  | error => str "ERROR"
  | shutdown => str "SHUTDOWN"
  | getShard => str "GET_SHARD"
  | shardMetadata => str "SHARD_METADATA"
  | waitVersion => str "WAIT_VERSION"
  | versionAvailable => str "VERSION_AVAILABLE"
  | getShards => str "GET_SHARDS"
  | shardsMetadata => str "SHARDS_METADATA"

@[simp] theorem ofCode_code (kind : MessageType) : ofCode? kind.code = some kind := by
  cases kind <;> rfl

theorem code_of_ofCode {code : Nat} {kind : MessageType} (h : ofCode? code = some kind) :
    kind.code = code := by
  simpa using List.find?_some h

end MessageType

structure Frame where
  messageType : MessageType
  payload : Bytes := []
  flags : Nat := 0
  protocolVersion : Nat := Protocol.protocolVersion
  deriving DecidableEq

/-! ## Headers -/

/-- The fields of `struct.Struct("!4sBBHQ")`. -/
structure Header where
  magic : Bytes
  version : Nat
  rawType : Nat
  flags : Nat
  payloadSize : Nat

def Header.pack (h : Header) : Bytes :=
  h.magic ++ BigEndian.encode 1 h.version ++ BigEndian.encode 1 h.rawType ++
    BigEndian.encode 2 h.flags ++ BigEndian.encode 8 h.payloadSize

def Header.unpack (raw : Bytes) : Header where
  magic := raw.take 4
  version := BigEndian.decode ((raw.drop 4).take 1)
  rawType := BigEndian.decode ((raw.drop 5).take 1)
  flags := BigEndian.decode ((raw.drop 6).take 2)
  payloadSize := BigEndian.decode ((raw.drop 8).take 8)

def encodeFrame (messageType : MessageType) (payload : Bytes := []) (flags : Int := 0)
    (version : Int := protocolVersion) (limit : Nat := maxPayloadSize) : Except Exc Bytes :=
  if limit < payload.length then error (str "payload exceeds maximum size")
  else if ¬ (0 ≤ flags ∧ flags ≤ 0xFFFF) then error (str "flags must fit in uint16")
  else if ¬ (0 ≤ version ∧ version ≤ 0xFF) then error (str "protocol version must fit in uint8")
  else
    .ok (Header.pack ⟨magic, version.toNat, messageType.code, flags.toNat, payload.length⟩
      ++ payload)

/-- The message type, flags and payload size. -/
def decodeHeader (raw : Bytes) (limit : Nat := maxPayloadSize) :
    Except Exc (MessageType × Nat × Nat) :=
  if raw.length ≠ headerSize then error (str "invalid header size")
  else
    let header := Header.unpack raw
    if header.magic ≠ magic then error (str "invalid protocol magic")
    else if header.version ≠ protocolVersion then
      error (str "unsupported protocol version: " ++ decimal header.version)
    else match MessageType.ofCode? header.rawType with
      | none => error (str "unknown message type: " ++ decimal header.rawType)
      | some messageType =>
        if limit < header.payloadSize then error (str "declared payload exceeds maximum size")
        else .ok (messageType, header.flags, header.payloadSize)

/-! ## Messages -/

def requireType (frame : Frame) (expected : MessageType) : Except Exc Unit :=
  if frame.messageType = expected then .ok ()
  else error (str "expected " ++ expected.name ++ str " frame")

/-- `value.encode("utf-8")` -/
def encodeText? (value : Str) : Except Exc Bytes :=
  match encodeUtf8 value with
  | none => .error ⟨.unicodeEncodeError, []⟩
  | some payload => .ok payload

def encodeText (value : Str) (label : Str) (maximum : Nat) : Except Exc Bytes := do
  let payload ← encodeText? value
  if payload = [] then error (label ++ str " must not be empty")
  else if maximum < payload.length then error (label ++ str " exceeds maximum size")
  else .ok payload

def decodeText (payload : Bytes) (label : Str) (maximum : Nat) : Except Exc Str :=
  if payload = [] then error (label ++ str " must not be empty")
  else if maximum < payload.length then error (label ++ str " exceeds maximum size")
  else match decodeUtf8 payload with
    | none => error (label ++ str " is not valid UTF-8")
    | some text => .ok text

def encodeGetVersion (version : Str) : Except Exc Bytes := do
  encodeFrame .getVersion (← encodeText version (str "version") maxVersionNameSize)

def decodeGetVersion (frame : Frame) : Except Exc Str := do
  requireType frame .getVersion
  decodeText frame.payload (str "version") maxVersionNameSize

def encodeWaitVersion (version : Str) : Except Exc Bytes := do
  encodeFrame .waitVersion (← encodeText version (str "version") maxVersionNameSize)

def decodeWaitVersion (frame : Frame) : Except Exc Str := do
  requireType frame .waitVersion
  decodeText frame.payload (str "version") maxVersionNameSize

def encodeVersionAvailable (version : Str) : Except Exc Bytes := do
  encodeFrame .versionAvailable (← encodeText version (str "version") maxVersionNameSize)

def decodeVersionAvailable (frame : Frame) : Except Exc Str := do
  requireType frame .versionAvailable
  decodeText frame.payload (str "version") maxVersionNameSize

def encodeError (message : Str) : Except Exc Bytes := do
  encodeFrame .error (← encodeText message (str "error") maxTextSize)

def decodeError (frame : Frame) : Except Exc Str := do
  requireType frame .error
  decodeText frame.payload (str "error") maxTextSize

def encodeChunkData (index : Int) (body : Bytes) : Except Exc Bytes :=
  if ¬ (0 ≤ index ∧ index ≤ 0xFFFFFFFF) then error (str "chunk index must fit in uint32")
  else if maxPayloadSize - chunkPrefixSize < body.length then
    error (str "chunk exceeds maximum size")
  else encodeFrame .chunkData (BigEndian.encode chunkPrefixSize index.toNat ++ body)

def decodeChunkData (frame : Frame) : Except Exc (Nat × Bytes) := do
  requireType frame .chunkData
  if frame.payload.length < chunkPrefixSize then error (str "chunk frame is missing its index")
  else
    .ok (BigEndian.decode (frame.payload.take chunkPrefixSize),
      frame.payload.drop chunkPrefixSize)

/-! ## Messages in JSON -/

/-- `not version or len(version.encode("utf-8")) > MAX_VERSION_NAME_SIZE` does
not hold. -/
def fitsVersionName (version : Str) : Except Exc Bool :=
  if version = [] then .ok false
  else do
    let payload ← encodeText? version
    .ok (payload.length ≤ maxVersionNameSize)

def fitsUint32 (index : Int) : Bool := 0 ≤ index ∧ index ≤ 0xFFFFFFFF

section
variable [Library]

def encodeGetShard (version : Str) (index : Int) : Except Exc Bytes := do
  if (← fitsVersionName version) = false then error (str "invalid version")
  else if fitsUint32 index = false then error (str "shard index must fit in uint32")
  else
    encodeFrame .getShard
      (dumps (.obj [(str "version", .str version), (str "index", .int index)]))

def decodeGetShard (frame : Frame) : Except Exc (Str × Nat) := do
  requireType frame .getShard
  let invalid {α : Type} : Except Exc α := error (str "invalid shard request")
  match loads frame.payload with
  | none => invalid
  | some value =>
    if value.hasExactly [str "version", str "index"] = false then invalid
    else match (value.get? (str "version")).bind Json.string? with
      | none => invalid
      | some version =>
        if (← fitsVersionName version) = false then invalid
        else match (value.get? (str "index")).bind Json.plainInt? with
          | none => invalid
          | some index =>
            if fitsUint32 index then .ok (version, index.toNat) else invalid

def encodeGetShards (version : Str) (indices : List Int) : Except Exc Bytes := do
  let invalid {α : Type} : Except Exc α := error (str "invalid batched shard request")
  if (← fitsVersionName version) = false then invalid
  else if indices = [] ∨ maxBatchShards < indices.length ∨ ¬ indices.Nodup ∨
      indices.any (fun index => !fitsUint32 index) then invalid
  else
    encodeFrame .getShards
      (dumps (.obj [(str "version", .str version), (str "indices", .arr (indices.map .int))]))

/-- `set(indices)` needs every element hashable, whatever its type; elements
that are not integers are turned away only after it. -/
def decodeGetShards (frame : Frame) : Except Exc (Str × List Nat) := do
  requireType frame .getShards
  let invalid {α : Type} : Except Exc α := error (str "invalid batched shard request")
  match loads frame.payload with
  | none => invalid
  | some value =>
    if value.hasExactly [str "version", str "indices"] = false then invalid
    else match (value.get? (str "version")).bind Json.string? with
      | none => invalid
      | some version =>
        if (← fitsVersionName version) = false then invalid
        else match value.get? (str "indices") with
          | some (.arr indices) =>
            if indices = [] ∨ maxBatchShards < indices.length then invalid
            else if indices.any (fun j => !j.hashable) then
              .error ⟨.typeError, str "unhashable type"⟩
            else match indices.mapM Json.plainInt? with
              | none => invalid
              | some indices =>
                if indices.Nodup ∧ indices.all fitsUint32 then
                  .ok (version, indices.map Int.toNat)
                else invalid
          | _ => invalid

/-- `encode_metadata`; the metadata is a mapping of text to JSON values. -/
def encodeMetadata (metadata : List (Str × Json)) : Except Exc Bytes :=
  match dumpsUnicode (.obj metadata) with
  | none => error (str "metadata is not JSON serializable")
  | some payload =>
    if maxTextSize < payload.length then error (str "metadata exceeds maximum size")
    else encodeFrame .metadata payload

def decodeObject (payload : Bytes) (invalid notObject : Str) : Except Exc Json :=
  match loads payload with
  | none => error invalid
  | some value => if value.isObject then .ok value else error notObject

def decodeMetadata (frame : Frame) : Except Exc Json := do
  requireType frame .metadata
  if maxTextSize < frame.payload.length then error (str "metadata exceeds maximum size")
  else
    decodeObject frame.payload (str "invalid metadata JSON")
      (str "metadata must decode to an object")

def encodeObject (kind : MessageType) (metadata : List (Str × Json)) : Except Exc Bytes :=
  let payload := dumps (.obj metadata)
  if maxTextSize < payload.length then error (str "metadata exceeds maximum size")
  else encodeFrame kind payload

def encodeShardMetadata (metadata : List (Str × Json)) : Except Exc Bytes :=
  encodeObject .shardMetadata metadata

def decodeShardMetadata (frame : Frame) : Except Exc Json := do
  requireType frame .shardMetadata
  decodeObject frame.payload (str "invalid shard metadata")
    (str "shard metadata must decode to an object")

def encodeShardsMetadata (metadata : List (Str × Json)) : Except Exc Bytes :=
  encodeObject .shardsMetadata metadata

def decodeShardsMetadata (frame : Frame) : Except Exc Json := do
  requireType frame .shardsMetadata
  decodeObject frame.payload (str "invalid batched shard metadata")
    (str "batched shard metadata must decode to an object")

/-! ## Decoding -/

def validateMessage (frame : Frame) : Except Exc Unit :=
  match frame.messageType with
  | .shutdown =>
    if frame.payload ≠ [] then error (str "shutdown frame must have an empty payload") else .ok ()
  | .getVersion => (decodeText frame.payload (str "version") maxVersionNameSize).map fun _ => ()
  | .getShard => (decodeGetShard frame).map fun _ => ()
  | .getShards => (decodeGetShards frame).map fun _ => ()
  | .waitVersion => (decodeWaitVersion frame).map fun _ => ()
  | .versionAvailable => (decodeVersionAvailable frame).map fun _ => ()
  | .chunkData =>
    if frame.payload.length < chunkPrefixSize then error (str "chunk frame is missing its index")
    else .ok ()
  | .metadata =>
    if maxTextSize < frame.payload.length then error (str "text payload exceeds maximum size")
    else (decodeMetadata frame).map fun _ => ()
  | .shardMetadata => (decodeShardMetadata frame).map fun _ => ()
  | .shardsMetadata => (decodeShardsMetadata frame).map fun _ => ()
  | .error => (decodeText frame.payload (str "error") maxTextSize).map fun _ => ()

/-- Exactly one frame. -/
def decodeFrame (raw : Bytes) (limit : Nat := maxPayloadSize) : Except Exc Frame :=
  if raw.length < headerSize then error (str "truncated frame header")
  else match decodeHeader (raw.take headerSize) limit with
    | .error e => .error e
    | .ok (messageType, flags, payloadSize) =>
      let expected := headerSize + payloadSize
      if raw.length < expected then error (str "truncated frame payload")
      else if expected < raw.length then error (str "trailing bytes after frame")
      else
        let frame : Frame := { messageType, payload := raw.drop headerSize, flags }
        match validateMessage frame with
        | .error e => .error e
        | .ok () => .ok frame

structure FrameDecoder where
  maximum : Nat := maxPayloadSize
  buffer : Bytes := []

namespace FrameDecoder

/-- One turn of the loop in `feed`. The frame's bytes are gone from the buffer
before its message is checked. -/
def front (maximum : Nat) (buffer : Bytes) : StreamCode.Front UInt8 Frame Exc :=
  if buffer.length < headerSize then .incomplete
  else match decodeHeader (buffer.take headerSize) maximum with
    | .error e => .rejected e buffer
    | .ok (messageType, flags, payloadSize) =>
      let frameSize := headerSize + payloadSize
      if buffer.length < frameSize then .incomplete
      else
        let frame : Frame :=
          { messageType, payload := (buffer.take frameSize).drop headerSize, flags }
        match validateMessage frame with
        | .error e => .rejected e (buffer.drop frameSize)
        | .ok () => .item frame (buffer.drop frameSize)

def feed (d : FrameDecoder) (data : Bytes) : Except Exc (List Frame) × FrameDecoder :=
  let (frames, buffer) := StreamCode.feed (front d.maximum) d.buffer data
  (frames, { d with buffer })

/-- The frames of one `feed` after another, up to the first that raises. -/
def feedAll (d : FrameDecoder) (chunks : List Bytes) : Except Exc (List Frame) × FrameDecoder :=
  let (frames, buffer) := StreamCode.feedAll (front d.maximum) d.buffer chunks
  (frames, { d with buffer })

end FrameDecoder

end

end Litecast
