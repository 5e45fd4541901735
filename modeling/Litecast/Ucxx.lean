import Litecast.Protocol
import Litecast.Membership
import Litecast.Store

/-! `transport/ucxx.py`: what the server answers to one request, and what the
client does with whatever arrives. -/

namespace Litecast.Ucxx

def maxMetadataSize : Nat := 16 * 1024
def maxShardSize : Nat := 1024 * 1024 * 1024
def maxShardCount : Nat := 1000000

/-- One arrival at an endpoint: a control object, a payload, or a payload that
breaks off. -/
inductive Message where
  | obj (frame : Bytes)
  | buffer (data : Bytes)
  | cut (data : Bytes)
  deriving DecidableEq

/-- All that arrives at the client after it has sent a request. -/
abbrev Peer := Bytes → List Message

abbrev protocolViolation {α : Type} (message : Str) : Except Exc α :=
  .error ⟨.transportProtocolError, message⟩

/-- `_CHECKSUM_RE.fullmatch` -/
def matchesChecksum (s : Str) : Bool :=
  s.length = 64 && s.all fun c => (48 ≤ c.val && c.val ≤ 57) || (97 ≤ c.val && c.val ≤ 102)

def validateVersion (version : Str) : Except Exc Unit :=
  match fitsVersionName version with
  | .error e => .error e
  | .ok fits =>
    if fits = false ∨ ⟨0, by decide⟩ ∈ version then protocolViolation (str "invalid version name")
    else .ok ()

/-! ## Version metadata -/

/-- `_metadata_message` -/
def metadataMessage (metadata : VersionMetadata) : List (Str × Json) :=
  [(str "name", .str metadata.name), (str "total_size", .int metadata.totalSize),
    (str "shard_size", .int metadata.shardSize), (str "shard_count", .int metadata.shardCount),
    (str "checksum", .str metadata.checksum), (str "status", .str (str "ok"))]

def plainInt (value : Json) (label : Str) (minimum maximum : Nat) : Except Exc Nat :=
  match value.plainInt? with
  | some n =>
    if minimum ≤ n ∧ n ≤ maximum then .ok n.toNat else protocolViolation (str "invalid " ++ label)
  | none => protocolViolation (str "invalid " ++ label)

def validateMetadata (value : Json) (expectedName : Str) (maximum : Nat) :
    Except Exc VersionMetadata := do
  let item (key : Str) := (value.get? key).getD .null
  if value.hasExactly [str "status", str "name", str "total_size", str "shard_size",
      str "shard_count", str "checksum"] = false ∨ (item (str "status")).string? ≠ some (str "ok") then
    protocolViolation (str "malformed version metadata")
  else if (item (str "name")).string? ≠ some expectedName then
    protocolViolation (str "metadata version name mismatch")
  else
    let totalSize ← plainInt (item (str "total_size")) (str "total_size") 0 maximum
    let shardSize ← plainInt (item (str "shard_size")) (str "shard_size") 1 maxShardSize
    let shardCount ← plainInt (item (str "shard_count")) (str "shard_count") 0 maxShardCount
    if shardCount ≠ shardCountOf totalSize shardSize then
      protocolViolation (str "inconsistent shard count")
    else
      match (item (str "checksum")).string? with
      | some checksum =>
        if matchesChecksum checksum then
          .ok ⟨expectedName, totalSize, shardSize, shardCount, checksum⟩
        else protocolViolation (str "invalid BLAKE3 checksum")
      | none => protocolViolation (str "invalid BLAKE3 checksum")

/-- `start` and `end` in both chunk loops, the server's and the client's. -/
def chunkSpan (metadata : VersionMetadata) (index : Nat) : Nat × Nat :=
  let start := index * metadata.shardSize
  (start, min (start + metadata.shardSize) metadata.totalSize)

/-! ## Server -/

structure Server where
  store : CheckpointStore
  maxTotalSize : Nat
  /-- The version is announced before the request's deadline. -/
  announced : Str → Bool

section
variable [Library]

/-- An entry of the `shards` list in the answer to a batch. -/
def shardEntry (index : Nat) (shard : Bytes) (checksum : Str) : Json :=
  .obj [(str "index", .int index), (str "size", .int shard.length), (str "checksum", .str checksum)]

/-- The requested shards the store can give, in the order of the request. -/
def availableShards (store : CheckpointStore) (version : Str) (indices : List Nat) :
    List (Nat × Bytes × Str) :=
  indices.filterMap fun (index : Nat) =>
    match store.getShardWithChecksum version index with
    | .error _ => none
    | .ok (shard, checksum) => some (index, shard, checksum)

def unavailableShards (store : CheckpointStore) (version : Str) (indices : List Nat) : List Nat :=
  indices.filter fun (index : Nat) =>
    match store.getShardWithChecksum version index with
    | .error _ => true
    | .ok _ => false

/-- An empty payload is not sent. -/
def payload (shard : Bytes) : List Message := if shard = [] then [] else [.buffer shard]

/-- The bulk messages of a complete version. -/
def versionChunks (metadata : VersionMetadata) (data : Bytes) : List Message :=
  (List.range metadata.shardCount).map fun index =>
    let (start, stop) := chunkSpan metadata index
    .buffer (Pieces.slice data start stop)

/-- The messages sent for one request. Whatever raises does so before the
first of them. -/
def serveRequest (server : Server) (request : Frame) : Except Exc (List Message) := do
  match request.messageType with
  | .waitVersion =>
    let version ← decodeWaitVersion request
    if server.announced version then return [.obj (← encodeVersionAvailable version)]
    else return [.obj (← encodeError (str "version notification timed out"))]
  | .getShards =>
    let (version, indices) ← decodeGetShards request
    let available := availableShards server.store version indices
    let unavailable := unavailableShards server.store version indices
    let reply ← encodeShardsMetadata
      [(str "version", .str version),
        (str "shards", .arr (available.map fun (index, shard, checksum) =>
          shardEntry index shard checksum)),
        (str "unavailable", .arr (unavailable.map fun index : Nat => .int index))]
    return .obj reply :: available.flatMap fun (_, shard, _) => payload shard
  | .getShard =>
    let (version, index) ← decodeGetShard request
    match server.store.getShardWithChecksum version index with
    | .error _ => return [.obj (← encodeError (str "shard not available"))]
    | .ok (shard, checksum) =>
      let reply ← encodeShardMetadata
        [(str "status", .str (str "ok")), (str "version", .str version), (str "index", .int index),
          (str "size", .int shard.length), (str "checksum", .str checksum)]
      return .obj reply :: payload shard
  | _ =>
    let version ← decodeGetVersion request
    match server.store.getMetadata version, server.store.get version with
    | some metadata, some data =>
      if server.maxTotalSize < metadata.totalSize then
        return [.obj (← encodeError (str "version exceeds server limit"))]
      else
        let _ ← validateMetadata (.obj (metadataMessage metadata)) version server.maxTotalSize
        let reply ← encodeMetadata (metadataMessage metadata)
        return .obj reply :: versionChunks metadata data
    | _, _ => return [.obj (← encodeError (str "version not found"))]

/-- One turn of `_handle_endpoint`. A failing request is answered only if it
is the first of the endpoint. -/
def handleRequest (server : Server) (servedRequest : Bool) (raw : Bytes) : List Message :=
  match decodeFrame raw maxMetadataSize >>= serveRequest server with
  | .ok messages => messages
  | .error e =>
    if servedRequest then []
    else
      let message := e.message.take 1024
      match encodeError (if message = [] then str "invalid request" else message) with
      | .ok reply => [.obj reply]
      | .error _ => []

/-! ## Client -/

/-- A peer error, a time-out or a message of the other kind. -/
def transferFailed : Exc := ⟨.runtimeError, str "transfer failed"⟩

def recvObj : List Message → Except Exc Bytes × List Message
  | .obj frame :: rest => (.ok frame, rest)
  | inbox => (.error transferFailed, inbox)

/-- `recv` into memory that holds `target`: the outcome, what it holds then and
what is left to read. -/
def recv (target : Bytes) : List Message → Except Exc Unit × Bytes × List Message
  | .buffer data :: rest =>
    if data.length = target.length then (.ok (), data, rest)
    else (.error transferFailed, Pieces.write target 0 (data.take target.length), rest)
  | .cut data :: rest =>
    (.error transferFailed, Pieces.write target 0 (data.take target.length), rest)
  | inbox => (.error transferFailed, target, inbox)

/-- What `_fetch`, `_fetch_shard` and the persistent calls turn an exception into. -/
def asUnavailable (message : Str) (e : Exc) : Exc :=
  match e.cls with
  | .transportProtocolError | .transportIntegrityError | .versionUnavailableError => e
  | _ => ⟨.ucxxUnavailableError, message⟩

/-- The message in a reply frame; an error frame raises. -/
def readReply (raw : Bytes) (decode : Frame → Except Exc Json) : Except Exc Json := do
  let frame ← decodeFrame raw maxMetadataSize
  if frame.messageType = .error then
    let message ← decodeError frame
    .error ⟨.versionUnavailableError, message⟩
  else decode frame

/-! ### One shard -/

/-- Size and checksum in the reply to `GET_SHARD`. -/
def readShardReply (raw : Bytes) (version : Str) (index : Nat) : Except Exc (Nat × Str) := do
  let value ← readReply raw decodeShardMetadata
  let item (key : Str) := (value.get? key).getD .null
  let malformed : Except Exc (Nat × Str) := protocolViolation (str "malformed shard metadata")
  if value.hasExactly [str "status", str "version", str "index", str "size", str "checksum"] = false ∨
      (item (str "status")).string? ≠ some (str "ok") ∨
      (item (str "version")).string? ≠ some version ∨ (item (str "index")).eqInt index = false then
    malformed
  else
    match (item (str "size")).plainInt?, (item (str "checksum")).string? with
    | some size, some checksum =>
      if 0 ≤ size ∧ size ≤ maxShardSize ∧ matchesChecksum checksum then .ok (size.toNat, checksum)
      else malformed
    | _, _ => malformed

structure ShardFetchResult where
  data : Bytes
  version : Str
  index : Nat
  checksum : Str

/-- An exchange on one endpoint: its outcome, what the caller's memory holds
after it and what is left to read. -/
structure Exchange (α Memory : Type) where
  result : Except Exc α
  memory : Memory
  unread : List Message

/-- `target` is the caller's memory, or `none` where the call allocates. -/
def exchangeShard (peer : Peer) (version : Str) (index : Nat) (expectedChecksum : Option Str)
    (target : Option Bytes) : Exchange ShardFetchResult (Option Bytes) :=
  match encodeGetShard version index with
  | .error e => ⟨.error e, target, []⟩
  | .ok request =>
    match recvObj (peer request) with
    | (.error e, inbox) => ⟨.error e, target, inbox⟩
    | (.ok raw, inbox) =>
      match readShardReply raw version index with
      | .error e => ⟨.error e, target, inbox⟩
      | .ok (size, checksum) =>
        if target.any (fun memory => memory.length ≠ size) then
          ⟨protocolViolation (str "target size does not match shard"), target, inbox⟩
        else
          let data := target.getD (List.replicate size 0)
          let (outcome, data, inbox) := if data = [] then (.ok (), data, inbox) else recv data inbox
          let memory := target.map fun _ => data
          match outcome with
          | .error e => ⟨.error e, memory, inbox⟩
          | .ok () =>
            let digest := hexdigest data
            if digest ≠ checksum ∨ expectedChecksum.any (digest ≠ ·) then
              ⟨.error ⟨.transportIntegrityError, str "shard BLAKE3 checksum mismatch"⟩, memory,
                inbox⟩
            else ⟨.ok ⟨data, version, index, digest⟩, memory, inbox⟩

/-! ### A batch of shards -/

structure BatchShardFetchResult where
  completed : List Nat
  unavailable : List Nat
  deriving DecidableEq

abbrev Targets := OrderedDict Nat Bytes

/-- The key a number in JSON equals: `True` and `1.0` find the key 1. -/
def keyOf? (value : Json) : Option Nat :=
  value.number?.bind fun q => if q.den = 1 ∧ 0 ≤ q.num then some q.num.toNat else none

abbrev malformedBatch {α : Type} : Except Exc α :=
  protocolViolation (str "malformed batched shard metadata")

/-- The test on one entry of `shards`. -/
def readShardEntry (targets : Targets) (seen : List Nat) (entry : Json) : Except Exc (Nat × Str) :=
  let item (key : Str) := (entry.get? key).getD .null
  if entry.hasExactly [str "index", str "size", str "checksum"] = false then malformedBatch
  else if (item (str "index")).hashable = false then typeError (str "unhashable type")
  else
    match keyOf? (item (str "index")) with
    | none => malformedBatch
    | some index =>
      match targets.get? index, (item (str "checksum")).string? with
      | some target, some checksum =>
        if index ∈ seen ∨ (item (str "size")).eqInt target.length = false ∨
            matchesChecksum checksum = false then malformedBatch
        else .ok (index, checksum)
      | _, _ => malformedBatch

/-- The loop over `shards`; `seen` are the indices of the entries before. -/
def readShardEntries (targets : Targets) : List Nat → List Json → Except Exc (List (Nat × Str))
  | _, [] => .ok []
  | seen, entry :: rest => do
    let first ← readShardEntry targets seen entry
    return first :: (← readShardEntries targets (first.1 :: seen) rest)

abbrev inconsistentBatch {α : Type} : Except Exc α :=
  protocolViolation (str "inconsistent batched shard metadata")

def readUnavailable (targets : Targets) (seen : List Nat) (values : List Json) :
    Except Exc (List Nat) :=
  match values.mapM Json.plainInt? with
  | none => inconsistentBatch
  | some values =>
    let indices := values.map Int.toNat
    if values.any (fun index => index < 0 || !targets.contains index.toNat) ∨ ¬ indices.Nodup ∨
        targets.keys.any (fun index => index ∉ seen ∧ index ∉ indices) ∨
        indices.any (· ∈ seen) then inconsistentBatch
    else .ok indices

/-- The announced shards with their checksums and the unavailable indices. -/
def readBatchReply (raw : Bytes) (version : Str) (targets : Targets) :
    Except Exc (List (Nat × Str) × List Nat) := do
  let value ← readReply raw decodeShardsMetadata
  let item (key : Str) := (value.get? key).getD .null
  if value.hasExactly [str "version", str "shards", str "unavailable"] = false ∨
      (item (str "version")).string? ≠ some version then malformedBatch
  else
    match item (str "shards"), item (str "unavailable") with
    | .arr entries, .arr values =>
      let available ← readShardEntries targets [] entries
      let unavailable ← readUnavailable targets (available.map Prod.fst) values
      return (available, unavailable)
    | _, _ => malformedBatch

/-- The loop that receives the announced shards, each into its target. -/
def receiveShards (expectedChecksums : Nat → Str) :
    List (Nat × Str) → Targets → List Message → Exchange (List Nat) Targets
  | [], targets, inbox => ⟨.ok [], targets, inbox⟩
  | (index, checksum) :: rest, targets, inbox =>
    let target := (targets.get? index).getD []
    let (outcome, data, inbox) := if target = [] then (.ok (), target, inbox) else recv target inbox
    let targets := targets.insert index data
    match outcome with
    | .error e => ⟨.error e, targets, inbox⟩
    | .ok () =>
      let digest := hexdigest data
      if digest ≠ checksum ∨ digest ≠ expectedChecksums index then
        ⟨.error ⟨.transportIntegrityError, str "batched shard BLAKE3 checksum mismatch"⟩, targets,
          inbox⟩
      else
        let more := receiveShards expectedChecksums rest targets inbox
        ⟨more.result.map (index :: ·), more.memory, more.unread⟩

def exchangeShards (peer : Peer) (version : Str) (targets : Targets)
    (expectedChecksums : Nat → Str) : Exchange BatchShardFetchResult Targets :=
  match encodeGetShards version (targets.keys.map Int.ofNat) with
  | .error e => ⟨.error e, targets, []⟩
  | .ok request =>
    match recvObj (peer request) with
    | (.error e, inbox) => ⟨.error e, targets, inbox⟩
    | (.ok raw, inbox) =>
      match readBatchReply raw version targets with
      | .error e => ⟨.error e, targets, inbox⟩
      | .ok (available, unavailable) =>
        let received := receiveShards expectedChecksums available targets inbox
        ⟨received.result.map (⟨·, unavailable⟩), received.memory, received.unread⟩

/-! ### A complete version -/

/-- The loop over the chunks from `index` on; each is received into its slice. -/
def receiveChunks (metadata : VersionMetadata) :
    List Nat → Bytes → List Message → Except Exc Unit × Bytes × List Message
  | [], data, inbox => (.ok (), data, inbox)
  | index :: rest, data, inbox =>
    let (start, stop) := chunkSpan metadata index
    let (outcome, chunk, inbox) := recv (Pieces.slice data start stop) inbox
    let data := Pieces.write data start chunk
    match outcome with
    | .error e => (.error e, data, inbox)
    | .ok () => receiveChunks metadata rest data inbox

structure FetchResult where
  data : Bytes
  metadata : VersionMetadata
  deriving DecidableEq

/-- `_fetch` before its `except` clauses. -/
def exchangeVersion (peer : Peer) (version : Str) (maximum : Nat) : Exchange FetchResult Unit :=
  match encodeGetVersion version with
  | .error e => ⟨.error e, (), []⟩
  | .ok request =>
    match recvObj (peer request) with
    | (.error e, inbox) => ⟨.error e, (), inbox⟩
    | (.ok raw, inbox) =>
      match readReply raw decodeMetadata >>= (validateMetadata · version maximum) with
      | .error e => ⟨.error e, (), inbox⟩
      | .ok metadata =>
        let (outcome, data, inbox) := receiveChunks metadata (List.range metadata.shardCount)
          (List.replicate metadata.totalSize 0) inbox
        match outcome with
        | .error e => ⟨.error e, (), inbox⟩
        | .ok () =>
          if hexdigest data ≠ metadata.checksum then
            ⟨.error ⟨.transportIntegrityError, str "BLAKE3 checksum mismatch"⟩, (), inbox⟩
          else ⟨.ok ⟨data, metadata⟩, (), inbox⟩

def fetchVersion (peer : Peer) (version : Str) (maximum : Nat) : Except Exc FetchResult := do
  validateVersion version
  (exchangeVersion peer version maximum).result.mapError (asUnavailable (str "UCXX transfer failed"))

end

end Litecast.Ucxx
