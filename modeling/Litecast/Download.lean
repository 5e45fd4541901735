import Litecast.Listing
import Litecast.Streaming

/-! `ClientNode.download_version_buffer`: a complete version over one of three
paths. -/

namespace Litecast

/-- All that reaches a client in one call of `download_version_buffer`. -/
structure VersionAnswers where
  /-- What `download_bytes` returns of the distribution file: one over
  `_MAX_DISTRIBUTION_BYTES` is none. -/
  distribution : Option Bytes
  /-- The manifests it is given, in the order it asks for them. -/
  manifests : List Bytes
  schedule : ClientNode.Schedule
  endpoint : Option Endpoint
  peer : Ucxx.Peer
  /-- What `get_size` returns. -/
  size : Nat → Option Nat
  /-- The attempts of `download_into`. -/
  attempts : Nat → List HttpGet

/-- A response has more than `most` bytes, or that as its length. -/
def exceeds (most : Nat) (length : Option Int) (body : Bytes) : Bool :=
  length.any (fun n => decide ((most : Int) < n)) || decide (most < body.length)

/-- `download_bytes`; a response that is too large is a failure like any other. -/
def downloadBytes (maxBytes : Option Nat) : List HttpGet → Option Bytes
  | [] => none
  | .failed _ :: retries => downloadBytes maxBytes retries
  | .response length body :: retries =>
    if maxBytes.any (exceeds · length body) then downloadBytes maxBytes retries else some body

/-- `_MAX_DISTRIBUTION_BYTES` -/
def maxDistributionBytes : Nat := 1024 * 1024

/-- `download_into` -/
def downloadInto (target : Bytes) : List HttpGet → Bool × Bytes
  | [] => (false, target)
  | answer :: retries =>
    match downloadIntoFrom target answer with
    | (true, target) => (true, target)
    | (false, target) => downloadInto target retries

/-- `_MAX_SHARD_COUNT` -/
def maxListedShards : Nat := 1000000

section
variable [Library]

def listAvailableVersions (payload : Option Bytes) : Lines :=
  match payload.bind decodeUtf8 with
  | none => .empty
  | some content => parseListing content

/-- `_load_shard_manifest`; `nestingLimit` is the nesting of JSON the
interpreter bears. -/
def loadShardManifest (nestingLimit : Nat) (version : Str) :
    List Bytes → Except Exc (Option ShardManifest)
  | [] => .ok none
  | payload :: rest =>
    let manifest :=
      if payload.length ≤ maxManifestBytes ∧ nestingLimit < nesting payload then
        .error ⟨.recursionError, str "maximum recursion depth exceeded"⟩
      else ShardManifest.fromBytes payload
    match manifest with
    | .ok manifest =>
      if manifest.name = version then .ok (some manifest)
      else loadShardManifest nestingLimit version rest
    | .error e =>
      if e.cls.isValueError then loadShardManifest nestingLimit version rest else .error e

namespace ClientNode

variable {S : Type} [LinearOrder S] (score : Str → Nat → Str → MemberProfile → S)

/-- `_download_streaming` for a whole version. -/
def streamVersion (client : ClientNode) (manifest : ShardManifest) (schedule : Schedule) :
    Except Exc (Option Bytes) := do
  match ← client.downloadStreaming score manifest none schedule with
  | some { selection := .whole data, .. } => return some data
  | _ => return none

/-- The UCXX branch: a version whose metadata is as listed. -/
def fetchListed (client : ClientNode) (version checksum : Str) (shardCount : Int)
    (peer : Ucxx.Peer) : Except Exc Bytes := do
  let result ← Ucxx.fetchVersion peer version client.maxVersionBytes
  if result.metadata.checksum ≠ checksum ∨ (result.metadata.shardCount : Int) ≠ shardCount then
    valueError (str "UCXX metadata does not match distribution manifest")
  else return result.data

/-- The HTTP branch: the sizes first, then every slice of the buffer by a worker
of its own. -/
def downloadListed (client : ClientNode) (checksum : Str) (shardCount : Nat)
    (answers : VersionAnswers) : Option Bytes := do
  let sizes ← (List.range shardCount).mapM answers.size
  if client.maxVersionBytes < sizes.sum then none
  else
    let slices := sizes.zipIdx.map fun (size, index) =>
      downloadInto (List.replicate size 0) (answers.attempts index)
    if slices.all Prod.fst = false then none
    else
      let data := slices.flatMap Prod.snd
      if hexdigest data ≠ checksum then none else some data

/-- The manifest there is to stream from. -/
def streamingManifest (client : ClientNode) (nestingLimit : Nat) (version : Str)
    (answers : VersionAnswers) : Except Exc (Option ShardManifest) :=
  if 2 ≤ client.servers.length then loadShardManifest nestingLimit version answers.manifests
  else .ok none

/-- The streaming branch. -/
def streamListed (client : ClientNode) (checksum : Str) (shardCount : Int) (schedule : Schedule) :
    Option ShardManifest → Except Exc (Option Bytes)
  | none => .ok none
  | some manifest =>
    if manifest.checksum ≠ checksum ∨ (manifest.shardCount : Int) ≠ shardCount then
      valueError (str "streaming manifest does not match distribution manifest")
    else client.streamVersion score manifest schedule

/-- The branches after it. -/
def downloadUnstreamed (client : ClientNode) (version checksum : Str) (shardCount : Int)
    (answers : VersionAnswers) : Except Exc (Option Bytes) :=
  if shardCount < 0 ∨ maxListedShards < shardCount ∨ client.maxVersionBytes < shardCount then
    .ok none
  else
    let advertised :=
      client.transport ≠ .http ∧ answers.endpoint.any fun e => e.ucxx && e.verifiedRdma
    if client.transport = .ucxx ∧ ¬ advertised then
      .error ⟨.runtimeError, str "UCXX transport requires an advertised verified_rdma endpoint"⟩
    else if advertised then
      match client.fetchListed version checksum shardCount answers.peer with
      | .ok data => .ok (some data)
      | .error e =>
        if client.transport = .ucxx then .error e
        else .ok (client.downloadListed checksum shardCount.toNat answers)
    else .ok (client.downloadListed checksum shardCount.toNat answers)

/-- `download_version_buffer` once the line of the version is read. -/
def downloadCounted (client : ClientNode) (nestingLimit : Nat) (version checksum : Str)
    (shardCount : Int) (answers : VersionAnswers) : Except Exc (Option Bytes) := do
  let manifest ← client.streamingManifest nestingLimit version answers
  let streamed ← client.streamListed score checksum shardCount answers.schedule manifest
  if streamed.isSome ∨ (manifest.isSome ∧ client.transport = .ucxx) then return streamed
  else client.downloadUnstreamed version checksum shardCount answers

def downloadVersionBuffer (client : ClientNode) (nestingLimit : Nat) (version : Str)
    (answers : VersionAnswers) : Except Exc (Option Bytes) :=
  match (listAvailableVersions answers.distribution).get? version with
  | none => .ok none
  | some info =>
    let (checksum, count) := partition (.ofChar '|') info
    if .ofChar '|' ∉ info ∨ Ucxx.matchesChecksum checksum = false then .ok none
    else
      match intOf? count with
      | none => .ok none
      | some shardCount => client.downloadCounted score nestingLimit version checksum shardCount answers

end ClientNode

end

end Litecast
