import Litecast.Client
import Litecast.Geometry
import Litecast.Lib.Frontier

/-! `_download_streaming` of `client_node.py`: shards from several owners into
the buffer of a version, or into the targets of a caller. -/

namespace Litecast

/-! ## What a peer may do -/

/-- What the client uses of a peer's endpoint document. -/
structure Endpoint where
  ucxx : Bool
  verifiedRdma : Bool
  capabilities : List Str

/-- There is a verified UCXX endpoint with that capability. -/
def Endpoint.serves (endpoint : Option Endpoint) (capability : Str) : Bool :=
  endpoint.any fun e => e.ucxx && e.verifiedRdma && decide (capability ∈ e.capabilities)

/-- What becomes of a `GET` of a shard: it breaks off, having written some
bytes, or there is a response with a `Content-Length`. -/
inductive HttpGet where
  | failed (written : Bytes)
  | response (length : Option Int) (body : Bytes)

/-- A target some bytes were written to. -/
def overwrite (target written : Bytes) : Bytes :=
  Pieces.write target 0 (written.take target.length)

/-- `download_into_from` -/
def downloadIntoFrom (target : Bytes) : HttpGet → Bool × Bytes
  | .failed written => (false, overwrite target written)
  | .response length body =>
    if length.any (· ≠ (target.length : Int)) then (false, target)
    else (decide (body.length = target.length), overwrite target body)

namespace Ucxx

/-- What becomes of a call of the transport: it raises, having written some
bytes, or the peer answers. -/
inductive Answer (Written : Type) where
  | failed (written : Written)
  | peer (peer : Peer)

section
variable [Library]

def fetchShardInto (answer : Answer Bytes) (version : Str) (index : Nat) (target : Bytes)
    (expectedChecksum : Str) : Except Exc Unit × Bytes :=
  match validateVersion version with
  | .error e => (.error e, target)
  | .ok () =>
    match answer with
    | .failed written =>
      (.error ⟨.ucxxUnavailableError, str "UCXX shard transfer failed"⟩, overwrite target written)
    | .peer peer =>
      let exchange := exchangeShard peer version index (some expectedChecksum) (some target)
      ((exchange.result.mapError (asUnavailable (str "UCXX shard transfer failed"))).map fun _ => (),
        exchange.memory.getD target)

def fetchShardsInto (answer : Answer (Nat → Bytes)) (version : Str) (targets : Targets)
    (expectedChecksums : Nat → Str) : Except Exc BatchShardFetchResult × Targets :=
  match validateVersion version with
  | .error e => (.error e, targets)
  | .ok () =>
    match answer with
    | .failed written =>
      (.error ⟨.ucxxUnavailableError, str "UCXX batched shard transfer failed"⟩,
        targets.keys.foldl (fun targets index =>
          targets.insert index (overwrite ((targets.get? index).getD []) (written index))) targets)
    | .peer peer =>
      let exchange := exchangeShards peer version targets expectedChecksums
      (exchange.result.mapError (asUnavailable (str "UCXX batched shard transfer failed")),
        exchange.memory)

end

end Ucxx

/-! ## Memory -/

/-- An entry of `shard_checksums`. -/
def ShardManifest.shardChecksum (m : ShardManifest) (index : Nat) : Str :=
  (m.shardChecksums[index]?).getD []

/-- The memory shards are received into: a buffer for the version, or targets. -/
inductive Selection where
  | whole (data : Bytes)
  | targets (given : Ucxx.Targets)

namespace Selection

def isWhole : Selection → Bool
  | .whole _ => true
  | .targets _ => false

/-- The keys of `selected`. -/
def indices (m : ShardManifest) : Selection → List Nat
  | .whole _ => List.range m.shardCount
  | .targets given => given.keys

/-- `selected[index]` -/
def target (m : ShardManifest) (s : Selection) (index : Nat) : Bytes :=
  match s with
  | .whole data =>
    match m.targetSpan index with
    | .ok (start, stop) => Pieces.slice data start stop
    | .error _ => []
  | .targets given => (given.get? index).getD []

/-- What `selected[index]` views holds other bytes. -/
def fill (m : ShardManifest) (s : Selection) (index : Nat) (bytes : Bytes) : Selection :=
  match s with
  | .whole data =>
    match m.targetSpan index with
    | .ok (start, _) => .whole (Pieces.write data start bytes)
    | .error _ => .whole data
  | .targets given => .targets (given.insert index bytes)

end Selection

/-! ## Receiving -/

/-- What one owner does when it is asked for a shard. -/
structure OwnerAnswer where
  endpoint : Option Endpoint
  ucxx : Ucxx.Answer Bytes
  http : HttpGet

/-- The owners' answers in one round. -/
abbrev Round := Str → OwnerAnswer

namespace ClientNode

section
variable [Library]

/-- The body of the loop over the owners: whether the shard is there, and what
its target holds. -/
def askOwner (client : ClientNode) (manifest : ShardManifest) (index : Nat) (answer : OwnerAnswer)
    (target : Bytes) : Bool × Bytes :=
  let usedUcxx := client.transport ≠ .http ∧ Endpoint.serves answer.endpoint (str "get_shard") = true
  let (fetched, target) : Bool × Bytes :=
    if usedUcxx then
      let (result, target) :=
        Ucxx.fetchShardInto answer.ucxx manifest.name index target (manifest.shardChecksum index)
      (result.isOk, target)
    else (false, target)
  if fetched then (true, target)
  else if client.transport = .ucxx then (false, target)
  else
    let (success, target) := downloadIntoFrom target answer.http
    (success && decide (hexdigest target = manifest.shardChecksum index), target)

/-- `for owner in owners` -/
def askOwners (client : ClientNode) (manifest : ShardManifest) (index : Nat) (round : Round) :
    List Str → Bytes → Bool × Bytes
  | [], target => (false, target)
  | owner :: rest, target =>
    match client.askOwner manifest index (round owner) target with
    | (true, target) => (true, target)
    | (false, target) => askOwners client manifest index round rest target

/-- The rounds there is time for. -/
def askRounds (client : ClientNode) (manifest : ShardManifest) (index : Nat) (owners : List Str) :
    List Round → Bytes → Except Exc Nat × Bytes
  | [], target =>
    (.error ⟨.runtimeError, str "shard " ++ decimal index ++ str " unavailable from both owners"⟩,
      target)
  | round :: later, target =>
    match client.askOwners manifest index round owners target with
    | (true, target) => (.ok index, target)
    | (false, target) => askRounds client manifest index owners later target

variable {S : Type} [LinearOrder S] (score : Str → Nat → Str → MemberProfile → S)

/-- `receive` -/
def receive (client : ClientNode) (manifest : ShardManifest) (index : Nat) (rounds : List Round)
    (target : Bytes) : Except Exc Nat × Bytes :=
  match client.askedOwners score manifest index with
  | .error e => (.error e, target)
  | .ok owners => client.askRounds manifest index owners rounds target

/-- `receive` for one index after the other. -/
def receiveAll (client : ClientNode) (manifest : ShardManifest) (rounds : Nat → List Round) :
    List Nat → Selection → Except Exc (List Nat) × Selection
  | [], selection => (.ok [], selection)
  | index :: rest, selection =>
    match client.receive score manifest index (rounds index) (selection.target manifest index) with
    | (.error e, bytes) => (.error e, selection.fill manifest index bytes)
    | (.ok index, bytes) =>
      let (result, selection) :=
        receiveAll client manifest rounds rest (selection.fill manifest index bytes)
      (result.map (index :: ·), selection)

/-- What a batch's owner does, and all owners when single shards are asked for. -/
structure BatchAnswers where
  endpoint : Option Endpoint
  exchange : Ucxx.Answer (Nat → Bytes)
  rounds : Nat → List Round

/-- The targets of a batch. -/
def batchTargets (manifest : ShardManifest) (selection : Selection) (indices : List Nat) :
    Ucxx.Targets :=
  indices.foldl (fun targets index => targets.insert index (selection.target manifest index)) .empty

/-- `receive_batch` -/
def receiveBatch (client : ClientNode) (manifest : ShardManifest) (batch : Batch)
    (answers : BatchAnswers) (selection : Selection) : Except Exc (List Nat) × Selection :=
  if client.transport = .http ∨ Endpoint.serves answers.endpoint (str "get_shards") = false then
    client.receiveAll score manifest answers.rounds batch.indices selection
  else
    let (result, targets) := Ucxx.fetchShardsInto answers.exchange manifest.name
      (batchTargets manifest selection batch.indices) manifest.shardChecksum
    let selection := targets.entries.foldl (fun selection entry =>
      selection.fill manifest entry.1 entry.2) selection
    match result with
    | .error _ => client.receiveAll score manifest answers.rounds batch.indices selection
    | .ok result =>
      let (rest, selection) :=
        client.receiveAll score manifest answers.rounds result.unavailable selection
      (rest.map (result.completed ++ ·), selection)

/-! ## All batches -/

/-- A future completes. Until it does, its worker and those of the futures
after it may have written to their targets. -/
structure Turn where
  batch : Batch
  answers : BatchAnswers
  meanwhile : Nat → Bytes

/-- An order in which the futures complete. -/
structure Schedule where
  turns : List Batch → List Turn
  complete : ∀ batches, ((turns batches).map Turn.batch).Perm batches

/-- `ready` and `frontier` with the bytes taken, and the memory. -/
structure Progress where
  selection : Selection
  shards : Frontier Bytes := {}

/-- The workers of these shards have written to their targets. -/
def writeMeanwhile (manifest : ShardManifest) (indices : List Nat) (meanwhile : Nat → Bytes)
    (selection : Selection) : Selection :=
  indices.foldl (fun selection index =>
    selection.fill manifest index (overwrite (selection.target manifest index) (meanwhile index)))
    selection

/-- `for future in as_completed(futures)` -/
def asCompleted (client : ClientNode) (manifest : ShardManifest) :
    List Turn → Progress → Except Exc Progress
  | [], p => .ok p
  | turn :: rest, p =>
    let pending := (turn :: rest).flatMap fun turn => turn.batch.indices
    let selection := writeMeanwhile manifest pending turn.meanwhile p.selection
    match client.receiveBatch score manifest turn.batch turn.answers selection with
    | (.error e, _) => .error e
    | (.ok completed, selection) =>
      let shards :=
        if selection.isWhole then p.shards.accept (selection.target manifest) completed
        else { p.shards with ready := p.shards.ready ∪ completed.toFinset }
      asCompleted client manifest rest { selection, shards }

/-- What the digest has consumed; a manifest with a Merkle root needs none. -/
def Progress.digested (manifest : ShardManifest) (p : Progress) : Option Bytes :=
  if p.selection.isWhole = true ∧ manifest.merkleRoot = none then some p.shards.taken.flatten
  else none

/-- What is checked once every shard is there. -/
def accepted (manifest : ShardManifest) (p : Progress) : Except Exc Bool :=
  match p.digested manifest, manifest.merkleRoot with
  | some bytes, _ => .ok (decide (hexdigest bytes = manifest.checksum))
  | none, some root => do return decide ((← merkleRoot manifest.shardChecksums) = root)
  | none, none => .ok true

/-- `_download_streaming`; without targets it allocates a buffer. -/
def downloadStreaming (client : ClientNode) (manifest : ShardManifest)
    (targets : Option Ucxx.Targets) (schedule : Schedule) : Except Exc (Option Progress) :=
  if targets = none ∧ client.maxVersionBytes < manifest.totalSize then .ok none
  else do
    client.checkMembership manifest
    let selection := targets.elim (.whole (List.replicate manifest.totalSize 0)) Selection.targets
    let _ ← client.membership manifest
    match (do
      let batches ← client.batches score manifest (selection.indices manifest)
      client.asCompleted score manifest (schedule.turns batches) { selection }) with
    | .error e => if client.transport = .ucxx then .error e else .ok none
    | .ok p => do
      if (← accepted manifest p) then return some p else return none

end

end ClientNode

end Litecast
