import Litecast.Download
import Litecast.Lib.TryEach
import Litecast.Publication

/-! `registry/transfer.py` and `fetch_publication` of `registry/distribution.py`:
the sources of a publication, group by group. -/

namespace Litecast

/-- What is read of a registry record; a missing field is `none`. -/
structure SourceRecord where
  uri : Option Str
  sourceRole : Option Str
  litecastVersion : Option Str

/-- `registry.models` -/
abbrev Models := OrderedDict Str (List SourceRecord)

/-- The sources of one role that have the publication under one name. -/
structure SourceGroup where
  role : Str
  version : Str
  servers : List Str

/-- The configuration of the clients `fetch_publication` makes. -/
structure FetchConfig where
  transport : TransportMode
  replicationFactor : Int
  shardBatchSize : Nat
  /-- The nesting of JSON the interpreter bears. -/
  nestingLimit : Nat
  batch_pos : 1 ≤ shardBatchSize
  batch_le : shardBatchSize ≤ 256

/-- `MeasuredClient(sorted(servers), ..., max_version_bytes=publication.size)` -/
def FetchConfig.client (config : FetchConfig) (publication : Publication) (group : SourceGroup) :
    ClientNode where
  servers := group.servers.insertionSort fun a b => Str.le a b
  transport := config.transport
  maxVersionBytes := publication.size
  replicationFactor := config.replicationFactor
  shardBatchSize := config.shardBatchSize
  clientLocality := []
  batch_pos := config.batch_pos
  batch_le := config.batch_le

/-! ## Groups -/

/-- An order `random.shuffle` may leave the records in. -/
structure Shuffle where
  shuffle : List SourceRecord → List SourceRecord
  perm : ∀ records, (shuffle records).Perm records

/-- The loop that waits for another source than the origin; `later` are the reads
there is time for. -/
def awaitRelay (sourceRole : Option Str) : List SourceRecord → List (List SourceRecord) →
    List SourceRecord
  | records, [] => records
  | records, next :: later =>
    if records ≠ [] ∧ sourceRole = none ∧
        (records.any fun record => record.sourceRole ≠ some (str "origin")) = false then
      awaitRelay sourceRole next later
    else records

/-- `groups.setdefault(key, set()).add(server)` -/
def addSource (groups : OrderedDict (Str × Str) (List Str)) (record : SourceRecord) :
    OrderedDict (Str × Str) (List Str) :=
  match record.uri, record.litecastVersion with
  | some server, some version =>
    if server = [] ∨ version = [] then groups
    else
      let key := (record.sourceRole.getD (str "peer"), version)
      let servers := (groups.get? key).getD []
      groups.insert key (if server ∈ servers then servers else servers ++ [server])
  | _, _ => groups

def roleRank (role : Str) : Nat :=
  if role = str "middle" then 0 else if role = str "origin" then 2 else 1

/-- The order of `candidates`. -/
def SourceGroup.before (a b : SourceGroup) : Bool :=
  roleRank a.role < roleRank b.role ||
    (roleRank a.role = roleRank b.role && b.servers.length ≤ a.servers.length)

def candidates (publication : Publication) (sourceRole : Option Str) (shuffle : Shuffle)
    (first : Models) (later : List Models) : List SourceGroup :=
  let read (models : Models) :=
    (models.get? (peerService publication.runId publication.digest)).getD []
  let records := awaitRelay sourceRole (read first) (later.map read)
  let records := match sourceRole with
    | some role => records.filter fun record => record.sourceRole = some role
    | none => records
  let groups := (shuffle.shuffle records).foldl addSource .empty
  (groups.entries.map fun ((role, version), servers) => ⟨role, version, servers⟩).insertionSort
    fun a b => a.before b

/-! ## The client -/

section
variable [Library]

/-- `count.isdigit()` of a number `int` reads. -/
def isDecimal (text : Str) : Bool := text ≠ [] && (asciiForm text).all JsonText.isDigit

/-- `_download_cached` -/
def ClientNode.downloadCached (client : ClientNode) (version : Str) (answers : VersionAnswers) :
    Except Exc Bytes :=
  let info := ((listAvailableVersions answers.distribution).get? version).getD []
  let (checksum, count) := partition (.ofChar '|') info
  if checksum.length ≠ 64 ∨ isDecimal count = false then
    valueError (str "invalid distribution manifest")
  else
    let count := ((intOf? count).getD 0).toNat
    if count = 0 ∨ min maxListedShards client.maxVersionBytes < count then
      valueError (str "invalid shard count")
    else
      match (List.range count).mapM answers.size with
      | none => .error ⟨.runtimeError, str "shard sizes unavailable"⟩
      | some sizes =>
        if client.maxVersionBytes < sizes.sum then valueError (str "transfer exceeds size limit")
        else
          let slices := sizes.zipIdx.map fun (size, index) =>
            downloadInto (List.replicate size 0)
              ((answers.attempts index).take client.servers.length)
          match slices.findIdx? fun slice => !slice.1 with
          | some index =>
            .error ⟨.runtimeError,
              str "shard " ++ decimal index ++ str " unavailable from all sources"⟩
          | none =>
            let data := slices.flatMap Prod.snd
            if hexdigest data ≠ checksum then valueError (str "download checksum mismatch")
            else .ok data

variable {S : Type} [LinearOrder S] (score : Str → Nat → Str → MemberProfile → S)

/-- `MeasuredClient.download_version_buffer` -/
def ClientNode.downloadMeasured (client : ClientNode) (nestingLimit : Nat) (version : Str)
    (answers : VersionAnswers) : Except Exc (Option Bytes) :=
  if client.transport ≠ .http then client.downloadVersionBuffer score nestingLimit version answers
  else do
    match ← loadShardManifest nestingLimit version answers.manifests with
    | some manifest => client.streamVersion score manifest answers.schedule
    | none => some <$> client.downloadCached version answers

/-! ## Failover -/

/-- `except (OSError, ValueError, RuntimeError)` -/
def caught (e : Exc) : Bool := e.cls.isOSError || e.cls.isValueError || e.cls.isRuntimeError

variable [BundleLibrary]

/-- The body of `try` in the loop over the candidates. -/
def groupPayload (config : FetchConfig) (publication : Publication)
    (answers : SourceGroup → VersionAnswers) (group : SourceGroup) : Except Exc Bytes := do
  match ← (config.client publication group).downloadMeasured score config.nestingLimit group.version
      (answers group) with
  | none => .error ⟨.runtimeError, str "shard download or checksum verification failed"⟩
  | some payload =>
    publication.verify config.nestingLimit payload
    return payload

def tryGroup (config : FetchConfig) (publication : Publication)
    (answers : SourceGroup → VersionAnswers) (group : SourceGroup) : TryEach.Outcome Bytes Exc :=
  match groupPayload score config publication answers group with
  | .ok payload => .delivered payload
  | .error e => if caught e then .failed else .escaped e

/-- `fetch_publication`, and the groups it has tried. -/
def fetchPublication (config : FetchConfig) (publication : Publication) (sourceRole : Option Str)
    (shuffle : Shuffle) (first : Models) (later : List Models)
    (answers : SourceGroup → VersionAnswers) : Except Exc Bytes × List SourceGroup :=
  let (outcome, tried) := TryEach.search (tryGroup score config publication answers)
    (candidates publication sourceRole shuffle first later)
  match outcome with
  | .delivered payload => (.ok payload, tried)
  | .failed =>
    (.error ⟨.runtimeError, str "no valid LiteCast source for " ++ publication.modelName⟩, tried)
  | .escaped e => (.error e, tried)

end

end Litecast
