import Litecast.Listing
import Litecast.Middle
import Litecast.Ucxx

/-! `MiddleNode._monitor_upstream`: one pass over what an upstream lists. -/

namespace Litecast.Monitor

structure Config where
  /-- `none` without `middle_servers`. -/
  node : Option MiddleNode
  diskMirror : Bool
  /-- The nesting of JSON the interpreter bears. -/
  nestingLimit : Nat
  /-- Whether there is a `ucxx_server`. -/
  ucxxServer : Bool

structure Middle where
  store : CheckpointStore
  /-- The distribution file it serves. -/
  lines : Lines := .empty
  directories : OrderedDict Str VersionDirectory := .empty
  processedVersions : List Str := []
  /-- `_available_versions` of its `ucxx_server`. -/
  availableVersions : List Str := []

/-- A payload one of the shard tasks comes to put into the store, verified by
its transport or not. -/
structure Arrival where
  index : Nat
  payload : Bytes
  verifiedChecksum : Option Str := none

/-- What the others answer when a version is processed. -/
structure Answers where
  /-- The first manifest one of the upstreams has. -/
  manifest : Option Bytes := none
  /-- The end of `client.download_version_buffer`. -/
  whole : Except Exc (Option Bytes) := .ok none
  /-- The files `download_shards` gets. -/
  shardFile : Nat → Option Bytes := fun _ => none
  /-- What the shard tasks get, in the order it is put into the store. -/
  arrivals : List Arrival := []

/-! ## What is done about a version -/

inductive Plan where
  | skip
  | stream (node : MiddleNode) (manifest : ShardManifest) (payload : Bytes)
  | whole (checksum : Str) (expectedCount : Nat)

section
variable [Library]

/-- `ShardManifest.from_bytes`, with what nesting makes `json.loads` raise. -/
def readManifest (config : Config) (payload : Bytes) : Except Exc ShardManifest :=
  if payload.length ≤ maxManifestBytes ∧ config.nestingLimit < nesting payload then
    .error ⟨.recursionError, str "maximum recursion depth exceeded"⟩
  else ShardManifest.fromBytes payload

/-- The manifest that is streamed, if the upstream's is for this line. -/
def planStream (config : Config) (version checksum : Str) (expectedCount : Nat)
    (manifest : Option Bytes) : Except Exc Plan :=
  match config.node, manifest with
  | some node, some payload =>
    match readManifest config payload with
    | .error e => if e.cls.isValueError then .ok (.whole checksum expectedCount) else .error e
    | .ok manifest =>
      if manifest.name = version ∧ manifest.checksum = checksum ∧
          manifest.shardCount = expectedCount then do
        let payload ← (node.republish manifest).toBytes
        return .stream node (node.republish manifest) payload
      else .ok (.whole checksum expectedCount)
  | _, _ => .ok (.whole checksum expectedCount)

/-- `_process_version` up to the first download but that of the manifest. -/
def plan (config : Config) (s : Middle) (version info : Str) (answers : Answers) :
    Except Exc Plan :=
  if version ∈ s.processedVersions then .ok .skip
  else
    let (checksum, shardCount) := partition (.ofChar '|') info
    if shardCount = [] then .ok .skip
    else match intOf? shardCount with
      | none => .ok .skip
      | some expectedCount =>
        if expectedCount < 0 then .ok .skip
        else planStream config version checksum expectedCount.toNat answers.manifest

/-! ## Announcing -/

def Middle.notifyVersionAvailable (config : Config) (s : Middle) (version : Str) :
    Except Exc Unit × Middle :=
  if config.ucxxServer then
    match Ucxx.validateVersion version with
    | .error e => (.error e, s)
    | .ok () => (.ok (), { s with availableVersions := s.availableVersions.insert version })
  else (.ok (), s)

/-- The local versions are a set; here they are gone through as the store has them. -/
def Middle.notifyAll (config : Config) : List Str → Middle → Except Exc Unit × Middle
  | [], s => (.ok (), s)
  | version :: rest, s =>
    match s.notifyVersionAvailable config version with
    | (.error e, s) => (.error e, s)
    | (.ok (), s) => Middle.notifyAll config rest s

/-! ## Streaming -/

def metadataOf (manifest : ShardManifest) : VersionMetadata where
  name := manifest.name
  totalSize := manifest.totalSize
  shardSize := manifest.shardSize
  shardCount := manifest.shardCount
  checksum := manifest.checksum

/-- The shard tasks of a version: the store and the shard files they leave, the
indices still fetched, and those given up with an exception. -/
structure Fetching where
  store : CheckpointStore
  files : OrderedDict Nat Bytes
  pending : List Nat
  failed : List Exc := []

def putArrival (store : CheckpointStore) (name : Str) (a : Arrival) :
    CheckpointStore.Outcome Bytes :=
  match a.verifiedChecksum with
  | none => store.putShard name a.index a.payload
  | some checksum => store.putVerifiedShard name a.index a.payload checksum

/-- One turn of `_fetch_owned_shard`: only a `ValueError` is followed by another. -/
def Fetching.arrive (name : Str) (diskMirror : Bool) (f : Fetching) (a : Arrival) : Fetching :=
  if a.index ∈ f.pending then
    match putArrival f.store name a with
    | (.ok _, store) =>
      { f with store, pending := f.pending.erase a.index
               files := if diskMirror then f.files.insert a.index a.payload else f.files }
    | (.error e, store) =>
      if e.cls.isValueError then { f with store }
      else { f with store, pending := f.pending.erase a.index, failed := f.failed ++ [e] }
  else f

/-- What the first task to fail raises; those still pending run into their
deadline. -/
def Fetching.failure (f : Fetching) : Option Exc :=
  f.failed.head?.or (f.pending.head?.map fun index =>
    ⟨.runtimeError, str "shard " ++ decimal index ++ str " did not become available"⟩)

variable {S : Type} [LinearOrder S] (score : Str → Nat → Str → MemberProfile → S)

/-- `_process_streaming_version` from its assignments on; its directory has been made. -/
def fetchAssigned (config : Config) (s : Middle) (node : MiddleNode) (manifest : ShardManifest)
    (directory : VersionDirectory) (arrivals : List Arrival) : Except Exc Unit × Middle :=
  match node.assignments score manifest with
  | .error e => (.error e, s)
  | .ok assignments =>
    let f := arrivals.foldl (Fetching.arrive manifest.name config.diskMirror)
      ⟨s.store, directory.shards, assignments.map Assignment.index, []⟩
    let s := { s with
      store := f.store
      directories := s.directories.insert manifest.name { directory with shards := f.files } }
    match f.failure with
    | some e => (.error e, s)
    | none => (.ok (), { s with processedVersions := s.processedVersions.insert manifest.name })

def processStreamingVersion (config : Config) (s : Middle) (node : MiddleNode)
    (manifest : ShardManifest) (payload : Bytes) (arrivals : List Arrival) :
    Except Exc Unit × Middle :=
  match s.store.beginVersion (metadataOf manifest) manifest.shardChecksums with
  | (.error e, store) => (.error e, { s with store })
  | (.ok _, store) =>
    let directory := (s.directories.get? manifest.name).getD {}
    let directory := { directory with manifest := some payload }
    let s := { s with store, directories := s.directories.insert manifest.name directory }
    match updateLines s.lines manifest.name manifest.checksum 100000 manifest.shardCount with
    | (.error e, lines) => (.error e, { s with lines })
    | (.ok (), lines) =>
      match { s with lines }.notifyVersionAvailable config manifest.name with
      | (.error e, s) => (.error e, s)
      | (.ok (), s) => fetchAssigned score config s node manifest directory arrivals

/-! ## Whole versions -/

/-- The files of a version as `sorted` has them. -/
def sortedFiles (files : Nat → Option Bytes) (count : Nat) : List Bytes :=
  ((List.range count).insertionSort fun a b =>
    (getShardFilename a).le (getShardFilename b) = true).filterMap files

/-- Downloading to disk only. -/
def processFiles (s : Middle) (version checksum : Str) (expectedCount : Nat)
    (shardFile : Nat → Option Bytes) : Middle :=
  let directory := (s.directories.get? version).getD {}
  if (List.range expectedCount).all (fun index => (shardFile index).isSome) ∧
      hexdigest (sortedFiles shardFile expectedCount).flatten = checksum then
    let shards := (List.range expectedCount).foldl (fun shards index =>
      shards.insert index ((shardFile index).getD [])) directory.shards
    { s with directories := s.directories.insert version { directory with shards }
             processedVersions := s.processedVersions.insert version }
  else { s with directories := s.directories.erase version }

/-- `max(1, ceil(len(data) / expected_count)) if expected_count else 1` -/
def inferredShardSize (size expectedCount : Nat) : Nat :=
  if expectedCount = 0 then 1 else max 1 ((size + expectedCount - 1) / expectedCount)

/-- The shard files of a version the store holds. -/
def mirror (store : CheckpointStore) (version : Str) (shardCount : Nat)
    (shards : OrderedDict Nat Bytes) : Except Exc (OrderedDict Nat Bytes) :=
  (List.range shardCount).foldlM (fun shards (index : Nat) => do
    return shards.insert index (← store.getShard version index)) shards

def processBuffer (config : Config) (s : Middle) (version checksum : Str) (expectedCount : Nat)
    (data : Bytes) : Except Exc Unit × Middle :=
  match s.store.put version data (inferredShardSize data.length expectedCount) (some checksum) with
  | (.error e, store) => (if e.cls.isValueError then .ok () else .error e, { s with store })
  | (.ok metadata, store) =>
    if metadata.shardCount ≠ expectedCount then (.ok (), { s with store := (store.remove version).2 })
    else if config.diskMirror then
      let directory := (s.directories.get? version).getD {}
      match mirror store version metadata.shardCount directory.shards with
      | .error e =>
        (.error e, { s with store, directories := s.directories.insert version directory })
      | .ok shards =>
        (.ok (), {
          s with store, directories := s.directories.insert version { directory with shards }
                 processedVersions := s.processedVersions.insert version })
    else (.ok (), { s with store, processedVersions := s.processedVersions.insert version })

def processWhole (config : Config) (s : Middle) (version checksum : Str) (expectedCount : Nat)
    (answers : Answers) : Except Exc Unit × Middle :=
  match answers.whole with
  | .error e => (.error e, s)
  | .ok none =>
    if config.diskMirror then
      (.ok (), processFiles s version checksum expectedCount answers.shardFile)
    else (.ok (), s)
  | .ok (some data) => processBuffer config s version checksum expectedCount data

def processVersion (config : Config) (s : Middle) (version info : Str) (answers : Answers) :
    Except Exc Unit × Middle :=
  match plan config s version info answers with
  | .error e => (.error e, s)
  | .ok .skip => (.ok (), s)
  | .ok (.stream node manifest payload) =>
    processStreamingVersion score config s node manifest payload answers.arrivals
  | .ok (.whole checksum expectedCount) =>
    processWhole config s version checksum expectedCount answers

/-! ## A pass -/

/-- The versions one after the other, up to the first that raises. -/
def processVersions (config : Config) (answers : Str → Answers) :
    List (Str × Str) → Middle → Except Exc Unit × Middle
  | [], s => (.ok (), s)
  | (version, info) :: rest, s =>
    match processVersion score config s version info (answers version) with
    | (.error e, s) => (.error e, s)
    | (.ok (), s) => processVersions config answers rest s

end

/-- What the middle can tell its clients about a listed version. -/
def Middle.discoverable (s : Middle) (version : Str) : Bool :=
  s.store.versions.contains version || s.directories.contains version

/-- The distribution file of the middle is written anew. -/
def Middle.rewrite (s : Middle) (distribution : Lines) : Middle :=
  let others := distribution.keys.filter fun version => !s.discoverable version
  { s with lines := others.foldl OrderedDict.erase distribution }

/-- The directories `glob` finds are removed unless listed. It looks at their
stems, and `rmtree` raises where there is none. -/
def removeDirectories (distribution : Lines) :
    List Str → OrderedDict Str VersionDirectory →
      Except Exc Unit × OrderedDict Str VersionDirectory
  | [], directories => (.ok (), directories)
  | found :: rest, directories =>
    if distribution.contains (stem found) then removeDirectories distribution rest directories
    else if directories.contains (stem found) then
      removeDirectories distribution rest (directories.erase (stem found))
    else (.error ⟨.fileNotFoundError, stem found⟩, directories)

/-- Old versions go from disk, from the store and from what was processed. -/
def Middle.removeOld (s : Middle) (distribution : Lines) : Except Exc Unit × Middle :=
  match removeDirectories distribution
      (s.directories.keys.filter (versionPrefix.isPrefixOf ·)) s.directories with
  | (.error e, directories) => (.error e, { s with directories })
  | (.ok (), directories) =>
    let old := (s.store.listVersions.map VersionMetadata.name).filter fun name =>
      !distribution.contains name
    (.ok (), {
      s with directories
             store := old.foldl (fun store name => (store.remove name).2) s.store
             processedVersions := s.processedVersions.filter distribution.contains })

section
variable [Library] {S : Type} [LinearOrder S] (score : Str → Nat → Str → MemberProfile → S)

/-- A pass over a listing: the versions, the rewrite and its announcement, the
removal. -/
def follow (config : Config) (s : Middle) (distribution : Lines) (answers : Str → Answers) :
    Except Exc Unit × Middle :=
  match processVersions score config answers distribution.entries s with
  | (.error e, s) => (.error e, s)
  | (.ok (), s) =>
    let localVersions := s.store.listVersions.map VersionMetadata.name
    match (s.rewrite distribution).notifyAll config localVersions with
    | (.error e, s) => (.error e, s)
    | (.ok (), s) => s.removeOld distribution

/-- `_monitor_upstream` once around its loop, given what `download_bytes` gets:
whether it went through a listing to the end, or the exception it logs. -/
def monitorUpstream (config : Config) (s : Middle) (payload : Option Bytes)
    (answers : Str → Answers) : Except Exc Bool × Middle :=
  match payload with
  | none => (.ok false, s)
  | some payload =>
    match decodeUtf8 payload with
    | none => (valueError (str "invalid utf-8"), s)
    | some content =>
      if content = [] then (.ok false, s)
      else
        match follow score config s (parseListing content) answers with
        | (.error e, s) => (.error e, s)
        | (.ok (), s) => (.ok true, s)

end

end Litecast.Monitor
