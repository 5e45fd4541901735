import Litecast.Geometry
import Litecast.StoreShape

/-! `origin_server.py` and the distribution file of `utils.py`: what an origin
publishes and where it keeps it. -/

namespace Litecast

/-! ## Version names -/

/-- `LITECAST_VERSION_PREFIX` -/
def versionPrefix : Str := str "v"

def versionName (n : Nat) : Str := versionPrefix ++ decimal n

/-- The number in a name of the form `versionName n`. -/
def versionNumber? (name : Str) : Option Nat :=
  if versionPrefix.isPrefixOf name then
    let digits := name.drop versionPrefix.length
    if digits ≠ [] ∧ digits.all JsonText.isDigit then some (JsonText.digitsValue digits) else none
  else none

/-- The key the lines of the distribution file are sorted by. -/
def versionKey (name : Str) : Nat := (versionNumber? name).getD 0

/-! ## The distribution file -/

/-- What a line says of its version: `checksum|num_shards`. -/
structure Listing where
  checksum : Str
  numShards : Int
  deriving DecidableEq

abbrev Distribution := OrderedDict Str Listing

/-- The versions `update_distribution_file` takes out again: the oldest beyond
`max_versions`. -/
def prunedVersions (distribution : Distribution) (maxVersions : Nat) : List Str :=
  if maxVersions < distribution.length then
    (distribution.keys.insertionSort fun a b => versionKey a ≤ versionKey b).take
      (distribution.length - maxVersions)
  else []

/-- `update_distribution_file`, the file and the versions to remove. -/
def updateDistributionFile (distribution : Distribution) (version : Str) (listing : Listing)
    (maxVersions : Nat) : Distribution × List Str :=
  let distribution := distribution.insert version listing
  let removed := prunedVersions distribution maxVersions
  ((removed.foldl OrderedDict.erase distribution).sortBy versionKey, removed)

def removeDistributionVersions (distribution : Distribution) (versions : List Str) : Distribution :=
  if versions = [] then distribution
  else (versions.foldl OrderedDict.erase distribution).sortBy versionKey

/-! ## Publishing -/

/-- The directory of a version: its manifest and the shard files in it. -/
structure VersionDirectory where
  manifest : Option Bytes := none
  shards : OrderedDict Nat Bytes := .empty

structure OriginServer where
  maxDistributionFolders : Nat
  diskMirror : Bool
  store : CheckpointStore
  distribution : Distribution := .empty
  directories : OrderedDict Str VersionDirectory := .empty

namespace OriginServer

/-- An origin on an empty directory. -/
def new (maxDistributionFolders : Nat) (diskMirror : Bool) (ramCacheBytes : Nat) : OriginServer :=
  { maxDistributionFolders, diskMirror, store := .new ramCacheBytes }

abbrev Outcome := Except Exc Str × OriginServer

/-- The names among which `_next_version` looks for the largest number. -/
def candidates (s : OriginServer) : List Str :=
  s.store.listVersions.map VersionMetadata.name ++ s.distribution.keys ++ s.directories.keys

def nextNumber (s : OriginServer) : Nat :=
  (s.candidates.filterMap versionNumber?).foldl max 0 + 1

def nextVersion (s : OriginServer) : Str := versionName s.nextNumber

/-- `ensure_dir` -/
def ensureDir (s : OriginServer) (version : Str) : OriginServer :=
  if s.directories.contains version then s
  else { s with directories := s.directories.insert version {} }

/-- What is removed beyond `max_distribution_folders` leaves RAM and disk. -/
def removePruned (s : OriginServer) (removed : List Str) : OriginServer :=
  removed.foldl (fun s old =>
    { s with store := (s.store.remove old).2, directories := s.directories.erase old }) s

/-- `capacity_evictions` -/
def capacityEvictions (previous current : CheckpointStore) : List Str :=
  (previous.listVersions.map VersionMetadata.name).filter fun name =>
    name ∉ current.listVersions.map VersionMetadata.name

/-- Without a mirror nothing but RAM held the evicted versions. -/
def dropEvicted (s : OriginServer) (evicted : List Str) : OriginServer :=
  { s with distribution := removeDistributionVersions s.distribution evicted
           directories := evicted.foldl OrderedDict.erase s.directories }

/-- The line of the new version, and what goes for it. -/
def announce (s : OriginServer) (version : Str) (listing : Listing) (evicted : List Str)
    (mirror : Bool) : OriginServer :=
  let (distribution, removed) :=
    updateDistributionFile s.distribution version listing s.maxDistributionFolders
  let s := { s with distribution }
  let s := if mirror then s else s.dropEvicted evicted
  s.removePruned removed

section
variable [Library]

/-- The shard files a mirrored version is written to. -/
def mirrorFiles (store : CheckpointStore) (version : Str) (shardCount : Nat) (mirror : Bool) :
    Except Exc (OrderedDict Nat Bytes) :=
  if mirror then
    (List.range shardCount).foldlM (fun files (index : Nat) => do
      return files.insert index (← store.getShard version index)) .empty
  else .ok .empty

def broadcastBuffer (s : OriginServer) (buffer : Bytes) (shardSize : Int)
    (diskMirror : Option Bool) : Outcome :=
  let mirror := diskMirror.getD s.diskMirror
  let version := s.nextVersion
  match buildManifest version buffer shardSize with
  | .error e => (.error e, s)
  | .ok shardManifest =>
    match s.store.putVerified version buffer shardSize shardManifest.checksum
        shardManifest.shardChecksums with
    | (.error e, store) => (.error e, { s with store })
    | (.ok metadata, store) =>
      let evicted := capacityEvictions s.store store
      let s := { s with store }.ensureDir version
      match shardManifest.toBytes, mirrorFiles store version metadata.shardCount mirror with
      | .error e, _ => (.error e, s)
      | _, .error e => (.error e, s)
      | .ok manifest, .ok shards =>
        let directory : VersionDirectory := { manifest := some manifest, shards }
        let s := { s with directories := s.directories.insert version directory }
        (.ok version, s.announce version ⟨metadata.checksum, metadata.shardCount⟩ evicted mirror)

/-- What `source.read(shard_size)` gives at most: a negative size reads to the
end. -/
def readSize (data : Bytes) (shardSize : Int) : Nat :=
  if shardSize < 0 then data.length else shardSize.toNat

/-- What it gives for one shard after the other. -/
def fileShards (data : Bytes) (shardSize : Int) (numShards : Nat) : OrderedDict Nat Bytes :=
  (List.range numShards).foldl (fun files (index : Nat) =>
    let size := readSize data shardSize
    files.insert index (Pieces.slice data (index * size) ((index + 1) * size))) .empty

/-- A file too large for RAM goes to disk only. -/
def broadcastLarge (s : OriginServer) (data : Bytes) (shardSize : Int) : Outcome :=
  let version := s.nextVersion
  let s := s.ensureDir version
  if shardSize = 0 then
    (.error ⟨.zeroDivisionError, str "integer division or modulo by zero"⟩, s)
  else
    let numShards := ((data.length : Int) + shardSize - 1).fdiv shardSize
    let directory : VersionDirectory := { shards := fileShards data shardSize numShards.toNat }
    let s := { s with directories := s.directories.insert version directory }
    (.ok version, s.announce version ⟨hexdigest data, numShards⟩ [] true)

/-- `broadcast`; `none` for a path without a file. -/
def broadcast (s : OriginServer) (file : Option Bytes) (shardSize : Int) : Outcome :=
  match file with
  | none => (.error ⟨.fileNotFoundError, str "File not found"⟩, s)
  | some data =>
    if data.length ≤ s.store.capacity then s.broadcastBuffer data shardSize (some true)
    else s.broadcastLarge data shardSize

end

end OriginServer

end Litecast
