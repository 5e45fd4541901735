import Litecast.HexText
import Litecast.Lib.OrderedDict
import Litecast.Lib.Pieces

/-! `store.py`: the capacity-bounded store of checkpoint versions. An operation
returns its result or exception together with the store it leaves behind. -/

namespace Litecast

structure VersionMetadata where
  name : Str
  totalSize : Nat
  shardSize : Nat
  shardCount : Nat
  checksum : Str
  deriving DecidableEq

/-- `(total_size + shard_size - 1) // shard_size if total_size else 0` -/
def shardCountOf (totalSize shardSize : Nat) : Nat :=
  if totalSize = 0 then 0 else (totalSize + shardSize - 1) / shardSize

structure StoredVersion where
  metadata : VersionMetadata
  data : Option Bytes := none
  shards : OrderedDict Nat Bytes := .empty
  shardChecksums : List Str := []

def StoredVersion.storedBytes (v : StoredVersion) : Nat :=
  match v.data with
  | some data => data.length
  | none => v.shards.sum List.length

structure CheckpointStore where
  capacity : Nat
  /-- `_size`, the running counter behind `used_bytes`. -/
  size : Int := 0
  versions : OrderedDict Str StoredVersion := .empty

namespace CheckpointStore

abbrev Outcome (α : Type) := Except Exc α × CheckpointStore

def raised {α : Type} (s : CheckpointStore) (cls : ExcClass) (message : Str) : Outcome α :=
  (.error ⟨cls, message⟩, s)

/-- `sum(stored_bytes)` over the versions still in the store. -/
def heldBytes (s : CheckpointStore) : Nat := s.versions.sum StoredVersion.storedBytes

/-! ## Argument checks -/

def validateName (name : Str) : Option Exc :=
  if name = [] then some ⟨.valueError, str "name must not be empty"⟩ else none

def validateShardSize (shardSize : Int) : Option Exc :=
  if shardSize ≤ 0 then some ⟨.valueError, str "shard_size must be a positive integer"⟩ else none

def validateShardChecksums (shardChecksums : List Str) (shardCount : Nat) : Option Exc :=
  if shardChecksums ≠ [] ∧ shardChecksums.length ≠ shardCount then
    some ⟨.valueError, str "one checksum is required per shard"⟩
  else if shardChecksums.any (fun c => c.length ≠ 64) then
    some ⟨.valueError, str "invalid shard checksum"⟩
  else none

def versionTooLarge [Library] (name : Str) (dataSize capacity : Nat) : Exc where
  cls := .versionTooLargeError
  message := str "version " ++ reprStr name ++ str " is " ++ decimal dataSize ++
    str " bytes; capacity is " ++ decimal capacity

/-! ## Eviction

Both writers run the same loop: while something is stored and the new bytes
do not fit, pop the oldest version. `_put_shard` stops at the version being
written, `_store_complete` has taken that one out before. -/

def evictOldest (s : CheckpointStore) (need : Int) (keep : Str → Bool) : Nat → CheckpointStore
  | 0 => s
  | fuel + 1 =>
    match s.versions.entries with
    | [] => s
    | (oldest, evicted) :: _ =>
      if s.size + need > s.capacity ∧ keep oldest = false then
        evictOldest { s with versions := s.versions.drop 1
                             size := s.size - evicted.storedBytes } need keep fuel
      else s

/-- Every turn of the loop pops one version, so their number is fuel enough. -/
def evict (s : CheckpointStore) (need : Int) (keep : Str → Bool) : CheckpointStore :=
  s.evictOldest need keep s.versions.length

/-! ## Complete versions -/

def storeComplete (s : CheckpointStore) (metadata : VersionMetadata) (retained : Bytes)
    (shardChecksums : List Str) : CheckpointStore :=
  let stored : StoredVersion := { metadata, data := some retained, shardChecksums }
  let s := match s.versions.get? metadata.name with
    | none => s
    | some previous =>
      { s with versions := s.versions.erase metadata.name
               size := s.size - previous.storedBytes }
  let s := s.evict retained.length (fun _ => false)
  { s with versions := s.versions.insert metadata.name stored
           size := s.size + retained.length }

section
variable [Library]

def put (s : CheckpointStore) (name : Str) (data : Bytes) (shardSize : Int)
    (checksum : Option Str := none) (shardChecksums : List Str := []) : Outcome VersionMetadata :=
  match (validateName name).or (validateShardSize shardSize) with
  | some e => (.error e, s)
  | none =>
    if s.capacity < data.length then (.error (versionTooLarge name data.length s.capacity), s)
    else if checksum.any (fun c => lower c ≠ hexdigest data) then
      s.raised .valueError (str "checksum does not match checkpoint data")
    else
      let metadata : VersionMetadata :=
        { name, totalSize := data.length, shardSize := shardSize.toNat
          shardCount := shardCountOf data.length shardSize.toNat, checksum := hexdigest data }
      match validateShardChecksums shardChecksums metadata.shardCount with
      | some e => (.error e, s)
      | none => (.ok metadata, s.storeComplete metadata data shardChecksums)

def putVerified (s : CheckpointStore) (name : Str) (data : Bytes) (shardSize : Int)
    (checksum : Str) (shardChecksums : List Str := []) : Outcome VersionMetadata :=
  match (validateName name).or (validateShardSize shardSize) with
  | some e => (.error e, s)
  | none =>
    if isHexInt checksum = false ∨ checksum.length ≠ 64 then
      s.raised .valueError (str "checksum must be a BLAKE3 hex digest")
    else if s.capacity < data.length then
      (.error (versionTooLarge name data.length s.capacity), s)
    else
      let metadata : VersionMetadata :=
        { name, totalSize := data.length, shardSize := shardSize.toNat
          shardCount := shardCountOf data.length shardSize.toNat, checksum := lower checksum }
      match validateShardChecksums shardChecksums metadata.shardCount with
      | some e => (.error e, s)
      | none => (.ok metadata, s.storeComplete metadata data shardChecksums)

/-! ## Versions filled shard by shard -/

def beginVersion (s : CheckpointStore) (metadata : VersionMetadata) (shardChecksums : List Str) :
    Outcome VersionMetadata :=
  match (validateName metadata.name).or (validateShardSize metadata.shardSize) with
  | some e => (.error e, s)
  | none =>
    if shardChecksums.length ≠ metadata.shardCount then
      s.raised .valueError (str "one checksum is required per shard")
    else match s.versions.get? metadata.name with
      | some existing =>
        if existing.metadata ≠ metadata ∨
            (existing.shardChecksums ≠ [] ∧ existing.shardChecksums ≠ shardChecksums) then
          s.raised .valueError (str "version metadata changed")
        else if existing.shardChecksums = [] then
          (.ok existing.metadata,
            { s with versions := s.versions.insert metadata.name { existing with shardChecksums } })
        else (.ok existing.metadata, s)
      | none =>
        (.ok metadata,
          { s with versions := s.versions.insert metadata.name { metadata, shardChecksums } })

/-- `min(shard_size, total_size - index * shard_size)` -/
def expectedSize (metadata : VersionMetadata) (index : Int) : Int :=
  min (metadata.shardSize : Int) (metadata.totalSize - index * metadata.shardSize)

/-- The checks of `_put_shard` before anything is evicted. -/
def shardRejection (stored : StoredVersion) (index : Int) (retained : Bytes)
    (verifiedChecksum : Option Str) : Option Exc :=
  if index < 0 ∨ (stored.metadata.shardCount : Int) ≤ index then
    some ⟨.invalidShardIndexError, []⟩
  else if (retained.length : Int) ≠ expectedSize stored.metadata index then
    some ⟨.valueError, str "shard size does not match manifest"⟩
  else if stored.shardChecksums = [] then none
  else match stored.shardChecksums[index.toNat]? with
    | none => some ⟨.indexError, str "tuple index out of range"⟩
    | some expected =>
      if verifiedChecksum.getD (hexdigest retained) ≠ expected then
        some ⟨.valueError, str "shard checksum does not match manifest"⟩
      else none

/-- `len(retained) - (0 if previous is None else len(previous))` -/
def additionalBytes (stored : StoredVersion) (index : Nat) (retained : Bytes) : Int :=
  retained.length - ((stored.shards.get? index).elim 0 List.length : Nat)

def putShardCore (s : CheckpointStore) (name : Str) (index : Int) (retained : Bytes)
    (verifiedChecksum : Option Str) : Outcome Bytes :=
  match s.versions.get? name with
  | none => s.raised .versionNotFoundError name
  | some stored =>
    match shardRejection stored index retained verifiedChecksum with
    | some e => (.error e, s)
    | none =>
      let additional := additionalBytes stored index.toNat retained
      let s := s.evict additional (fun oldest => oldest = name)
      if s.size + additional > s.capacity then
        s.raised .versionTooLargeError (str "shard cannot fit in configured capacity")
      else
        (.ok retained,
          { s with
            versions := s.versions.insert name
              { stored with shards := stored.shards.insert index.toNat retained }
            size := s.size + additional })

def putShard (s : CheckpointStore) (name : Str) (index : Int) (data : Bytes) : Outcome Bytes :=
  s.putShardCore name index data none

def putVerifiedShard (s : CheckpointStore) (name : Str) (index : Int) (data : Bytes)
    (verifiedChecksum : Str) : Outcome Bytes :=
  s.putShardCore name index data (some (lower verifiedChecksum))

end

/-! ## Removal -/

def remove (s : CheckpointStore) (name : Str) : Bool × CheckpointStore :=
  match s.versions.get? name with
  | none => (false, s)
  | some stored =>
    (true, { s with versions := s.versions.erase name, size := s.size - stored.storedBytes })

def clear (s : CheckpointStore) : CheckpointStore :=
  { s with versions := .empty, size := 0 }

/-! ## Reading -/

def hasShard (s : CheckpointStore) (name : Str) (index : Int) : Bool :=
  match s.versions.get? name with
  | none => false
  | some stored =>
    match stored.data with
    | some _ => 0 ≤ index ∧ index < stored.metadata.shardCount
    | none => 0 ≤ index ∧ stored.shards.contains index.toNat

def availableShards (s : CheckpointStore) (name : Str) : List Nat :=
  match s.versions.get? name with
  | none => []
  | some stored =>
    match stored.data with
    | some _ => List.range stored.metadata.shardCount
    | none => stored.shards.keys.insertionSort (· ≤ ·)

def isComplete (s : CheckpointStore) (name : Str) : Bool :=
  match s.versions.get? name with
  | none => false
  | some stored =>
    stored.data.isSome || stored.shards.length = stored.metadata.shardCount

def get (s : CheckpointStore) (name : Str) : Option Bytes :=
  (s.versions.get? name).bind StoredVersion.data

def getMetadata (s : CheckpointStore) (name : Str) : Option VersionMetadata :=
  (s.versions.get? name).map StoredVersion.metadata

/-- `start` and `end` of a shard in the buffer of its version. -/
def shardSpan (metadata : VersionMetadata) (index : Nat) : Nat × Nat :=
  let start := index * metadata.shardSize
  (start, min (start + metadata.shardSize) metadata.totalSize)

def getShard (s : CheckpointStore) (name : Str) (index : Int) : Except Exc Bytes :=
  match s.versions.get? name with
  | none => .error ⟨.versionNotFoundError, name⟩
  | some stored =>
    if index < 0 ∨ (stored.metadata.shardCount : Int) ≤ index then
      .error ⟨.invalidShardIndexError, []⟩
    else match stored.data with
      | none =>
        match stored.shards.get? index.toNat with
        | none =>
          .error ⟨.versionNotFoundError,
            name ++ str " shard " ++ decimal index.toNat ++ str " is not available"⟩
        | some shard => .ok shard
      | some data =>
        let (start, stop) := shardSpan stored.metadata index.toNat
        .ok (Pieces.slice data start stop)

def getShardWithChecksum [Library] (s : CheckpointStore) (name : Str) (index : Int) :
    Except Exc (Bytes × Str) :=
  match s.getShard name index with
  | .error e => .error e
  | .ok shard =>
    let shardChecksums := (s.versions.get? name).elim [] StoredVersion.shardChecksums
    if shardChecksums = [] then .ok (shard, hexdigest shard)
    else match shardChecksums[index.toNat]? with
      | none => .error ⟨.indexError, str "tuple index out of range"⟩
      | some checksum => .ok (shard, checksum)

/-- `list_versions`, oldest first. -/
def listVersions (s : CheckpointStore) : List VersionMetadata :=
  s.versions.values.map StoredVersion.metadata

end CheckpointStore

end Litecast
