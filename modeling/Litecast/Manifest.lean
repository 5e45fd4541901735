import Litecast.Membership
import Litecast.Store

/-! The manifest half of `streaming.py`. -/

namespace Litecast

def maxManifestBytes : Nat := 16 * 1024 * 1024

structure ShardManifest where
  name : Str
  totalSize : Nat
  shardSize : Nat
  shardCount : Nat
  checksum : Str
  shardChecksums : List Str
  members : List Str := []
  replicationFactor : Nat := 1
  merkleRoot : Option Str := none
  memberProfiles : List (Str × MemberProfile) := []
  /-- Any JSON number equal to 1 or 2 is a schema, `true` and `2.0` included. -/
  schema : Json := .int 2

/-! ## Merkle root -/

def asciiBytes (s : String) : Bytes := s.toList.map fun c => UInt8.ofNat c.toNat

section
variable [Library]

def merkleLeaf (digest : Bytes) : Bytes := (blake3 (asciiBytes "litecast-leaf\x00" ++ digest)).bytes

def merkleNode (left right : Bytes) : Bytes :=
  (blake3 (asciiBytes "litecast-node\x00" ++ left ++ right)).bytes

/-- One turn of the loop; an odd level repeats its last digest. -/
def merkleLevel : List Bytes → List Bytes
  | [] => []
  | [last] => [merkleNode last last]
  | left :: right :: rest => merkleNode left right :: merkleLevel rest

/-- A level of two or more is followed by a shorter one. -/
def merkleTop : Nat → List Bytes → Bytes
  | 0, level => level.headD []
  | fuel + 1, level => if level.length ≤ 1 then level.headD [] else merkleTop fuel (merkleLevel level)

/-- `bytes.fromhex(checksum)` -/
def digestOfHex (checksum : Str) : Except Exc Bytes :=
  match fromHex? checksum with
  | some digest => .ok digest
  | none => valueError (str "non-hexadecimal number found in fromhex() arg")

def merkleRoot (shardChecksums : List Str) : Except Exc Str := do
  let level ← shardChecksums.mapM fun checksum => do return merkleLeaf (← digestOfHex checksum)
  if level = [] then return (blake3 (asciiBytes "litecast-empty\x00")).hex
  else return hex (merkleTop level.length level)

end

namespace ShardManifest

def shardLength (m : ShardManifest) (index : Int) : Except Exc Int :=
  if index < 0 ∨ m.shardCount ≤ index then .error ⟨.indexError, []⟩
  else .ok (min (m.shardSize : Int) (m.totalSize - index * m.shardSize))

/-- Where `_download_streaming` puts a shard in the buffer of its version. -/
def targetSpan (m : ShardManifest) (index : Nat) : Except Exc (Nat × Nat) := do
  let length ← m.shardLength index
  let start := index * m.shardSize
  return (start, start + length.toNat)

/-! ## Writing -/

/-- `self.schema >= MANIFEST_SCHEMA` -/
def carriesProfiles (m : ShardManifest) : Bool := m.schema.number?.any (2 ≤ ·)

def toDict (m : ShardManifest) : Json :=
  let document : List (Str × Json) :=
    [(str "schema", m.schema), (str "name", .str m.name), (str "total_size", .int m.totalSize),
      (str "shard_size", .int m.shardSize), (str "shard_count", .int m.shardCount),
      (str "checksum", .str m.checksum), (str "shard_checksums", .arr (m.shardChecksums.map .str)),
      (str "members", .arr (m.members.map .str)),
      (str "replication_factor", .int m.replicationFactor)]
  if m.carriesProfiles then
    .obj (document ++ [(str "merkle_root", m.merkleRoot.elim .null .str),
      (str "member_profiles", profilesObject m.memberProfiles)])
  else .obj document

/-- The property `profiles`. -/
def profiles (m : ShardManifest) : Json := profilesObject m.memberProfiles

section
variable [Library]

def toBytes (m : ShardManifest) : Except Exc Bytes :=
  let payload := dumps m.toDict
  if maxManifestBytes < payload.length then valueError (str "shard manifest exceeds size limit")
  else .ok payload

/-! ## Reading -/

/-- `_checksum` on a string. -/
def isChecksum (s : Str) : Bool := s.length = 64 && isHexInt s

/-- A JSON value for which `_checksum` holds. -/
def checksum? (value : Json) : Option Str := value.string?.filter fun s => isChecksum s

/-- `_integer` -/
def integer (value : Json) (label : Str) (minimum : Nat) : Except Exc Nat :=
  match value.plainInt? with
  | some n => if n < minimum then valueError (str "invalid " ++ label) else .ok n.toNat
  | none => valueError (str "invalid " ++ label)

abbrev inconsistent {α : Type} : Except Exc α := valueError (str "inconsistent shard manifest")

def requireSome {α : Type} : Option α → Except Exc α
  | some a => .ok a
  | none => inconsistent

def requireTrue (condition : Prop) [Decidable condition] : Except Exc Unit :=
  if condition then .ok () else inconsistent

def array? : Json → Option (List Json)
  | .arr items => some items
  | _ => none

/-- `canonical_member_profiles` inside its `try`: other exceptions pass. -/
def manifestProfiles (membersValue profilesValue : Json) :
    Except Exc (List (Str × MemberProfile)) :=
  if membersValue.truthy = false then .ok []
  else
    match (do canonicalMemberProfiles (← memberTexts membersValue) profilesValue) with
    | .ok profiles => .ok profiles
    | .error e => if e.cls = .typeError ∨ e.cls.isValueError then inconsistent else .error e

/-- `set(items) == set(members)` when `none` stands for an item that is no string. -/
def sameNames (items : List (Option Str)) (members : List Str) : Bool :=
  items.all (fun item => item.elim false (· ∈ members)) && members.all (fun m => some m ∈ items)

/-- `set(value) == set(members)`: a value that is not iterable, or has an
unhashable item, raises. -/
def namesMembers (value : Json) (members : List Str) : Except Exc Bool :=
  match value with
  | .obj fields => .ok (sameNames (fields.map fun field => some field.1) members)
  | .str s => .ok (sameNames (s.map fun c => some [c]) members)
  | .arr items =>
    if items.any (fun item => !item.hashable) then typeError (str "unhashable type")
    else .ok (sameNames (items.map Json.string?) members)
  | _ => typeError (str "object is not iterable")

/-- The part of the last test that only the current schema has. -/
def readMerkleRoot (value profilesValue : Json) (shardChecksums members : List Str) :
    Except Exc Str := do
  let root ← requireSome ((value.get? (str "merkle_root")).bind checksum?)
  let expected ← Litecast.merkleRoot shardChecksums
  requireTrue (root = expected)
  let named ← namesMembers profilesValue members
  requireTrue (named = true)
  return root

/-- `root`; the keys of the legacy schema leave it out. -/
def readRoot (value schema profilesValue : Json) (shardChecksums members : List Str) :
    Except Exc (Option Str) :=
  if schema.eqInt 2 then some <$> readMerkleRoot value profilesValue shardChecksums members
  else .ok none

def requiredKeys (current : Bool) : List Str :=
  [str "schema", str "name", str "total_size", str "shard_size", str "shard_count", str "checksum",
    str "shard_checksums", str "members", str "replication_factor"] ++
    if current then [str "merkle_root", str "member_profiles"] else []

/-- The fields of an object with the keys of its schema. -/
def readFields (value schema : Json) : Except Exc ShardManifest := do
  let item (key : Str) := (value.get? key).getD .null
  let totalSize ← integer (item (str "total_size")) (str "total_size") 0
  let shardSize ← integer (item (str "shard_size")) (str "shard_size") 1
  let shardCount ← integer (item (str "shard_count")) (str "shard_count") 0
  let profilesValue := (value.get? (str "member_profiles")).getD (.obj [])
  let memberProfiles ← manifestProfiles (item (str "members")) profilesValue
  let name ← requireSome ((item (str "name")).string?.filter (· ≠ []))
  requireTrue (shardCount = shardCountOf totalSize shardSize)
  let checksums ← requireSome (array? (item (str "shard_checksums")))
  requireTrue (checksums.length = shardCount)
  let checksum ← requireSome (checksum? (item (str "checksum")))
  let shardChecksums ← requireSome (checksums.mapM checksum?)
  let membersValue ← requireSome (array? (item (str "members")))
  let members ← requireSome (membersValue.mapM Json.string?)
  requireTrue (members = [] ∨ canonicalMembers members = .ok members)
  let replicationFactor ← requireSome (item (str "replication_factor")).plainInt?
  requireTrue (1 ≤ replicationFactor)
  requireTrue (members = [] ∨ replicationFactor ≤ members.length)
  let merkleRoot ← readRoot value schema profilesValue shardChecksums members
  return { name, totalSize, shardSize, shardCount, checksum, shardChecksums, members
           replicationFactor := replicationFactor.toNat, merkleRoot, memberProfiles, schema }

def fromBytes (raw : Bytes) : Except Exc ShardManifest :=
  if maxManifestBytes < raw.length then valueError (str "shard manifest exceeds size limit")
  else match loads raw with
    | none => valueError (str "invalid shard manifest")
    | some value =>
      if value.isObject = false then valueError (str "shard manifest must be an object")
      else
        let schema := (value.get? (str "schema")).getD .null
        if (schema.eqInt 1 || schema.eqInt 2) = false ∨
            value.hasExactly (requiredKeys (schema.eqInt 2)) = false then
          valueError (str "unsupported shard manifest schema")
        else readFields value schema

end

end ShardManifest

/-! ## Building -/

def manifestSpan (shardSize totalSize index : Nat) : Nat × Nat :=
  (index * shardSize, min ((index + 1) * shardSize) totalSize)

/-- `view[index * shard_size:min((index + 1) * shard_size, total_size)]` -/
def manifestSlice (view : Bytes) (shardSize index : Nat) : Bytes :=
  let (start, stop) := manifestSpan shardSize view.length index
  Pieces.slice view start stop

def buildManifest [Library] (name : Str) (view : Bytes) (shardSize : Int) :
    Except Exc ShardManifest := do
  if name = [] then valueError (str "name must be a non-empty string")
  else if shardSize ≤ 0 then valueError (str "shard_size must be positive")
  else
    let shardSize := shardSize.toNat
    let shardCount := shardCountOf view.length shardSize
    let shardChecksums :=
      (List.range shardCount).map fun index => hexdigest (manifestSlice view shardSize index)
    let root ← merkleRoot shardChecksums
    return { name, totalSize := view.length, shardSize, shardCount, checksum := hexdigest view
             shardChecksums, merkleRoot := some root }

end Litecast
