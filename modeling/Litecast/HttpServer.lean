import Litecast.JsonRoundTrip
import Litecast.StoreDigests

/-! `server.py`: the paths of shard files and what the HTTP server answers to
them from the store. -/

namespace Litecast

/-! ## Paths -/

/-- `"{:05d}".format(n)` -/
def zeroPadded (n : Nat) : Str :=
  List.replicate (5 - (decimal n).length) (.ofChar '0') ++ decimal n

def getShardFilename (shardIndex : Nat) : Str :=
  str "shard_" ++ zeroPadded (shardIndex + 1) ++ str ".bin"

/-- `"{}/shard_{:05d}.bin"`, what the downloaders ask a server for. -/
def shardPath (version : Str) (index : Nat) : Str :=
  version ++ .ofChar '/' :: getShardFilename index

/-- `self.path.split("?", 1)[0]` -/
def pathOnly (path : Str) : Str := path.takeWhile (· ≠ .ofChar '?')

section
variable [Library]

/-- The value of a character `\d` matches. -/
def digitValue? (c : CodePoint) : Option Nat :=
  if JsonText.isDigit c then some (c.val - 48) else (Library.unicodeDecimal c).map Fin.val

/-- `\d{n}` and the `int` of what it matched, `value` being that of the digits before. -/
def readDigits (value : Nat) : Nat → Str → Option (Nat × Str)
  | 0, text => some (value, text)
  | _ + 1, [] => none
  | n + 1, c :: rest =>
    match digitValue? c with
    | none => none
    | some digit => readDigits (10 * value + digit) n rest

/-- `_SHARD_PATH.match`: the version and the number in the path. A newline may
stand before its end. -/
def matchShardPath : Str → Option (Str × Nat)
  | [] => none
  | slash :: path =>
    let version := path.takeWhile (· ≠ .ofChar '/')
    let file := path.dropWhile (· ≠ .ofChar '/')
    let opening := str "/shard_"
    if slash ≠ .ofChar '/' ∨ version = [] ∨ opening.isPrefixOf file = false then none
    else
      match readDigits 0 5 (file.drop opening.length) with
      | none => none
      | some (number, rest) =>
        if rest = str ".bin" ∨ rest = str ".bin\n" then some (version, number) else none

/-! ## Answers -/

inductive HttpAnswer where
  | ok (body : Bytes)
  | error (status : Nat) (message : Str)
  deriving DecidableEq

/-- `_serve_store`; `none` leaves the request to the files of the directory. -/
def serveStore (store : CheckpointStore) (path : Str) : Option HttpAnswer :=
  match matchShardPath (pathOnly path) with
  | none => none
  | some (version, number) =>
    match store.getShard version ((number : Int) - 1) with
    | .ok shard => some (.ok shard)
    | .error e =>
      if e.cls = .invalidShardIndexError then some (.error 404 (str "Shard not found"))
      else if store.getMetadata version = none then none
      else some (.error 425 (str "Shard not available"))

end

/-! ## Shard numbers -/

open JsonText (isDigit digitsValue isDigit_decimal digitsValue_decimal length_decimal_le_iff)

theorem isDigit_zeroPadded (n : Nat) : ∀ c ∈ zeroPadded n, isDigit c = true := by
  intro c hc
  rcases List.mem_append.mp hc with hzero | hdecimal
  · obtain rfl := List.eq_of_mem_replicate hzero
    rfl
  · exact isDigit_decimal n c hdecimal

theorem digitsValue_zeroPadded (n : Nat) : digitsValue (zeroPadded n) = n := by
  have hzeros (k : Nat) : digitsValue (List.replicate k (.ofChar '0')) = 0 := by
    induction k with
    | zero => rfl
    | succ k ih => exact ih
  have hdecimal := digitsValue_decimal n
  rw [digitsValue] at hdecimal
  have hpadding := hzeros (5 - (decimal n).length)
  rw [digitsValue] at hpadding
  rw [digitsValue, zeroPadded, List.foldl_append, hpadding, hdecimal]

theorem length_zeroPadded (n : Nat) : (zeroPadded n).length = max 5 (decimal n).length := by
  rw [zeroPadded, List.length_append, List.length_replicate]
  omega

section
variable [Library]

theorem readDigits_digits {digits : Str} (hdigits : ∀ c ∈ digits, isDigit c = true) (value : Nat)
    (rest : Str) : readDigits value digits.length (digits ++ rest) =
      some (digits.foldl (fun n c => 10 * n + (c.val - 48)) value, rest) := by
  induction digits generalizing value with
  | nil => rfl
  | cons c digits ih =>
    have hc : digitValue? c = some (c.val - 48) := if_pos (hdigits c (by simp))
    rw [List.cons_append, List.length_cons, readDigits, hc]
    exact ih (fun d hd => hdigits d (by simp [hd])) _

/-- Five digits are read back as their number; a sixth stays in front of `.bin`. -/
theorem readDigits_zeroPadded (n : Nat) :
    if n < 100000 then readDigits 0 5 (zeroPadded n ++ str ".bin") = some (n, str ".bin")
    else ∃ number c rest, readDigits 0 5 (zeroPadded n ++ str ".bin") = some (number, c :: rest) ∧
      isDigit c = true := by
  have hlength := length_zeroPadded n
  have hdigits := isDigit_zeroPadded n
  split_ifs with hn
  · have hfive : (zeroPadded n).length = 5 := by
      have := (length_decimal_le_iff (by decide : 1 ≤ 5)).mpr hn
      omega
    have hread := readDigits_digits hdigits 0 (str ".bin")
    have hvalue := digitsValue_zeroPadded n
    rw [digitsValue] at hvalue
    rwa [hfive, hvalue] at hread
  · have hsix : 5 < (zeroPadded n).length := by
      have := mt (length_decimal_le_iff (by decide : 1 ≤ 5)).mp hn
      omega
    obtain ⟨c, tail, hdrop⟩ := List.exists_cons_of_ne_nil
      (List.ne_nil_of_length_pos (l := (zeroPadded n).drop 5) (by rw [List.length_drop]; omega))
    have hsplit : zeroPadded n = (zeroPadded n).take 5 ++ c :: tail := by
      rw [← hdrop, List.take_append_drop]
    have hfive : ((zeroPadded n).take 5).length = 5 := by
      rw [List.length_take]
      omega
    have hprefix : ∀ d ∈ (zeroPadded n).take 5, isDigit d = true :=
      fun d hd => hdigits d (List.mem_of_mem_take hd)
    have hread := readDigits_digits hprefix 0 (c :: tail ++ str ".bin")
    rw [hfive, ← List.append_assoc, ← hsplit] at hread
    exact ⟨_, c, tail ++ str ".bin", hread, hdigits c (by rw [hsplit]; simp)⟩

end

/-! ## Paths read back -/

theorem takeWhile_name {name : Str} {stop : CodePoint} (rest : Str) (h : stop ∉ name) :
    (name ++ stop :: rest).takeWhile (· ≠ stop) = name ∧
      (name ++ stop :: rest).dropWhile (· ≠ stop) = stop :: rest := by
  have hname : ∀ c ∈ name, decide (c ≠ stop) = true := by
    intro c hc
    simp only [ne_eq, decide_eq_true_eq]
    rintro rfl
    exact h hc
  rw [List.takeWhile_append_of_pos hname, List.dropWhile_append_of_pos hname]
  simp

theorem pathOnly_of_not_mem {path : Str} (h : .ofChar '?' ∉ path) : pathOnly path = path := by
  induction path with
  | nil => rfl
  | cons c path ih =>
    rw [List.mem_cons, not_or] at h
    rw [pathOnly, List.takeWhile_cons, if_pos (by simpa using Ne.symm h.1)]
    exact congrArg (c :: ·) (ih h.2)

/-- No two shards of a version share a path. -/
theorem shardPath_injective (version : Str) {i j : Nat}
    (h : shardPath version i = shardPath version j) : i = j := by
  have hfile : getShardFilename i = getShardFilename j :=
    (List.cons.inj (List.append_cancel_left h)).2
  rw [getShardFilename, getShardFilename] at hfile
  have hnumber := List.append_cancel_left (List.append_cancel_right hfile)
  have hvalue := congrArg digitsValue hnumber
  rw [digitsValue_zeroPadded, digitsValue_zeroPadded] at hvalue
  omega

theorem pathOnly_shardPath {version : Str} (hquery : .ofChar '?' ∉ version) (index : Nat) :
    pathOnly (.ofChar '/' :: shardPath version index) =
      .ofChar '/' :: shardPath version index := by
  apply pathOnly_of_not_mem
  have hdigits : .ofChar '?' ∉ zeroPadded (index + 1) := by
    intro hmem
    cases isDigit_zeroPadded _ _ hmem
  have hopening : .ofChar '?' ∉ str "shard_" := by decide
  have hending : .ofChar '?' ∉ str ".bin" := by decide
  have hfirst : CodePoint.ofChar '?' ≠ .ofChar '/' := by decide
  simp [shardPath, getShardFilename, hquery, hdigits, hopening, hending, hfirst]

section
variable [Library]

theorem matchShardPath_shardPath {version : Str} (hne : version ≠ [])
    (hslash : .ofChar '/' ∉ version) (index : Nat) :
    matchShardPath (.ofChar '/' :: shardPath version index) =
      if index < 99999 then some (version, index + 1) else none := by
  obtain ⟨hversion, hfile⟩ := takeWhile_name (getShardFilename index) hslash
  have hopening : (str "/shard_").isPrefixOf (.ofChar '/' :: getShardFilename index) = true := rfl
  have hrest : (CodePoint.ofChar '/' :: getShardFilename index).drop (str "/shard_").length =
      zeroPadded (index + 1) ++ str ".bin" := rfl
  have hread := readDigits_zeroPadded (index + 1)
  simp only [matchShardPath, shardPath, hversion, hfile, hopening, hrest, hne, ne_eq,
    not_true_eq_false, Bool.true_eq_false, or_self, if_false]
  split_ifs at hread with hindex
  · rw [hread, if_pos (by omega)]
    rfl
  · obtain ⟨number, c, rest, hread, hc⟩ := hread
    rw [hread, if_neg (by omega)]
    refine if_neg ?_
    rintro (hbin | hbin) <;>
    · obtain rfl : c = .ofChar '.' := (List.cons.inj hbin).1
      cases hc

end

/-! ## What the store answers -/

namespace CheckpointStore

section
variable [Library]

theorem Named.apply {s : CheckpointStore} (hs : s.Every fun name _ => name ≠ []) (op : StoreOp) :
    (s.apply op).Every fun name _ => name ≠ [] := by
  cases op with
  | put name data shardSize checksum shardChecksums =>
    exact Every.put hs name data shardSize checksum shardChecksums fun hvalid _ =>
      name_ne_of_validated hvalid
  | putVerified name data shardSize checksum shardChecksums =>
    exact Every.putVerified hs name data shardSize checksum shardChecksums fun hvalid _ =>
      name_ne_of_validated hvalid
  | beginVersion metadata shardChecksums =>
    exact Every.beginVersion hs metadata shardChecksums
      (fun hvalid _ => name_ne_of_validated hvalid) (fun v hget _ _ _ => hs _ v hget)
  | putShard name index data =>
    exact Every.putShardCore hs name index data none fun v hget _ => hs name v hget
  | putVerifiedShard name index data verifiedChecksum =>
    exact Every.putShardCore hs name index data (some (lower verifiedChecksum))
      fun v hget _ => hs name v hget
  | remove name => exact Every.remove hs name
  | clear => exact every_new s.capacity

/-- A version in a reached store has a name. -/
theorem Reached.named {s : CheckpointStore} (hs : s.Reached) {name : Str} {v : StoredVersion}
    (hv : s.versions.get? name = some v) : name ≠ [] := by
  obtain ⟨capacity, ops, rfl⟩ := hs
  have hevery := Runs.foldl_keeps
    (fun (s : CheckpointStore) op (hs : s.Every fun name _ => name ≠ []) => Named.apply hs op)
    (every_new capacity) ops
  exact hevery name v hv

end

theorem getMetadata_beginVersion_new (capacity : Nat) {metadata : VersionMetadata}
    {shardChecksums : List Str} (hname : metadata.name ≠ []) (hsize : 0 < metadata.shardSize)
    (hlength : shardChecksums.length = metadata.shardCount) :
    ((new capacity).beginVersion metadata shardChecksums).2.getMetadata metadata.name =
      some metadata := by
  have hnew : (new capacity).versions.get? metadata.name = none := rfl
  rw [CheckpointStore.beginVersion, validated_of_pos hname hsize]
  simp only [hlength, ne_eq, not_true_eq_false, if_false, hnew]
  simp [getMetadata]

/-- A shard is given exactly when the store has it. -/
theorem getShard_of_hasShard (s : CheckpointStore) {name : Str} {v : StoredVersion} {index : Nat}
    (hv : s.versions.get? name = some v) (hindex : index < v.metadata.shardCount) :
    s.hasShard name index = true ∧ (∃ shard, s.getShard name index = .ok shard) ∨
      s.hasShard name index = false ∧
        ∃ message, s.getShard name index = .error ⟨.versionNotFoundError, message⟩ := by
  have hnot : ¬((index : Int) < 0 ∨ (v.metadata.shardCount : Int) ≤ index) := by omega
  simp only [hasShard, getShard, hv, if_neg hnot]
  cases v.data with
  | some data => exact Or.inl ⟨by simpa using hindex, _, rfl⟩
  | none =>
    cases hshard : v.shards.get? index with
    | none =>
      exact Or.inr ⟨by simp [OrderedDict.contains, hshard],
        name ++ str " shard " ++ decimal index ++ str " is not available", by simp [hshard]⟩
    | some shard => exact Or.inl ⟨by simp [OrderedDict.contains, hshard], shard, by simp [hshard]⟩

end CheckpointStore

section
variable [Library]

/-- The path of a shard is read back, answered from the store, and its own. -/
structure ShardServed (s : CheckpointStore) (version : Str) (index : Nat) : Prop where
  parsed : matchShardPath (pathOnly (.ofChar '/' :: shardPath version index)) =
    some (version, index + 1)
  held : s.hasShard version index = true → ∃ shard, s.getShard version index = .ok shard ∧
    serveStore s (.ofChar '/' :: shardPath version index) = some (.ok shard)
  awaited : s.hasShard version index = false →
    serveStore s (.ofChar '/' :: shardPath version index) =
      some (.error 425 (str "Shard not available"))
  alone : ∀ other, shardPath version other = shardPath version index → other = index

theorem serveStore_of_parsed {s : CheckpointStore} {version path : Str} {index : Nat}
    {v : StoredVersion} (hpath : matchShardPath (pathOnly path) = some (version, index + 1))
    (hv : s.versions.get? version = some v) (hindex : index < v.metadata.shardCount) :
    (s.hasShard version index = true → ∃ shard, s.getShard version index = .ok shard ∧
        serveStore s path = some (.ok shard)) ∧
      (s.hasShard version index = false →
        serveStore s path = some (.error 425 (str "Shard not available"))) := by
  have hnumber : ((index + 1 : Nat) : Int) - 1 = index := by omega
  have hknown : s.getMetadata version ≠ none := by simp [CheckpointStore.getMetadata, hv]
  rcases s.getShard_of_hasShard hv hindex with ⟨hhas, shard, hshard⟩ | ⟨hhas, message, hshard⟩
  · refine ⟨fun _ => ⟨shard, hshard, ?_⟩, fun h => absurd hhas (by simp [h])⟩
    simp only [serveStore, hpath, hnumber, hshard]
  · refine ⟨fun h => absurd hhas (by simp [h]), fun _ => ?_⟩
    simp only [serveStore, hpath, hnumber, hshard, hknown, if_false, reduceCtorEq]

/-- **Shard paths are read back below 99999.** The path the downloaders build
for a shard of a known version is read back as that version and index, answered
with the shard or with 425, and shared with no other shard exactly when the
number in it has five digits. -/
theorem shardServed_iff (s : CheckpointStore) (hs : s.Reached) (version : Str)
    (metadata : VersionMetadata) (hmetadata : s.getMetadata version = some metadata)
    (hslash : .ofChar '/' ∉ version) (hquery : .ofChar '?' ∉ version)
    (index : Nat) (hindex : index < metadata.shardCount) :
    ShardServed s version index ↔ index < 99999 := by
  obtain ⟨v, hv, rfl⟩ := Option.map_eq_some_iff.mp hmetadata
  have hread := matchShardPath_shardPath (hs.named hv) hslash index
  rw [← pathOnly_shardPath hquery index] at hread
  constructor
  · intro hserved
    by_contra hlarge
    rw [if_neg hlarge, hserved.parsed] at hread
    cases hread
  · intro hsmall
    rw [if_pos hsmall] at hread
    obtain ⟨hheld, hawaited⟩ := serveStore_of_parsed hread hv hindex
    exact ⟨hread, hheld, hawaited, fun other hother => shardPath_injective version hother⟩

end

/-- A version of three shards, the second of them held. -/
theorem shardServed_iff_three_shards :
    letI := asciiLibrary
    let s := ((CheckpointStore.new 8).beginVersion ⟨str "v1", 3, 1, 3, []⟩
      [hexdigest [1], hexdigest [2], hexdigest [3]]).2
    ShardServed (s.putShard (str "v1") 1 [2]).2 (str "v1") 2 ↔ 2 < 99999 := by
  let _ := asciiLibrary
  exact shardServed_iff _
    ⟨8, [.beginVersion ⟨str "v1", 3, 1, 3, []⟩ [hexdigest [1], hexdigest [2], hexdigest [3]],
      .putShard (str "v1") 1 [2]], rfl⟩ (str "v1") ⟨str "v1", 3, 1, 3, []⟩ rfl (by decide)
    (by decide) 2 (by decide)

/-- The hundred-thousandth shard of a begun version. -/
theorem sixth_digit_not_parsed :
    letI := asciiLibrary
    ¬ ∀ (s : CheckpointStore), s.Reached → ∀ (version : Str) (metadata : VersionMetadata),
      s.getMetadata version = some metadata → metadata.shardCount ≤ 1000000 →
        .ofChar '/' ∉ version → .ofChar '?' ∉ version →
          ∀ index < metadata.shardCount, ShardServed s version index := by
  intro claim
  let _ := asciiLibrary
  let metadata : VersionMetadata := ⟨str "v1", 100000, 1, 100000, []⟩
  have hname : metadata.name ≠ [] := by decide
  have hsize : 0 < metadata.shardSize := Nat.one_pos
  obtain ⟨checksums, hlength⟩ : ∃ checksums : List Str, checksums.length = metadata.shardCount :=
    ⟨List.replicate 100000 (hexdigest [1]), List.length_replicate⟩
  have hbegun := CheckpointStore.getMetadata_beginVersion_new 8 hname hsize hlength
  have hserved := claim _ ⟨8, [.beginVersion metadata checksums], rfl⟩ (str "v1") metadata hbegun
    (by decide) (by decide) (by decide) 99999 (by decide)
  have hread := matchShardPath_shardPath hname (by decide) 99999
  rw [← pathOnly_shardPath (by decide) 99999, hserved.parsed] at hread
  cases hread

end Litecast
