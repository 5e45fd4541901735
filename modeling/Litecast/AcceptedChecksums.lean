import Litecast.Lib.Lexicographic
import Litecast.MerkleBinding
import Litecast.Monitor
import Litecast.StreamedShards

/-! Which checksums a manifest and the store accept, and which shards these
accept in turn. -/

namespace Litecast

/-! ## The number a checksum stands for -/

def hexNumber (digits : Str) : Nat :=
  digits.foldl (fun n c => if c = .ofChar '_' then n else 16 * n + c.hexValue?.getD 0) 0

section
variable [Library]

/-- `int(text, 16)`, `none` where it raises. -/
def hexInt? (text : Str) : Option Int :=
  let signed := stripSpaces (asciiForm text)
  let digits := stripBase (stripSign signed)
  if underscoredDigits digits then
    some (if signed.head? = some (.ofChar '-') then -(hexNumber digits : Int) else hexNumber digits)
  else none

end

/-- What `int` reads past, or reads as something else: white space, a sign, an
underscore, the letter of a base, and what is not ASCII. -/
def isExtra (c : CodePoint) : Bool :=
  127 ≤ c.val || c.asciiSpace || c = .ofChar '+' || c = .ofChar '-' || c = .ofChar '_' ||
    c = .ofChar 'x' || c = .ofChar 'X'

def isUpper (c : CodePoint) : Bool := 65 ≤ c.val && c.val ≤ 70

/-! ## What `int` reads -/

theorem mem_underscoredDigits {s : Str} (h : underscoredDigits s = true) {c : CodePoint}
    (hc : c ∈ s) : c.isHexDigit = true ∨ isExtra c = true := by
  induction s using underscoredDigits.induct with
  | case1 => cases hc
  | case2 d =>
    rw [List.mem_singleton.mp hc]
    exact Or.inl h
  | case3 d e rest hskipped hnext =>
    rw [underscoredDigits, Bool.and_eq_true] at h
    obtain ⟨hd, h⟩ := h
    rcases List.mem_cons.mp hc with rfl | hc
    · exact Or.inl hd
    split_ifs at h with hunderscore
    · rcases List.mem_cons.mp hc with rfl | hc
      · rw [hunderscore]
        exact Or.inr rfl
      · exact hskipped h hc
    · exact hnext h hc

theorem mem_stripBase {s : Str} {c : CodePoint} (hc : c ∈ s) :
    c ∈ stripBase s ∨ c.isHexDigit = true ∨ isExtra c = true := by
  unfold stripBase
  split
  · next zero x rest =>
    split_ifs with hbase
    · obtain ⟨rfl, hx⟩ := hbase
      rcases List.mem_cons.mp hc with rfl | hc
      · exact Or.inr (Or.inl rfl)
      rcases List.mem_cons.mp hc with rfl | hc
      · rcases hx with rfl | rfl <;> exact Or.inr (Or.inr rfl)
      split
      · split_ifs with hunderscore
        · rcases List.mem_cons.mp hc with rfl | hc
          · rw [hunderscore]
            exact Or.inr (Or.inr rfl)
          · exact Or.inl hc
        · exact Or.inl hc
      · cases hc
    · exact Or.inl hc
  · exact Or.inl hc

theorem mem_stripSign {s : Str} {c : CodePoint} (hc : c ∈ s) :
    c ∈ stripSign s ∨ isExtra c = true := by
  unfold stripSign
  split
  · next first rest =>
    split_ifs with hsign
    · rcases List.mem_cons.mp hc with rfl | hc
      · rcases hsign with rfl | rfl <;> exact Or.inr rfl
      · exact Or.inl hc
    · exact Or.inl hc
  · exact Or.inl hc

theorem mem_dropWhile {s : Str} {c : CodePoint} (hc : c ∈ s) :
    c ∈ s.dropWhile (·.asciiSpace) ∨ c.asciiSpace = true := by
  rw [← List.takeWhile_append_dropWhile (p := (·.asciiSpace)) (l := s)] at hc
  exact (List.mem_append.mp hc).symm.imp_right List.mem_takeWhile_imp

theorem isExtra_of_space {c : CodePoint} (h : c.asciiSpace = true) : isExtra c = true := by
  simp [isExtra, h]

theorem mem_stripSpaces {s : Str} {c : CodePoint} (hc : c ∈ s) :
    c ∈ stripSpaces s ∨ isExtra c = true := by
  rcases mem_dropWhile hc with hc | hspace
  · rcases mem_dropWhile (List.mem_reverse.mpr hc) with hc | hspace
    · exact Or.inl (List.mem_reverse.mpr hc)
    · exact Or.inr (isExtra_of_space hspace)
  · exact Or.inr (isExtra_of_space hspace)

section
variable [Library]

theorem mem_asciiForm {s : Str} {c : CodePoint} (hc : c ∈ s) :
    c ∈ asciiForm s ∨ isExtra c = true := by
  by_cases hascii : c.val < 127
  · left
    rw [asciiForm]
    split_ifs
    · exact hc
    · have hsame : toAscii c = c := if_pos hascii
      exact hsame ▸ List.mem_map_of_mem hc
  · right
    simp only [isExtra, Bool.or_eq_true, decide_eq_true_eq]
    omega

/-- Whatever else `int` accepts is extra. -/
theorem mem_hexInt {s : Str} (h : isHexInt s = true) {c : CodePoint} (hc : c ∈ s) :
    c.isHexDigit = true ∨ isExtra c = true := by
  rcases mem_asciiForm hc with hc | hextra
  · rcases mem_stripSpaces hc with hc | hextra
    · rcases mem_stripSign hc with hc | hextra
      · rcases mem_stripBase hc with hc | hother
        · exact mem_underscoredDigits h hc
        · exact hother
      · exact Or.inr hextra
    · exact Or.inr hextra
  · exact Or.inr hextra

omit [Library] in
theorem not_isExtra_of_isHexDigit {c : CodePoint} (h : c.isHexDigit = true) : isExtra c = false := by
  have hcases := CodePoint.isHexDigit_cases h
  have hspace := CodePoint.not_space_of_isHexDigit h
  have hne : ∀ ch : Char, (CodePoint.ofChar ch).isHexDigit = false → c ≠ .ofChar ch :=
    fun _ hch => CodePoint.ne_of_isHexDigit h hch
  simp only [isExtra, hspace, hne '+' rfl, hne '-' rfl, hne '_' rfl, hne 'x' rfl, hne 'X' rfl,
    decide_false, Bool.or_false, decide_eq_false_iff_not]
  omega

theorem isHexDigest_iff {s : Str} (h : ShardManifest.isChecksum s = true) :
    IsHexDigest s ↔ ∀ c ∈ s, isExtra c = false := by
  rw [ShardManifest.isChecksum, Bool.and_eq_true, decide_eq_true_eq] at h
  constructor
  · exact fun hdigest c hc => not_isExtra_of_isHexDigit (hdigest.2 c hc)
  · refine fun hplain => ⟨h.1, fun c hc => (mem_hexInt h.2 hc).resolve_right ?_⟩
    rw [hplain c hc]
    exact Bool.false_ne_true

/-! ## Equal numbers -/

omit [Library] in
theorem hexNumber_of_digits {s : Str} (hs : ∀ c ∈ s, c.isHexDigit = true) :
    hexNumber s = Lexicographic.value 16 0 0 (s.map fun c => c.hexValue?.getD 0) := by
  rw [hexNumber, Lexicographic.value, List.foldl_map]
  apply List.foldl_ext
  intro n c hc
  rw [if_neg (CodePoint.ne_of_isHexDigit (hs c hc) rfl), Nat.sub_zero]

theorem hexInt?_of_digits {s : Str} (hne : s ≠ []) (hs : ∀ c ∈ s, c.isHexDigit = true) :
    hexInt? s = some (hexNumber s : Int) := by
  obtain ⟨hascii, hspaces, hsign⟩ := stripped_of_digits hs
  have hfirst : s.head? ≠ some (.ofChar '-') := by
    intro h
    exact CodePoint.ne_of_isHexDigit (hs _ (List.mem_of_mem_head? h)) rfl rfl
  rw [hexInt?, hascii, hspaces, hsign, stripBase_of_digits hs, if_pos (underscoredDigits_of_digits hne hs),
    if_neg hfirst]

/-- The digits of `hexdigest`. -/
def LowerHex (s : Str) : Prop := ∀ c ∈ s, c.isHexDigit = true ∧ isUpper c = false

omit [Library] in
theorem hexValue_of_lower {c : CodePoint} (hdigit : c.isHexDigit = true) (hlower : isUpper c = false) :
    c.hexValue?.getD 0 < 16 ∧ c.val = c.hexValue?.getD 0 + if c.hexValue?.getD 0 < 10 then 48 else 87 := by
  have hcases := CodePoint.isHexDigit_cases hdigit
  simp only [isUpper, Bool.and_eq_false_iff, decide_eq_false_iff_not] at hlower
  rw [CodePoint.hexValue?]
  rcases hcases with hnumber | hletter | hupper
  · rw [if_pos hnumber, Option.getD_some, if_pos (by omega)]
    omega
  · rw [if_neg (by omega), if_pos hletter, Option.getD_some, if_neg (by omega)]
    omega
  · omega

omit [Library] in
theorem hexNumber_injective {s t : Str} (hlength : s.length = t.length) (hs : LowerHex s)
    (ht : LowerHex t) (h : hexNumber s = hexNumber t) : s = t := by
  have hdigits : ∀ {s : Str}, LowerHex s →
      Lexicographic.AreDigits 16 0 (s.map fun c => c.hexValue?.getD 0) := by
    intro s hs n hn
    obtain ⟨c, hc, rfl⟩ := List.mem_map.mp hn
    have hlt := (hexValue_of_lower (hs c hc).1 (hs c hc).2).1
    omega
  rw [hexNumber_of_digits fun c hc => (hs c hc).1, hexNumber_of_digits fun c hc => (ht c hc).1] at h
  have hvalues := Lexicographic.value_injective (by simpa using hlength) (hdigits hs) (hdigits ht) h
  -- the value of a character tells the character
  have hcode : ∀ {s : Str}, LowerHex s → s.map CodePoint.val =
      (s.map fun c => c.hexValue?.getD 0).map fun n => n + if n < 10 then 48 else 87 := by
    intro s hs
    rw [List.map_map]
    exact List.map_congr_left fun c hc => (hexValue_of_lower (hs c hc).1 (hs c hc).2).2
  apply List.map_injective_iff.mpr CodePoint.val_injective
  rw [hcode hs, hcode ht, hvalues]

omit [Library] in
theorem lowerHex_hex (data : Bytes) : LowerHex (hex data) := by
  intro c hc
  refine ⟨hex_isHexDigit data c hc, ?_⟩
  have hdigit : ∀ n, isUpper (hexDigit n) = false := by
    intro n
    have hall : ∀ m < 16, isUpper (.ofChar (Nat.digitChar m)) = false := by decide
    exact hall _ (Nat.mod_lt n (by decide))
  obtain ⟨byte, -, hbyte⟩ := List.mem_flatMap.mp hc
  simp only [List.mem_cons, List.not_mem_nil, or_false] at hbyte
  rcases hbyte with rfl | rfl <;> exact hdigit _

theorem lowerHex_hexdigest (data : Bytes) : LowerHex (hexdigest data) := lowerHex_hex _

/-- In lower case the number of a digest tells the digest. -/
theorem hexdigest_eq_of_number {data : Bytes} {checksum : Str} (hdigest : IsHexDigest checksum)
    (hlower : ∀ c ∈ checksum, isUpper c = false)
    (h : hexInt? (hexdigest data) = hexInt? checksum) : hexdigest data = checksum := by
  have hne : ∀ {s : Str}, s.length = 64 → s ≠ [] := by
    rintro s hs rfl
    cases hs
  have hdata := lowerHex_hexdigest data
  rw [hexInt?_of_digits (hne (length_hexdigest data)) fun c hc => (hdata c hc).1,
    hexInt?_of_digits (hne hdigest.1) hdigest.2, Option.some.injEq, Nat.cast_inj] at h
  exact hexNumber_injective ((length_hexdigest data).trans hdigest.1.symm) hdata
    (fun c hc => ⟨hdigest.2 c hc, hlower c hc⟩) h

/-! ## Shards that are taken -/

/-- The bytes are as long as the shard, and their digest has the number of its
checksum. -/
structure ShardManifest.Matches (m : ShardManifest) (index : Nat) (data : Bytes) : Prop where
  inRange : index < m.shardCount
  length : m.shardLength index = .ok (data.length : Int)
  number : hexInt? (hexdigest data) = hexInt? (m.shardChecksum index)

/-- `put_shard` takes the bytes wherever the version was begun, if they fit at all. -/
def ShardManifest.Puts (m : ShardManifest) (index : Nat) (data : Bytes) : Prop :=
  ∀ (store : CheckpointStore) (stored : StoredVersion),
    store.versions.get? m.name = some stored → stored.metadata = Monitor.metadataOf m →
    stored.shardChecksums = m.shardChecksums →
      (store.putShard m.name index data).1 = .ok data ∨
        (store.putShard m.name index data).1 =
          .error ⟨.versionTooLargeError, str "shard cannot fit in configured capacity"⟩

/-- The client takes the bytes when an owner it asks by HTTP sends them. -/
def ShardManifest.Receives (m : ShardManifest) (index : Nat) (data : Bytes) : Prop :=
  ∀ (client : ClientNode) (answer : OwnerAnswer) (target : Bytes), client.transport ≠ .ucxx →
    (client.transport = .http ∨ Endpoint.serves answer.endpoint (str "get_shard") = false) →
    answer.http = .response (some data.length) data → target.length = data.length →
      client.askOwner m index answer target = (true, data)

/-- Every shard the manifest matches is taken. -/
def ShardManifest.Satisfiable (m : ShardManifest) : Prop :=
  ∀ index data, m.Matches index data → m.Puts index data ∧ m.Receives index data

namespace ShardManifest

variable {m : ShardManifest} {index : Nat} {data : Bytes}

theorem shardChecksum_eq (hm : m.Consistent) (hindex : index < m.shardCount) :
    m.shardChecksums[index]? = some (m.shardChecksum index) := by
  rw [← hm.checksums_length] at hindex
  rw [ShardManifest.shardChecksum, List.getElem?_eq_getElem hindex, Option.getD_some]

theorem Matches.puts (hm : m.Consistent) (h : m.Matches index data)
    (hdigest : hexdigest data = m.shardChecksum index) : m.Puts index data := by
  intro store stored hstored hmetadata hchecksums
  have hrange : ¬ ((index : Int) < 0 ∨ (m.shardCount : Int) ≤ index) := by
    have hlt := h.inRange
    omega
  have hlength := h.length
  rw [ShardManifest.shardLength, if_neg hrange, Except.ok.injEq] at hlength
  have haccepted : CheckpointStore.shardRejection stored index data none = none := by
    have hne : m.shardChecksums ≠ [] := by
      rw [← List.length_pos_iff, hm.checksums_length]
      exact Nat.zero_lt_of_lt h.inRange
    have hsize : ¬ (data.length : Int) ≠ CheckpointStore.expectedSize (Monitor.metadataOf m) index :=
      not_not.mpr hlength.symm
    have hcount : ¬ ((index : Int) < 0 ∨ ((Monitor.metadataOf m).shardCount : Int) ≤ index) := hrange
    rw [CheckpointStore.shardRejection, hmetadata, hchecksums, if_neg hcount, if_neg hsize,
      if_neg hne, Int.toNat_natCast, shardChecksum_eq hm h.inRange]
    simp only [Option.getD_none, hdigest, ne_eq, not_true_eq_false, if_false]
  simp only [CheckpointStore.putShard, CheckpointStore.putShardCore, hstored, haccepted]
  split_ifs
  · exact Or.inr rfl
  · exact Or.inl rfl

omit [Library] in
theorem overwrite_whole {target data : Bytes} (h : target.length = data.length) :
    overwrite target data = data := by
  rw [overwrite, Pieces.write, h, List.take_length, List.take_zero, List.nil_append, Nat.zero_add,
    List.drop_eq_nil_of_le h.le, List.append_nil]

theorem Matches.receives (hdigest : hexdigest data = m.shardChecksum index) :
    m.Receives index data := by
  intro client answer target hucxx hunserved hhttp hlength
  have hunused : ¬ (client.transport ≠ .http ∧
      Endpoint.serves answer.endpoint (str "get_shard") = true) := by
    rintro ⟨htransport, hserves⟩
    rcases hunserved with hhttp | hfalse
    · exact htransport hhttp
    · rw [hfalse] at hserves
      cases hserves
  have hget : downloadIntoFrom target answer.http = (true, data) := by
    rw [hhttp, downloadIntoFrom, hlength, overwrite_whole hlength]
    simp
  simp only [ClientNode.askOwner, if_neg hunused, Bool.false_eq_true, if_false, if_neg hucxx, hget,
    hdigest, decide_true, Bool.and_self]

theorem Matches.digest_of_receives (hreceives : m.Receives index data) :
    hexdigest data = m.shardChecksum index := by
  let answer : OwnerAnswer := ⟨none, .failed [], .response (some data.length) data⟩
  have hasked := hreceives httpClient answer (List.replicate data.length 0) (by decide) (Or.inl rfl)
    rfl List.length_replicate
  have hfills := httpClient.askOwner_fills m index answer (List.replicate data.length 0)
  rw [hasked] at hfills
  exact hfills.digest_eq rfl

theorem satisfiable_iff (hm : m.Consistent) :
    m.Satisfiable ↔ ∀ index data, m.Matches index data → hexdigest data = m.shardChecksum index := by
  constructor
  · exact fun h index data hmatches => Matches.digest_of_receives (h index data hmatches).2
  · exact fun h index data hmatches => ⟨hmatches.puts hm (h index data hmatches),
      Matches.receives (h index data hmatches)⟩

end ShardManifest

/-! ## What is accepted -/

theorem merkleRoot_isHexDigest {checksums : List Str} {root : Str}
    (h : merkleRoot checksums = .ok root) : IsHexDigest root := by
  obtain ⟨level, hlevel, -⟩ := bind_eq_ok.mp h
  have hdigests : ∃ digests, checksums.mapM digestOfHex = .ok digests := by
    have hall := mapM_eq_ok.mp hlevel
    clear h hlevel
    simp only [mapM_eq_ok]
    induction hall with
    | nil => exact ⟨[], .nil⟩
    | cons hleaf _ ih =>
      obtain ⟨digest, hdigest, -⟩ := bind_eq_ok.mp hleaf
      obtain ⟨digests, hdigests⟩ := ih
      exact ⟨digest :: digests, .cons hdigest hdigests⟩
  obtain ⟨digests, hdigests⟩ := hdigests
  rw [merkleRoot_eq hdigests, Except.ok.injEq] at h
  rw [← h]
  exact ⟨by rw [Digest.hex, hex_length, Digest.length_eq], hex_isHexDigit _⟩

theorem putVerified_isChecksum {s s' : CheckpointStore} {name checksum : Str} {data : Bytes}
    {shardSize : Int} {shardChecksums : List Str} {metadata : VersionMetadata}
    (h : s.putVerified name data shardSize checksum shardChecksums = (.ok metadata, s')) :
    ShardManifest.isChecksum checksum = true := by
  rw [CheckpointStore.putVerified] at h
  split at h
  · cases h
  · by_cases hinvalid : isHexInt checksum = false ∨ checksum.length ≠ 64
    · rw [if_pos hinvalid] at h
      cases h
    · rw [not_or, Bool.not_eq_false, not_not] at hinvalid
      rw [ShardManifest.isChecksum, hinvalid.1, hinvalid.2]
      rfl

/-- **Accepted checksums are digests, and matched shards are taken, exactly when
nothing in them is extra and nothing that is matched is in upper case.** -/
theorem accepted_checksums_iff {raw : Bytes} {m : ShardManifest}
    (hm : ShardManifest.fromBytes raw = .ok m) {s s' : CheckpointStore} {name checksum : Str}
    {data : Bytes} {shardSize : Int} {shardChecksums : List Str} {metadata : VersionMetadata}
    (hput : s.putVerified name data shardSize checksum shardChecksums = (.ok metadata, s')) :
    (IsHexDigest checksum ∧ IsHexDigest m.checksum ∧ (∀ c ∈ m.shardChecksums, IsHexDigest c) ∧
        (∀ root ∈ m.merkleRoot, IsHexDigest root) ∧ m.Satisfiable) ↔
      (∀ accepted ∈ checksum :: m.checksum :: m.shardChecksums, ∀ c ∈ accepted, isExtra c = false) ∧
        ∀ index data, m.Matches index data → ∀ c ∈ m.shardChecksum index, isUpper c = false := by
  have hconsistent := ShardManifest.fromBytes_consistent hm
  have hroot : ∀ root ∈ m.merkleRoot, IsHexDigest root := by
    intro root hroot
    cases hschema : m.schema.eqInt 2 with
    | true =>
      obtain ⟨found, hfound, -, hcomputed⟩ := hconsistent.current hschema
      obtain rfl := Option.some.inj (hfound.symm.trans hroot)
      exact merkleRoot_isHexDigest hcomputed
    | false =>
      rw [(hconsistent.legacy hschema).1] at hroot
      cases hroot
  have hplain : ∀ {c : Str}, ShardManifest.isChecksum c = true →
      (IsHexDigest c ↔ ∀ ch ∈ c, isExtra ch = false) := isHexDigest_iff
  rw [ShardManifest.satisfiable_iff hconsistent, List.forall_mem_cons, List.forall_mem_cons,
    hplain (putVerified_isChecksum hput), hplain hconsistent.checksum_valid]
  constructor
  · rintro ⟨hchecksum, hwhole, hshards, -, htaken⟩
    refine ⟨⟨hchecksum, hwhole, fun c hc => ?_⟩, ?_⟩
    · exact (hplain (hconsistent.checksums_valid c hc)).mp (hshards c hc)
    · intro index data hmatches c hc
      rw [← htaken index data hmatches] at hc
      exact (lowerHex_hexdigest data c hc).2
  · rintro ⟨⟨hchecksum, hwhole, hshards⟩, hlower⟩
    have hdigests : ∀ c ∈ m.shardChecksums, IsHexDigest c := fun c hc =>
      (hplain (hconsistent.checksums_valid c hc)).mpr (hshards c hc)
    refine ⟨hchecksum, hwhole, hdigests, hroot, fun index data hmatches => ?_⟩
    have hmem := List.mem_of_getElem?
      (ShardManifest.shardChecksum_eq hconsistent hmatches.inRange)
    exact hexdigest_eq_of_number (hdigests _ hmem) (hlower index data hmatches) hmatches.number

end

/-! ## One shard -/

theorem accepted_checksums_legacy :
    let _ := asciiLibrary
    IsHexDigest legacyManifest.checksum ∧ legacyManifest.Satisfiable := by
  intro _
  have hput : (CheckpointStore.putVerified { capacity := 8 } (str "v1") [1, 2, 3] 2
      legacyManifest.checksum).1 = .ok ⟨str "v1", 3, 2, 2, legacyManifest.checksum⟩ := by
    decide +kernel
  have hplain : ∀ accepted ∈ legacyManifest.checksum :: legacyManifest.checksum ::
      legacyManifest.shardChecksums, ∀ c ∈ accepted, isExtra c = false := by decide +kernel
  have hlower : ∀ index < 2, ∀ c ∈ legacyManifest.shardChecksum index, isUpper c = false := by
    decide +kernel
  obtain ⟨-, hwhole, -, -, htaken⟩ := (accepted_checksums_iff legacyManifest_read
    (Prod.ext hput rfl)).mpr ⟨hplain, fun index _ hmatches => hlower index hmatches.inRange⟩
  exact ⟨hwhole, htaken⟩

/-- A legacy manifest with a prefix in one checksum and capitals in the other. -/
def prefixedManifest : ShardManifest where
  name := str "v1"
  totalSize := 1
  shardSize := 1
  shardCount := 1
  checksum := str "0x" ++ List.replicate 62 (.ofChar '0')
  shardChecksums := [str "AB" ++ List.replicate 62 (.ofChar '0')]
  schema := .int 1

/-- The manifest is accepted, and the shard with the digest it names is not. -/
theorem prefixedManifest_unsatisfiable :
    let _ := asciiLibrary
    ShardManifest.fromBytes (dumps prefixedManifest.toDict) = .ok prefixedManifest ∧
      ¬ IsHexDigest prefixedManifest.checksum ∧
      (CheckpointStore.putVerified { capacity := 8 } (str "v1") [171] 1
        prefixedManifest.checksum).1 = .ok ⟨str "v1", 1, 1, 1, prefixedManifest.checksum⟩ ∧
      prefixedManifest.Matches 0 [171] ∧ ¬ prefixedManifest.Satisfiable := by
  intro _
  have hconsistent : prefixedManifest.Consistent := {
    schema := by decide, name_ne := by decide, shardSize_pos := by decide
    shardCount_eq := by decide, checksums_length := by decide, checksum_valid := by decide +kernel
    checksums_valid := by decide +kernel, members_canonical := by decide, factor_pos := by decide
    factor_le := by decide, profiles := by decide, current := by decide, legacy := by decide }
  have hlegible : prefixedManifest.Legible := {
    schema := .int 1, rejoined_schema := by rfl, name := by decide, checksum := by decide
    shardChecksums := by decide, members := by decide, merkleRoot := by decide
    profiled := by decide, texts := by decide, floats := by simp [prefixedManifest] }
  have hmatches : prefixedManifest.Matches 0 [171] :=
    ⟨by decide, by decide +kernel, by decide +kernel⟩
  refine ⟨ShardManifest.fromBytes_dumps hconsistent (by decide +kernel) hlegible.roundTrips,
    by decide +kernel, by decide +kernel, hmatches, ?_⟩
  intro hsatisfiable
  have hdigest := (ShardManifest.satisfiable_iff hconsistent).mp hsatisfiable 0 [171] hmatches
  have hne : hexdigest [171] ≠ prefixedManifest.shardChecksum 0 := by decide +kernel
  exact hne hdigest

end Litecast
