import Litecast.Exceptions
import Litecast.ManifestRoundTrip

/-! What `ShardManifest.from_bytes` raises. -/

namespace Litecast

/-! ## Checks -/

/-- `set(value)` exists. -/
def Listable : Json → Prop
  | .obj _ => True
  | .str _ => True
  | .arr items => ∀ item ∈ items, item.hashable = true
  | _ => False

namespace ShardManifest

theorem namesMembers_uncaught_iff (value : Json) (members : List Str) :
    Uncaught ExcClass.isValueError (namesMembers value members) ↔ ¬ Listable value := by
  cases value with
  | arr items =>
    simp only [namesMembers, Listable]
    split_ifs with hany
    · simpa [ExcClass.isValueError] using hany
    · simpa using hany
  | _ => simp [namesMembers, Listable, ExcClass.isValueError]

@[simp] theorem not_uncaught_requireSome {α : Type} (o : Option α) :
    ¬ Uncaught ExcClass.isValueError (requireSome o) := by
  cases o <;> simp [requireSome, inconsistent, valueError, ExcClass.isValueError]

@[simp] theorem not_uncaught_requireTrue (p : Prop) [Decidable p] :
    ¬ Uncaught ExcClass.isValueError (requireTrue p) := by
  by_cases h : p <;> simp [requireTrue, h, inconsistent, valueError, ExcClass.isValueError]

@[simp] theorem not_uncaught_integer (value : Json) (label : Str) (minimum : Nat) :
    ¬ Uncaught ExcClass.isValueError (integer value label minimum) := by
  unfold integer
  split
  · split_ifs <;> simp [valueError, ExcClass.isValueError]
  · simp [valueError, ExcClass.isValueError]

end ShardManifest

section
variable [Library]

/-! ## Profiles -/

/-- An integer no `float` can hold. -/
def TooLarge (value : Json) : Prop := ∃ n, value = .int n ∧ Library.floatOfInt n = none

/-- `except (TypeError, ValueError)` -/
def ExcClass.isTypeOrValueError (cls : ExcClass) : Bool := cls = .typeError || cls.isValueError

theorem toFloat_uncaught_iff (value : Json) :
    Uncaught ExcClass.isTypeOrValueError (toFloat value) ↔ TooLarge value := by
  unfold TooLarge
  cases value with
  | int n =>
    rw [toFloat]
    cases h : Library.floatOfInt n with
    | none => simp [h, ExcClass.isTypeOrValueError, ExcClass.isValueError]
    | some x => simp [h]
  | str s =>
    rw [toFloat]
    cases Library.floatOfStr s with
    | none => simp [ExcClass.isTypeOrValueError, ExcClass.isValueError]
    | some x => simp
  | _ => simp [toFloat, ExcClass.isTypeOrValueError, ExcClass.isValueError]

theorem toFloat_bind_uncaught_iff {α : Type} {check : PyFloat → Except Exc α} (value : Json)
    (hcheck : ∀ x, ¬ Uncaught ExcClass.isTypeOrValueError (check x)) :
    Uncaught ExcClass.isTypeOrValueError (toFloat value >>= check) ↔ TooLarge value := by
  rw [uncaught_bind, toFloat_uncaught_iff, or_iff_left]
  rintro ⟨x, -, h⟩
  exact hcheck x h

theorem positiveFloat_uncaught_iff (value : Json) (label : Str) :
    Uncaught ExcClass.isTypeOrValueError (positiveFloat value label) ↔ TooLarge value := by
  apply toFloat_bind_uncaught_iff
  intro x
  cases x with
  | finite q => simp only; split <;> simp [ExcClass.isTypeOrValueError, ExcClass.isValueError]
  | _ => simp [ExcClass.isTypeOrValueError, ExcClass.isValueError]

theorem nonnegativeFloat_uncaught_iff (value : Json) (label : Str) :
    Uncaught ExcClass.isTypeOrValueError (nonnegativeFloat value label) ↔ TooLarge value := by
  apply toFloat_bind_uncaught_iff
  intro x
  cases x with
  | finite q => simp only; split <;> simp [ExcClass.isTypeOrValueError, ExcClass.isValueError]
  | _ => simp [ExcClass.isTypeOrValueError, ExcClass.isValueError]

/-- One of a profile's numbers is too large, those read before it being fine. -/
def HasTooLarge (profile : Json) : Prop :=
  let bandwidth := (profile.get? (str "bandwidth")).getD (.float (.finite 1))
  let capacity := (profile.get? (str "capacity")).getD (.float (.finite 1))
  let load := (profile.get? (str "load")).getD (.float (.finite 0))
  profile.isObject = true ∧ (∀ k ∈ profile.keys, k ∈ profileFields) ∧
    (TooLarge bandwidth ∨ (∃ q, positiveFloat bandwidth (str "bandwidth") = .ok q) ∧
      (TooLarge capacity ∨ (∃ q, positiveFloat capacity (str "capacity") = .ok q) ∧ TooLarge load))

theorem memberProfile_uncaught_iff (member : Str) (profile : Json) :
    Uncaught ExcClass.isTypeOrValueError (memberProfile member profile) ↔ HasTooLarge profile := by
  have hkeys : profile.keys.any (fun k => k ∉ profileFields) = true ↔
      ¬ ∀ k ∈ profile.keys, k ∈ profileFields := by simp
  unfold memberProfile HasTooLarge
  split_ifs with hobject hunknown
  · simp [hobject, ExcClass.isTypeOrValueError]
  · simp [hkeys.mp hunknown, ExcClass.isTypeOrValueError, ExcClass.isValueError]
  · have hknown : ∀ k ∈ profile.keys, k ∈ profileFields := not_not.mp (mt hkeys.mpr hunknown)
    simp only [uncaught_bind, positiveFloat_uncaught_iff, nonnegativeFloat_uncaught_iff,
      eq_true_of_ne_false hobject, true_and]
    constructor
    · rintro (h | ⟨bandwidth, hbandwidth, h | ⟨capacity, hcapacity, h | ⟨load, -, h⟩⟩⟩)
      · exact ⟨hknown, Or.inl h⟩
      · exact ⟨hknown, Or.inr ⟨⟨bandwidth, hbandwidth⟩, Or.inl h⟩⟩
      · exact ⟨hknown, Or.inr ⟨⟨bandwidth, hbandwidth⟩, Or.inr ⟨⟨capacity, hcapacity⟩, h⟩⟩⟩
      · -- a topology field that is no text raises a TypeError
        split at h <;> simp [ExcClass.isTypeOrValueError] at h
    · rintro ⟨-, h | ⟨⟨bandwidth, hbandwidth⟩, h | ⟨⟨capacity, hcapacity⟩, h⟩⟩⟩
      · exact Or.inl h
      · exact Or.inr ⟨bandwidth, hbandwidth, Or.inl h⟩
      · exact Or.inr ⟨bandwidth, hbandwidth, Or.inr ⟨capacity, hcapacity, Or.inl h⟩⟩

/-- A member's profile has a number too large, those of the members before it
being fine. -/
def SomeTooLarge (members : List Str) (profiles : Json) : Prop :=
  profiles.isObject = true ∧ (∀ k ∈ profiles.keys, k ∈ members) ∧
    ∃ before member after, members = before ++ member :: after ∧
      (∀ other ∈ before, ∃ profile,
        memberProfile other ((profiles.get? other).getD (.obj [])) = .ok profile) ∧
      HasTooLarge ((profiles.get? member).getD (.obj []))

theorem canonicalMemberProfiles_uncaught_iff (members : List Str) (profiles : Json) :
    Uncaught ExcClass.isTypeOrValueError (canonicalMemberProfiles members profiles) ↔
      ∃ canonical, canonicalMembers members = .ok canonical ∧ SomeTooLarge canonical profiles := by
  have hmembers : ¬ Uncaught ExcClass.isTypeOrValueError (canonicalMembers members) := by
    unfold canonicalMembers
    simp only
    split_ifs <;> simp [ExcClass.isTypeOrValueError, ExcClass.isValueError]
  rw [canonicalMemberProfiles, uncaught_bind, or_iff_right hmembers]
  refine exists_congr fun canonical => and_congr_right fun _ => ?_
  have hkeys : profiles.keys.any (fun k => k ∉ canonical) = true ↔
      ¬ ∀ k ∈ profiles.keys, k ∈ canonical := by simp
  unfold SomeTooLarge
  split_ifs with hobject hunknown
  · simp [hobject, ExcClass.isTypeOrValueError]
  · simp [hkeys.mp hunknown, ExcClass.isTypeOrValueError, ExcClass.isValueError]
  · have hknown : ∀ k ∈ profiles.keys, k ∈ canonical := not_not.mp (mt hkeys.mpr hunknown)
    rw [uncaught_mapM, and_iff_right (eq_true_of_ne_false hobject), and_iff_right hknown]
    refine exists_congr fun before => exists_congr fun member => exists_congr fun after => ?_
    refine and_congr_right fun _ => and_congr (forall₂_congr fun other _ => ?_) ?_
    · constructor
      · rintro ⟨item, h⟩
        obtain ⟨profile, hprofile, -⟩ := bind_eq_ok.mp h
        exact ⟨profile, hprofile⟩
      · rintro ⟨profile, h⟩
        exact ⟨(other, profile), bind_eq_ok.mpr ⟨profile, h, rfl⟩⟩
    · rw [uncaught_bind, memberProfile_uncaught_iff, or_iff_left]
      rintro ⟨profile, -, h⟩
      exact not_uncaught_pure _ h

/-! ## The whole document -/

namespace ShardManifest

@[simp] theorem not_uncaught_merkleRoot (shardChecksums : List Str) :
    ¬ Uncaught ExcClass.isValueError (Litecast.merkleRoot shardChecksums) := by
  rw [Litecast.merkleRoot, uncaught_bind, uncaught_mapM, not_or]
  constructor
  · rintro ⟨before, checksum, after, -, -, h⟩
    rw [uncaught_bind] at h
    rcases h with h | ⟨digest, -, h⟩
    · unfold digestOfHex at h
      split at h <;> simp [valueError, ExcClass.isValueError] at h
    · exact not_uncaught_pure _ h
  · rintro ⟨level, -, h⟩
    split at h <;> exact not_uncaught_pure _ h

theorem manifestProfiles_uncaught_iff (membersValue profilesValue : Json) :
    Uncaught ExcClass.isValueError (manifestProfiles membersValue profilesValue) ↔
      membersValue.truthy = true ∧ ∃ members canonical, memberTexts membersValue = .ok members ∧
        canonicalMembers members = .ok canonical ∧ SomeTooLarge canonical profilesValue := by
  have htexts : ¬ Uncaught ExcClass.isTypeOrValueError (memberTexts membersValue) := by
    cases membersValue <;> simp [memberTexts, typeError, ExcClass.isTypeOrValueError]
  have hread : Uncaught ExcClass.isTypeOrValueError
      (memberTexts membersValue >>= fun members => canonicalMemberProfiles members profilesValue) ↔
      ∃ members canonical, memberTexts membersValue = .ok members ∧
        canonicalMembers members = .ok canonical ∧ SomeTooLarge canonical profilesValue := by
    rw [uncaught_bind, or_iff_right htexts]
    simp only [canonicalMemberProfiles_uncaught_iff, exists_and_left]
  rw [manifestProfiles]
  split_ifs with htruthy
  · simp [htruthy]
  · rw [and_iff_right (eq_true_of_ne_false htruthy), ← hread]
    -- the handler turns what it catches into a ValueError and passes the rest on
    cases memberTexts membersValue >>= fun members => canonicalMemberProfiles members profilesValue with
    | ok profiles => simp
    | error e =>
      simp only
      by_cases hcaught : e.cls = .typeError ∨ e.cls.isValueError = true
      · have hcls : e.cls.isTypeOrValueError = true := by
          simpa [ExcClass.isTypeOrValueError] using hcaught
        rw [if_pos hcaught, inconsistent, valueError, uncaught_error, uncaught_error, hcls]
        simp [ExcClass.isValueError]
      · have hcls : e.cls.isTypeOrValueError = false ∧ e.cls.isValueError = false := by
          simpa [ExcClass.isTypeOrValueError] using hcaught
        rw [if_neg hcaught, uncaught_error, uncaught_error, hcls.1, hcls.2]

/-- The sizes and counts are numbers, and some member's profile has one that no
`float` can hold. -/
def TooLargeIn (value : Json) : Prop :=
  (∃ totalSize shardSize shardCount : Nat, field value "total_size" = .int totalSize ∧
    field value "shard_size" = .int shardSize ∧ 0 < shardSize ∧
    field value "shard_count" = .int shardCount) ∧
  (field value "members").truthy = true ∧
  ∃ members canonical, memberTexts (field value "members") = .ok members ∧
    canonicalMembers members = .ok canonical ∧
    SomeTooLarge canonical ((value.get? (str "member_profiles")).getD (.obj []))

/-- A manifest without members, but for its profiles. -/
structure Memberless (value : Json) (m : ShardManifest) : Prop where
  totalSize : field value "total_size" = .int m.totalSize
  shardSize : field value "shard_size" = .int m.shardSize
  shardSize_pos : 0 < m.shardSize
  shardCount : field value "shard_count" = .int m.shardCount
  shardCount_eq : m.shardCount = shardCountOf m.totalSize m.shardSize
  name : field value "name" = .str m.name
  name_ne : m.name ≠ []
  checksums : field value "shard_checksums" = .arr (m.shardChecksums.map .str)
  checksums_length : m.shardChecksums.length = m.shardCount
  checksum : field value "checksum" = .str m.checksum
  checksum_valid : isChecksum m.checksum = true
  checksums_valid : ∀ c ∈ m.shardChecksums, isChecksum c = true
  members : field value "members" = .arr []
  factor : field value "replication_factor" = .int m.replicationFactor
  factor_pos : 1 ≤ m.replicationFactor
  root : ∃ root, value.get? (str "merkle_root") = some (.str root) ∧ isChecksum root = true ∧
    Litecast.merkleRoot m.shardChecksums = .ok root

theorem readRoot_uncaught_iff (value schema profilesValue : Json) (shardChecksums members : List Str) :
    Uncaught ExcClass.isValueError (readRoot value schema profilesValue shardChecksums members) ↔
      schema.eqInt 2 = true ∧ ¬ Listable profilesValue ∧
        ∃ root, value.get? (str "merkle_root") = some (.str root) ∧ isChecksum root = true ∧
          Litecast.merkleRoot shardChecksums = .ok root := by
  rw [readRoot]
  split_ifs with hcurrent
  · simp only [Functor.map, uncaught_map, readMerkleRoot, uncaught_bind, not_uncaught_requireSome,
      not_uncaught_merkleRoot, not_uncaught_requireTrue, not_uncaught_pure, namesMembers_uncaught_iff,
      requireSome_eq_ok, requireTrue_eq_ok, Option.bind_eq_some_iff, checksum?_eq_some, hcurrent,
      false_or, and_false, exists_false, or_false, true_and]
    constructor
    · rintro ⟨root, ⟨j, hj, rfl, hvalid⟩, expected, hexpected, -, rfl, hnot⟩
      exact ⟨hnot, root, hj, hvalid, hexpected⟩
    · rintro ⟨hnot, root, hj, hvalid, hexpected⟩
      exact ⟨root, ⟨_, hj, rfl, hvalid⟩, root, hexpected, (), rfl, hnot⟩
  · simp [hcurrent]

theorem readFields_uncaught_iff (value schema : Json) :
    Uncaught ExcClass.isValueError (readFields value schema) ↔
      TooLargeIn value ∨ (schema.eqInt 2 = true ∧ (∃ m, Memberless value m) ∧
        ¬ Listable ((value.get? (str "member_profiles")).getD (.obj []))) := by
  simp only [readFields, uncaught_bind, not_uncaught_integer, not_uncaught_requireSome,
    not_uncaught_requireTrue, not_uncaught_pure, manifestProfiles_uncaught_iff, readRoot_uncaught_iff,
    requireSome_eq_ok, requireTrue_eq_ok, integer_eq_ok, checksum?_eq_some, mapM_checksum?,
    mapM_string?, nonempty_eq_some, array?_eq_some, Json.plainInt?_eq_some, false_or, and_false,
    exists_false, or_false]
  constructor
  · rintro ⟨totalSize, ⟨htotal, -⟩, shardSize, ⟨hsize, hpos⟩, shardCount, ⟨hcount, -⟩,
      hlarge | ⟨profiles, hprofiles, name, ⟨hname, hne⟩, -, hceil, values, hvalues, -, hlength,
        checksum, ⟨hchecksum, hvalid⟩, shardChecksums, ⟨rfl, hall⟩, memberValues, hmembers, members,
        rfl, -, hcanonical, factor, hfactor, -, hfpos, -, hfle, hcurrent, hnot, hroot⟩⟩
    · exact Or.inl ⟨⟨totalSize, shardSize, shardCount, htotal, hsize, hpos, hcount⟩, hlarge⟩
    · have hnil : members = [] := by
        by_contra hsome
        -- with members the profiles have been read, so they are an object
        rw [hmembers, manifestProfiles_eq_ok, if_neg hsome] at hprofiles
        have hobject := (canonicalMemberProfiles_eq_ok hprofiles).2
        apply hnot
        cases hvalue : (value.get? (str "member_profiles")).getD (.obj []) with
        | obj fields => trivial
        | _ => rw [hvalue] at hobject; cases hobject
      subst hnil
      rw [List.length_map] at hlength
      have hnat : ((factor.toNat : Nat) : Int) = factor := Int.toNat_of_nonneg (by omega)
      let m : ShardManifest := { name, totalSize, shardSize, shardCount, checksum, shardChecksums
                                 replicationFactor := factor.toNat }
      refine Or.inr ⟨hcurrent, ⟨m, ?_⟩, hnot⟩
      exact {
        totalSize := htotal, shardSize := hsize, shardSize_pos := hpos, shardCount := hcount
        shardCount_eq := hceil, name := hname, name_ne := hne, checksums := hvalues
        checksums_length := hlength, checksum := hchecksum, checksum_valid := hvalid
        checksums_valid := hall, members := hmembers, factor := hfactor.trans (by rw [← hnat])
        factor_pos := show 1 ≤ factor.toNat by omega, root := hroot }
  · rintro (⟨⟨totalSize, shardSize, shardCount, htotal, hsize, hpos, hcount⟩, hlarge⟩ |
      ⟨hcurrent, ⟨m, h⟩, hnot⟩)
    · exact ⟨totalSize, ⟨htotal, Nat.zero_le _⟩, shardSize, ⟨hsize, hpos⟩, shardCount,
        ⟨hcount, Nat.zero_le _⟩, Or.inl hlarge⟩
    · have hmembers := h.members
      unfold field at hmembers
      refine ⟨m.totalSize, ⟨h.totalSize, Nat.zero_le _⟩, m.shardSize, ⟨h.shardSize, h.shardSize_pos⟩,
        m.shardCount, ⟨h.shardCount, Nat.zero_le _⟩, Or.inr ⟨[], ?_, m.name, ⟨h.name, h.name_ne⟩, (),
        h.shardCount_eq, _, h.checksums, (), by rw [List.length_map]; exact h.checksums_length,
        m.checksum, ⟨h.checksum, h.checksum_valid⟩, m.shardChecksums, ⟨rfl, h.checksums_valid⟩, [],
        hmembers, [], rfl, (), Or.inl rfl, m.replicationFactor, h.factor, (),
        by have := h.factor_pos; omega, (), Or.inl rfl, hcurrent, hnot, h.root⟩⟩
      rw [hmembers]
      rfl

/-- The document of a manifest of either schema. -/
def Document (raw : Bytes) (value schema : Json) : Prop :=
  raw.length ≤ maxManifestBytes ∧ loads raw = some value ∧ value.isObject = true ∧
    schema = (value.get? (str "schema")).getD .null ∧
    (schema.eqInt 1 = true ∨ schema.eqInt 2 = true) ∧
    value.hasExactly (requiredKeys (schema.eqInt 2)) = true

/-- **Which documents `from_bytes` refuses with no `ValueError`**: those with a
profile number too large for a `float`, and those without members whose
profiles no set can be made of. -/
theorem fromBytes_valueError_iff (raw : Bytes) :
    (∀ e, fromBytes raw = .error e → e.cls.isValueError = true) ↔
      ∀ value schema, Document raw value schema →
        ¬ TooLargeIn value ∧
        ¬ (schema.eqInt 2 = true ∧ (∃ m, Memberless value m) ∧
          ¬ Listable ((value.get? (str "member_profiles")).getD (.obj []))) := by
  have huncaught : (∀ e, fromBytes raw = .error e → e.cls.isValueError = true) ↔
      ¬ Uncaught ExcClass.isValueError (fromBytes raw) := by
    simp [Uncaught]
  simp only [huncaught, ← not_or, ← readFields_uncaught_iff]
  have hvalueError (text : Str) :
      ¬ Uncaught ExcClass.isValueError (valueError text : Except Exc ShardManifest) := by
    simp [valueError, ExcClass.isValueError]
  unfold fromBytes
  split_ifs with hsize
  · refine iff_of_true (hvalueError _) fun value schema h => ?_
    exact absurd h.1 (Nat.not_le.mpr hsize)
  · cases hvalue : loads raw with
    | none =>
      refine iff_of_true (hvalueError _) fun value schema h => ?_
      cases hvalue.symm.trans h.2.1
    | some value =>
      simp only
      split_ifs with hobject hrejected
      · refine iff_of_true (hvalueError _) ?_
        rintro other schema ⟨-, hother, hisObject, -⟩
        obtain rfl := Option.some.inj (hvalue.symm.trans hother)
        rw [hobject] at hisObject
        cases hisObject
      · refine iff_of_true (hvalueError _) ?_
        rintro other schema ⟨-, hother, -, rfl, hschema, hkeys⟩
        obtain rfl := Option.some.inj (hvalue.symm.trans hother)
        rcases hrejected with h | h
        · rcases hschema with hone | htwo <;> simp_all
        · rw [hkeys] at h
          cases h
      · rw [not_or, Bool.not_eq_false, Bool.not_eq_false, Bool.or_eq_true] at hrejected
        constructor
        · rintro hnot other schema ⟨-, hother, -, rfl, -⟩
          obtain rfl := Option.some.inj (hvalue.symm.trans hother)
          exact hnot
        · intro hall
          exact hall value _ ⟨Nat.not_lt.mp hsize, hvalue, eq_true_of_ne_false hobject, rfl,
            hrejected.1, hrejected.2⟩

end ShardManifest

end

namespace ShardManifest

/-- The manifest of no bytes, without members, that says 5 for its profiles. -/
def numberForProfiles [Library] : Json :=
  .obj [(str "schema", .int 2), (str "name", .str (str "v1")), (str "total_size", .int 0),
    (str "shard_size", .int 1), (str "shard_count", .int 0), (str "checksum", .str (hexdigest [])),
    (str "shard_checksums", .arr []), (str "members", .arr []), (str "replication_factor", .int 1),
    (str "merkle_root", .str (blake3 (asciiBytes "litecast-empty\x00")).hex),
    (str "member_profiles", .int 5)]

open JsonText in
theorem roundTrips_numberForProfiles :
    letI := asciiLibrary
    RoundTrips numberForProfiles := by
  let _ := asciiLibrary
  have htexts : IsText (str "v1") ∧ IsText (hexdigest []) ∧
      IsText (blake3 (asciiBytes "litecast-empty\x00")).hex := by decide +kernel
  obtain ⟨hname, hchecksum, hroot⟩ := htexts
  refine roundTrips_of_writable (.of_keys (rfl : _ = [str "schema", str "name", str "total_size",
    str "shard_size", str "shard_count", str "checksum", str "shard_checksums", str "members",
    str "replication_factor", str "merkle_root", str "member_profiles"]) (by decide) (by decide) ?_) ?_
  · have hnone : Writable true (.arr []) := .arr (by simp)
    simp [Writable.str, Writable.int, hnone]
  · simp [numberForProfiles, rejoined, rejoinedMembers, rejoinedItems, rejoin_of_isText hname,
      rejoin_of_isText hchecksum, rejoin_of_isText hroot]

/-- `set(5)` raises a `TypeError`. -/
theorem number_for_profiles_raises :
    letI := asciiLibrary
    fromBytes (dumps numberForProfiles) =
        .error ⟨.typeError, str "object is not iterable"⟩ ∧
      ¬ ∀ raw e, fromBytes raw = .error e → e.cls.isValueError = true := by
  let _ := asciiLibrary
  have hsize : ¬ maxManifestBytes < (dumps numberForProfiles).length := by decide +kernel
  have hobject : numberForProfiles.sorted.isObject = true := by decide +kernel
  have hschema : (numberForProfiles.sorted.get? (str "schema")).getD .null = .int 2 := by
    rw [Json.get?_sorted]
    rfl
  have haccepted : ((Json.int 2).eqInt 1 || (Json.int 2).eqInt 2) = true := by decide
  have hexactly : numberForProfiles.sorted.hasExactly (requiredKeys ((Json.int 2).eqInt 2)) =
      true := by decide +kernel
  have hraises : (match readFields numberForProfiles.sorted (.int 2) with
      | .ok _ => none
      | .error e => some e) = some ⟨.typeError, str "object is not iterable"⟩ := by
    decide +kernel
  have herror : fromBytes (dumps numberForProfiles) =
      .error ⟨.typeError, str "object is not iterable"⟩ := by
    unfold fromBytes
    rw [if_neg hsize, roundTrips_numberForProfiles]
    simp only [hobject, hschema, haccepted, hexactly, Bool.true_eq_false, or_self, if_false]
    cases h : readFields numberForProfiles.sorted (.int 2) with
    | ok m => rw [h] at hraises; cases hraises
    | error e => rw [h] at hraises; rw [Option.some.inj hraises]
  refine ⟨herror, fun hall => ?_⟩
  have hcaught := hall _ _ herror
  cases hcaught

end ShardManifest

end Litecast
