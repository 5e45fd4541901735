import Litecast.JsonRoundTrip
import Litecast.Middle

/-! A manifest is read back as it was written exactly when it is consistent,
and what `build_manifest` and the middle write is measured against that. -/

namespace Litecast

/-! ## Consistent manifests -/

namespace ShardManifest

open JsonText

theorem requireSome_eq_ok {α : Type} {o : Option α} {a : α} :
    requireSome o = .ok a ↔ o = some a := by
  cases o <;> simp [requireSome, inconsistent, valueError]

theorem requireTrue_eq_ok {p : Prop} [Decidable p] {u : Unit} : requireTrue p = .ok u ↔ p := by
  by_cases h : p <;> simp [requireTrue, h, inconsistent, valueError]

theorem nonempty_eq_some {value : Json} {s : Str} :
    value.string?.filter (fun t => t ≠ []) = some s ↔ value = .str s ∧ s ≠ [] := by
  cases value <;> simp [Json.string?, Option.filter_eq_some_iff]

theorem array?_eq_some {value : Json} {items : List Json} :
    array? value = some items ↔ value = .arr items := by
  cases value <;> simp [array?]

theorem integer_eq_ok {value : Json} {label : Str} {minimum n : Nat} :
    integer value label minimum = .ok n ↔ value = .int n ∧ minimum ≤ n := by
  cases value with
  | int i =>
    simp only [integer, Json.plainInt?, valueError]
    split
    · simp only [reduceCtorEq, false_iff, not_and, Json.int.injEq]
      omega
    · simp only [Except.ok.injEq, Json.int.injEq]
      omega
  | _ => simp [integer, Json.plainInt?, valueError]

theorem mapM_string? {values : List Json} {members : List Str} :
    values.mapM Json.string? = some members ↔ values = members.map .str := by
  have h (j : Json) (s : Str) : j.string? = some s ↔ j = .str s ∧ True := by
    cases j <;> simp [Json.string?]
  rw [mapM_eq_some_map h]
  simp

section
variable [Library]

/-- What the decoder asks of a manifest. -/
structure Consistent (m : ShardManifest) : Prop where
  schema : m.schema.eqInt 1 = true ∨ m.schema.eqInt 2 = true
  name_ne : m.name ≠ []
  shardSize_pos : 0 < m.shardSize
  shardCount_eq : m.shardCount = shardCountOf m.totalSize m.shardSize
  checksums_length : m.shardChecksums.length = m.shardCount
  checksum_valid : isChecksum m.checksum = true
  checksums_valid : ∀ c ∈ m.shardChecksums, isChecksum c = true
  members_canonical : m.members = [] ∨ canonicalMembers m.members = .ok m.members
  factor_pos : 1 ≤ m.replicationFactor
  factor_le : m.members = [] ∨ m.replicationFactor ≤ m.members.length
  profiles : m.memberProfiles.map Prod.fst = m.members
  current : m.schema.eqInt 2 = true → ∃ root, m.merkleRoot = some root ∧
    isChecksum root = true ∧ Litecast.merkleRoot m.shardChecksums = .ok root
  legacy : m.schema.eqInt 2 = false → m.merkleRoot = none ∧
    m.memberProfiles = m.members.map fun member => (member, .default member)

theorem checksum?_eq_some {value : Json} {s : Str} :
    checksum? value = some s ↔ value = .str s ∧ isChecksum s = true := by
  cases value <;> simp [checksum?, Json.string?, Option.filter_eq_some_iff]

theorem mapM_checksum? {values : List Json} {checksums : List Str} :
    values.mapM checksum? = some checksums ↔
      values = checksums.map .str ∧ ∀ c ∈ checksums, isChecksum c = true :=
  mapM_eq_some_map fun _ _ => checksum?_eq_some

theorem memberTexts_strings (members : List Str) :
    memberTexts (.arr (members.map .str)) = .ok members := by
  simp [memberTexts, Json.string?, List.map_map, Function.comp_def]

theorem manifestProfiles_eq_ok {members : List Str} {profilesValue : Json}
    {profiles : List (Str × MemberProfile)} :
    manifestProfiles (.arr (members.map .str)) profilesValue = .ok profiles ↔
      if members = [] then profiles = [] else
        canonicalMemberProfiles members profilesValue = .ok profiles := by
  cases members with
  | nil => simp [manifestProfiles, Json.truthy, eq_comm]
  | cons first rest =>
    have htruthy : (Json.arr ((first :: rest).map .str)).truthy = true := rfl
    simp only [manifestProfiles, htruthy, Bool.true_eq_false, if_false, memberTexts_strings, bind,
      Except.bind, reduceCtorEq]
    cases canonicalMemberProfiles (first :: rest) profilesValue with
    | ok ps => simp
    | error e => by_cases he : e.cls = .typeError ∨ e.cls.isValueError = true <;> simp [he]

/-- `value[key]` -/
def field (value : Json) (key : String) : Json := (value.get? (str key)).getD .null

/-- The fields of an object are those of a manifest. -/
structure Reads (value schema : Json) (m : ShardManifest) : Prop where
  totalSize : field value "total_size" = .int m.totalSize
  shardSize : field value "shard_size" = .int m.shardSize
  shardSize_pos : 0 < m.shardSize
  shardCount : field value "shard_count" = .int m.shardCount
  profiles : manifestProfiles (field value "members")
    ((value.get? (str "member_profiles")).getD (.obj [])) = .ok m.memberProfiles
  name : field value "name" = .str m.name
  name_ne : m.name ≠ []
  shardCount_eq : m.shardCount = shardCountOf m.totalSize m.shardSize
  checksums : field value "shard_checksums" = .arr (m.shardChecksums.map .str)
  checksums_length : m.shardChecksums.length = m.shardCount
  checksum : field value "checksum" = .str m.checksum
  checksum_valid : isChecksum m.checksum = true
  checksums_valid : ∀ c ∈ m.shardChecksums, isChecksum c = true
  members : field value "members" = .arr (m.members.map .str)
  members_canonical : m.members = [] ∨ canonicalMembers m.members = .ok m.members
  factor : field value "replication_factor" = .int m.replicationFactor
  factor_pos : 1 ≤ m.replicationFactor
  factor_le : m.members = [] ∨ m.replicationFactor ≤ m.members.length
  root : readRoot value schema ((value.get? (str "member_profiles")).getD (.obj []))
    m.shardChecksums m.members = .ok m.merkleRoot
  schema_eq : m.schema = schema

theorem readFields_eq_ok {value schema : Json} {m : ShardManifest} :
    readFields value schema = .ok m ↔ Reads value schema m := by
  simp only [readFields, bind_eq_ok, requireSome_eq_ok, requireTrue_eq_ok, integer_eq_ok,
    checksum?_eq_some, mapM_checksum?, mapM_string?, nonempty_eq_some, array?_eq_some,
    Json.plainInt?_eq_some]
  constructor
  · rintro ⟨totalSize, ⟨htotal, -⟩, shardSize, ⟨hsize, hpos⟩, shardCount, ⟨hcount, -⟩, profiles,
      hprofiles, name, ⟨hname, hne⟩, -, hceil, values, hvalues, -, hlength, checksum,
      ⟨hchecksum, hvalid⟩, shardChecksums, ⟨rfl, hall⟩, memberValues, hmembers, members, rfl, -,
      hcanonical, factor, hfactor, -, hfpos, -, hfle, root, hroot, hm⟩
    obtain rfl := Except.ok.inj hm
    have hnat : ((factor.toNat : Nat) : Int) = factor := Int.toNat_of_nonneg (by omega)
    simp only [List.length_map] at hlength
    exact {
      totalSize := htotal, shardSize := hsize, shardSize_pos := hpos, shardCount := hcount
      profiles := hprofiles, name := hname, name_ne := hne, shardCount_eq := hceil
      checksums := hvalues, checksums_length := hlength, checksum := hchecksum
      checksum_valid := hvalid, checksums_valid := hall, members := hmembers
      members_canonical := hcanonical, factor := by rw [hnat]; exact hfactor
      factor_pos := by simp only; omega, factor_le := hfle.imp id (by simp only; omega)
      root := hroot, schema_eq := rfl }
  · intro h
    exact ⟨m.totalSize, ⟨h.totalSize, Nat.zero_le _⟩, m.shardSize, ⟨h.shardSize, h.shardSize_pos⟩,
      m.shardCount, ⟨h.shardCount, Nat.zero_le _⟩, m.memberProfiles, h.profiles, m.name,
      ⟨h.name, h.name_ne⟩, (), h.shardCount_eq, _, h.checksums, (), by
        rw [List.length_map]; exact h.checksums_length, m.checksum, ⟨h.checksum, h.checksum_valid⟩,
      m.shardChecksums, ⟨rfl, h.checksums_valid⟩, _, h.members, m.members, rfl, (),
      h.members_canonical, m.replicationFactor, h.factor, (), by have := h.factor_pos; omega, (),
      h.factor_le.imp id (by omega), m.merkleRoot, h.root, by rw [← h.schema_eq]; rfl⟩

/-! ### What is read is consistent -/

theorem Reads.consistent {value schema : Json} {m : ShardManifest} (h : Reads value schema m)
    (hschema : schema.eqInt 1 = true ∨ schema.eqInt 2 = true)
    (hexact : value.hasExactly (requiredKeys (schema.eqInt 2)) = true) : m.Consistent := by
  have hprofiles := h.profiles
  rw [h.members, manifestProfiles_eq_ok] at hprofiles
  have hnames : m.memberProfiles.map Prod.fst = m.members := by
    split_ifs at hprofiles with hnil
    · rw [hprofiles, hnil]; rfl
    · have hcanonical := h.members_canonical.resolve_left hnil
      rw [(canonicalMemberProfiles_eq_ok hprofiles).1] at hcanonical
      exact Except.ok.inj hcanonical
  refine {
    schema := h.schema_eq ▸ hschema, name_ne := h.name_ne, shardSize_pos := h.shardSize_pos
    shardCount_eq := h.shardCount_eq, checksums_length := h.checksums_length
    checksum_valid := h.checksum_valid, checksums_valid := h.checksums_valid
    members_canonical := h.members_canonical, factor_pos := h.factor_pos
    factor_le := h.factor_le, profiles := hnames, current := ?_, legacy := ?_ }
  · intro hcurrent
    rw [h.schema_eq] at hcurrent
    have hroot := h.root
    rw [readRoot, if_pos hcurrent, map_eq_ok] at hroot
    obtain ⟨root, hroot, hsome⟩ := hroot
    simp only [readMerkleRoot, bind_eq_ok, requireSome_eq_ok, requireTrue_eq_ok,
      Option.bind_eq_some_iff, checksum?_eq_some] at hroot
    obtain ⟨root', ⟨j, -, -, hvalid⟩, expected, hexpected, -, rfl, -, -, -, -, hpure⟩ := hroot
    obtain rfl := Except.ok.inj hpure
    exact ⟨root', hsome.symm, hvalid, hexpected⟩
  · intro hlegacy
    rw [h.schema_eq] at hlegacy
    have hroot := h.root
    rw [readRoot, if_neg (by simp [hlegacy])] at hroot
    have habsent : value.get? (str "member_profiles") = none := by
      rw [hlegacy] at hexact
      exact Json.get?_eq_none_of_hasExactly hexact (by decide)
    refine ⟨(Except.ok.inj hroot).symm, ?_⟩
    split_ifs at hprofiles with hnil
    · rw [hprofiles, hnil]; rfl
    · rw [habsent, Option.getD_none,
        canonicalMemberProfiles_empty (h.members_canonical.resolve_left hnil)] at hprofiles
      exact (Except.ok.inj hprofiles).symm

/-- **Every manifest the decoder accepts is consistent.** -/
theorem fromBytes_consistent {raw : Bytes} {m : ShardManifest} (h : fromBytes raw = .ok m) :
    m.Consistent := by
  unfold fromBytes at h
  split_ifs at h
  cases hvalue : loads raw with
  | none => simp [hvalue] at h
  | some value =>
    simp only [hvalue] at h
    split_ifs at h with hobject hrejected
    simp only [not_or, Bool.not_eq_false, Bool.or_eq_true] at hrejected
    exact (readFields_eq_ok.mp h).consistent hrejected.1 hrejected.2

end

/-! ### What is consistent is read -/

theorem eqInt_number {j : Json} {n : Int} (h : j.eqInt n = true) : j.number? = some (n : Rat) := by
  simpa [Json.eqInt] using h

theorem carriesProfiles_eq {m : ShardManifest}
    (hm : m.schema.eqInt 1 = true ∨ m.schema.eqInt 2 = true) :
    m.carriesProfiles = m.schema.eqInt 2 := by
  rcases hm with h | h
  · rw [carriesProfiles, Json.eqInt, eqInt_number h]
    decide
  · rw [carriesProfiles, h, eqInt_number h]
    decide

theorem sorted_of_number {j : Json} {q : Rat} (h : j.number? = some q) : j.sorted = j := by
  cases j <;> simp_all [Json.number?]

theorem field_toDict {m : ShardManifest} {key : String} {value : Json}
    (h : m.toDict.get? (str key) = some value) : field m.toDict.sorted key = value.sorted := by
  rw [field, Json.get?_sorted, h]
  rfl

theorem sorted_strings (items : List Str) :
    (Json.arr (items.map .str)).sorted = .arr (items.map .str) := by
  simp [Json.sorted, Json.sortedItems_eq_map, List.map_map, Function.comp_def]

theorem namesMembers_profilesObject (ps : List (Str × MemberProfile)) :
    namesMembers (profilesObject ps).sorted (ps.map Prod.fst) = .ok true := by
  have hkeys (k : Str) : k ∈ (profilesObject ps).sorted.keys ↔ k ∈ ps.map Prod.fst := by
    rw [Json.mem_keys_sorted]
    simp [profilesObject, Json.keys, List.map_map, Function.comp_def]
  revert hkeys
  simp only [profilesObject, Json.sorted, Json.keys, namesMembers, Except.ok.injEq]
  generalize Json.sortedMembers _ = fields
  intro hkeys
  simp only [sameNames, Bool.and_eq_true, List.all_eq_true, decide_eq_true_eq]
  constructor
  · intro item hitem
    obtain ⟨member, hmember, rfl⟩ := List.mem_map.mp hitem
    simpa using (hkeys member.1).mp (List.mem_map_of_mem hmember)
  · intro member hmember
    obtain ⟨entry, hentry, rfl⟩ := List.mem_map.mp ((hkeys member).mpr hmember)
    exact List.mem_map.mpr ⟨entry, hentry, rfl⟩

theorem rejoined_strings {items : List Str} (h : ∀ item ∈ items, IsText item) :
    rejoinedItems (items.map .str) = items.map .str := by
  rw [rejoinedItems_eq_map, List.map_map]
  refine List.map_congr_left fun item hitem => ?_
  rw [Function.comp_apply, rejoined, rejoin_of_isText (h item hitem)]

theorem rejoined_toJson {p : MemberProfile} (htexts : IsText p.failureDomain ∧ IsText p.locality) :
    rejoined p.toJson = p.toJson := by
  simp [MemberProfile.toJson, rejoined, rejoinedMembers, rejoin_of_isText htexts.1,
    rejoin_of_isText htexts.2]

section
variable [Library]

/-- The profile mapping written for a manifest, or the one a legacy manifest
is read with. -/
theorem written_profiles {m : ShardManifest} (hm : m.Consistent) :
    (m.toDict.sorted.get? (str "member_profiles")).getD (.obj []) =
      if m.schema.eqInt 2 then (profilesObject m.memberProfiles).sorted else .obj [] := by
  have hcarries := carriesProfiles_eq hm.schema
  rw [Json.get?_sorted]
  unfold toDict
  rw [hcarries]
  split <;> rfl

theorem Consistent.reads {m : ShardManifest} (hm : m.Consistent) :
    Reads m.toDict.sorted m.schema m := by
  have hmembers : field m.toDict.sorted "members" = .arr (m.members.map .str) :=
    (field_toDict (by unfold toDict; split <;> rfl)).trans (sorted_strings _)
  have hroot : m.schema.eqInt 2 = true →
      m.toDict.sorted.get? (str "merkle_root") = some (m.merkleRoot.elim Json.null Json.str).sorted := by
    intro hcurrent
    have hcarries : m.carriesProfiles = true := (carriesProfiles_eq hm.schema).trans hcurrent
    rw [Json.get?_sorted]
    unfold toDict
    rw [if_pos hcarries]
    rfl
  exact {
    totalSize := (field_toDict (by unfold toDict; split <;> rfl)).trans (Json.sorted_int _)
    shardSize := (field_toDict (by unfold toDict; split <;> rfl)).trans (Json.sorted_int _)
    shardSize_pos := hm.shardSize_pos
    shardCount := (field_toDict (by unfold toDict; split <;> rfl)).trans (Json.sorted_int _)
    profiles := by
      rw [hmembers, manifestProfiles_eq_ok, written_profiles hm]
      have hnames := hm.profiles
      split_ifs with hnil hcurrent
      · rw [hnil] at hnames
        exact List.map_eq_nil_iff.mp hnames
      · have hcanonical := hm.members_canonical.resolve_left hnil
        rw [← hnames] at hcanonical ⊢
        rw [canonicalMemberProfiles_sorted]
        exact canonicalMemberProfiles_profilesObject hcanonical
      · rw [canonicalMemberProfiles_empty (hm.members_canonical.resolve_left hnil)]
        rw [(hm.legacy (by simpa using hcurrent)).2]
    name := (field_toDict (by unfold toDict; split <;> rfl)).trans (Json.sorted_str _)
    name_ne := hm.name_ne
    shardCount_eq := hm.shardCount_eq
    checksums := (field_toDict (by unfold toDict; split <;> rfl)).trans (sorted_strings _)
    checksums_length := hm.checksums_length
    checksum := (field_toDict (by unfold toDict; split <;> rfl)).trans (Json.sorted_str _)
    checksum_valid := hm.checksum_valid
    checksums_valid := hm.checksums_valid
    members := hmembers
    members_canonical := hm.members_canonical
    factor := (field_toDict (by unfold toDict; split <;> rfl)).trans (Json.sorted_int _)
    factor_pos := hm.factor_pos
    factor_le := hm.factor_le
    root := by
      rw [readRoot, written_profiles hm]
      split_ifs with hcurrent
      · obtain ⟨root, hsome, hvalid, hexpected⟩ := hm.current hcurrent
        rw [map_eq_ok]
        refine ⟨root, ?_, hsome.symm⟩
        simp only [readMerkleRoot, bind_eq_ok, requireSome_eq_ok, requireTrue_eq_ok,
          Option.bind_eq_some_iff, checksum?_eq_some]
        refine ⟨root, ⟨.str root, ?_, rfl, hvalid⟩, root, hexpected, (), rfl, true, ?_, (), rfl, rfl⟩
        · rw [hroot hcurrent, hsome]
          simp
        · rw [← hm.profiles]
          exact namesMembers_profilesObject _
      · rw [(hm.legacy (by simpa using hcurrent)).1]
    schema_eq := rfl }

/-- **Every consistent manifest is read as it was written.** -/
theorem fromBytes_dumps {m : ShardManifest} (hm : m.Consistent)
    (hsize : (dumps m.toDict).length ≤ maxManifestBytes) (htrips : RoundTrips m.toDict) :
    fromBytes (dumps m.toDict) = .ok m := by
  have hschema : (m.toDict.sorted.get? (str "schema")).getD .null = m.schema := by
    have hsorted : m.schema.sorted = m.schema := by
      rcases hm.schema with h | h <;> exact sorted_of_number (eqInt_number h)
    exact (field_toDict (by unfold toDict; split <;> rfl)).trans hsorted
  have hobject : m.toDict.sorted.isObject = true := by
    rw [Json.isObject_sorted]
    unfold toDict
    split <;> rfl
  have hexact : m.toDict.sorted.hasExactly (requiredKeys (m.schema.eqInt 2)) = true := by
    rw [Json.hasExactly_sorted, ← carriesProfiles_eq hm.schema]
    unfold toDict
    split <;> rename_i hcarries <;> simp only [hcarries] <;> rfl
  have haccepted : (m.schema.eqInt 1 || m.schema.eqInt 2) = true := by
    simpa using hm.schema
  unfold fromBytes
  rw [if_neg (Nat.not_lt.mpr hsize), htrips]
  simp only [hobject, hschema, hexact, haccepted, Bool.true_eq_false, or_self, if_false]
  exact readFields_eq_ok.mpr hm.reads

theorem fromBytes_dumps_iff {m : ShardManifest}
    (hsize : (dumps m.toDict).length ≤ maxManifestBytes) (htrips : RoundTrips m.toDict) :
    fromBytes (dumps m.toDict) = .ok m ↔ m.Consistent :=
  ⟨fromBytes_consistent, fun hm => fromBytes_dumps hm hsize htrips⟩

/-! ### Manifests and JSON text -/

/-- The strings of a manifest can be encoded and its numbers read back. -/
structure Legible (m : ShardManifest) : Prop where
  schema : Writable true m.schema
  rejoined_schema : rejoined m.schema = m.schema
  name : IsText m.name
  checksum : IsText m.checksum
  shardChecksums : ∀ c ∈ m.shardChecksums, IsText c
  members : ∀ member ∈ m.members, IsText member
  merkleRoot : ∀ root ∈ m.merkleRoot, IsText root
  profiled : (m.memberProfiles.map Prod.fst).Nodup
  texts : ∀ entry ∈ m.memberProfiles,
    IsText entry.1 ∧ IsText entry.2.failureDomain ∧ IsText entry.2.locality
  floats : ∀ entry ∈ m.memberProfiles,
    FloatReads entry.2.bandwidth ∧ FloatReads entry.2.capacity ∧ FloatReads entry.2.load

theorem writable_strings (items : List Str) : Writable true (.arr (items.map .str)) := by
  refine .arr fun j hj => ?_
  obtain ⟨item, -, rfl⟩ := List.mem_map.mp hj
  exact .str (Or.inl rfl)

theorem writable_toJson {p : MemberProfile}
    (hfloats : FloatReads p.bandwidth ∧ FloatReads p.capacity ∧ FloatReads p.load) :
    Writable true p.toJson := by
  refine .of_keys (rfl : _ = profileFields) (by decide) (by decide) ?_
  simp only [List.forall_mem_cons, List.not_mem_nil, false_imp_iff, implies_true, and_true]
  exact ⟨.finite hfloats.1, .finite hfloats.2.1, .finite hfloats.2.2, .str (Or.inl rfl),
    .str (Or.inl rfl)⟩

theorem Legible.writable {m : ShardManifest} (h : m.Legible) : Writable true m.toDict := by
  have hprofiles : Writable true (profilesObject m.memberProfiles) := by
    have hkeys : (m.memberProfiles.map fun entry => (entry.1, entry.2.toJson)).map Prod.fst =
        m.memberProfiles.map Prod.fst := by
      rw [List.map_map]
      rfl
    refine .of_keys hkeys ?_ h.profiled ?_
    · intro key hkey
      obtain ⟨entry, hentry, rfl⟩ := List.mem_map.mp hkey
      exact (h.texts entry hentry).1
    · intro member hmember
      obtain ⟨entry, hentry, rfl⟩ := List.mem_map.mp hmember
      exact writable_toJson (h.floats entry hentry)
  have hroot : Writable true (m.merkleRoot.elim .null .str) := by
    cases m.merkleRoot with
    | none => exact .null
    | some root => exact .str (Or.inl rfl)
  unfold toDict
  split
  · refine .of_keys (rfl : _ = requiredKeys true) (by decide) (by decide) ?_
    simp [h.schema, Writable.str, Writable.int, hroot, hprofiles, writable_strings]
  · refine .of_keys (rfl : _ = requiredKeys false) (by decide) (by decide) ?_
    simp [h.schema, Writable.str, Writable.int, writable_strings]

theorem Legible.rejoined_toDict {m : ShardManifest} (h : m.Legible) :
    rejoined m.toDict = m.toDict := by
  have hprofiles : rejoined (profilesObject m.memberProfiles) = profilesObject m.memberProfiles := by
    rw [profilesObject, rejoined, rejoinedMembers_eq_map, List.map_map]
    refine congrArg Json.obj (List.map_congr_left fun entry hentry => ?_)
    rw [Function.comp_apply, rejoined_toJson (h.texts entry hentry).2]
  have hroot : rejoined (m.merkleRoot.elim .null .str) = m.merkleRoot.elim .null .str := by
    cases hroot : m.merkleRoot with
    | none => rw [Option.elim, rejoined]
    | some root => rw [Option.elim, rejoined, rejoin_of_isText (h.merkleRoot root hroot)]
  have hschema : rejoined m.schema = m.schema := h.rejoined_schema
  unfold toDict
  split <;> simp [rejoined, rejoinedMembers, hschema, rejoin_of_isText h.name,
    rejoin_of_isText h.checksum, rejoined_strings h.shardChecksums, rejoined_strings h.members,
    hroot, hprofiles]

theorem Legible.roundTrips {m : ShardManifest} (h : m.Legible) : RoundTrips m.toDict :=
  roundTrips_of_writable h.writable h.rejoined_toDict

/-! ### Built manifests -/

theorem isChecksum_hex {b : Bytes} (h : b.length = 32) : isChecksum (hex b) = true := by
  have hlen : (hex b).length = 64 := by rw [hex_length, h]
  have hne : hex b ≠ [] := by
    intro hnil
    rw [hnil] at hlen
    cases hlen
  simp only [isChecksum, hlen, decide_true, Bool.true_and]
  exact isHexInt_of_digits hne (hex_isHexDigit b)

theorem merkleLevel_length (level : List Bytes) : ∀ digest ∈ merkleLevel level, digest.length = 32 := by
  fun_induction merkleLevel level with
  | case1 => simp
  | case2 last => simp [merkleNode, Digest.length_eq]
  | case3 left right rest ih =>
    intro digest hdigest
    rcases List.mem_cons.mp hdigest with rfl | hrest
    · exact Digest.length_eq _
    · exact ih digest hrest

theorem merkleLevel_ne_nil {level : List Bytes} (h : level ≠ []) : merkleLevel level ≠ [] := by
  match level, h with
  | [_], _ => simp [merkleLevel]
  | _ :: _ :: _, _ => simp [merkleLevel]

theorem merkleTop_length (fuel : Nat) {level : List Bytes} (hne : level ≠ [])
    (hlevel : ∀ digest ∈ level, digest.length = 32) : (merkleTop fuel level).length = 32 := by
  have hhead (level : List Bytes) (hne : level ≠ []) (h : ∀ digest ∈ level, digest.length = 32) :
      (level.headD []).length = 32 := by
    cases level with
    | nil => exact absurd rfl hne
    | cons digest rest => exact h digest (by simp)
  induction fuel generalizing level with
  | zero => exact hhead level hne hlevel
  | succ fuel ih =>
    rw [merkleTop]
    split
    · exact hhead level hne hlevel
    · exact ih (merkleLevel_ne_nil hne) (merkleLevel_length level)

/-- The root is a digest. -/
theorem merkleRoot_valid {shardChecksums : List Str} {root : Str}
    (hroot : Litecast.merkleRoot shardChecksums = .ok root) : isChecksum root = true := by
  obtain ⟨level, hlevel, h⟩ := bind_eq_ok.mp hroot
  split_ifs at h with hnil
  · obtain rfl := Except.ok.inj h
    exact isChecksum_hex (Digest.length_eq _)
  · obtain rfl := Except.ok.inj h
    refine isChecksum_hex (merkleTop_length _ hnil ?_)
    intro digest hdigest
    have hall := mapM_eq_ok.mp hlevel
    clear hroot hlevel hnil h
    induction hall with
    | nil => cases hdigest
    | cons hhead _ ih =>
      obtain ⟨leaf, -, hleaf⟩ := bind_eq_ok.mp hhead
      rcases List.mem_cons.mp hdigest with rfl | hrest
      · obtain rfl := Except.ok.inj hleaf
        exact Digest.length_eq _
      · exact ih hrest

/-- Digests always have a root. -/
theorem merkleRoot_digests (digests : List Bytes) :
    ∃ root, Litecast.merkleRoot (digests.map hex) = .ok root := by
  have hlevel : (digests.map hex).mapM (fun checksum => do
      return merkleLeaf (← digestOfHex checksum)) = .ok (digests.map merkleLeaf) := by
    rw [mapM_eq_ok, List.forall₂_map_left_iff, List.forall₂_map_right_iff, List.forall₂_same]
    intro digest _
    simp [digestOfHex, fromHex_hex, bind, Except.bind, pure, Except.pure]
  rw [Litecast.merkleRoot, hlevel]
  simp only [bind, Except.bind]
  split <;> exact ⟨_, rfl⟩

theorem buildManifest_eq_ok {name : Str} {view : Bytes} {shardSize : Int} {m : ShardManifest}
    (h : buildManifest name view shardSize = .ok m) :
    name ≠ [] ∧ 0 < shardSize ∧ ∃ root,
      Litecast.merkleRoot m.shardChecksums = .ok root ∧ m =
        { name, totalSize := view.length, shardSize := shardSize.toNat
          shardCount := shardCountOf view.length shardSize.toNat, checksum := hexdigest view
          shardChecksums := (List.range (shardCountOf view.length shardSize.toNat)).map fun index =>
            hexdigest (manifestSlice view shardSize.toNat index)
          merkleRoot := some root } := by
  unfold buildManifest at h
  split_ifs at h with hname hsize
  obtain ⟨root, hroot, hm⟩ := bind_eq_ok.mp h
  obtain rfl := Except.ok.inj hm
  exact ⟨hname, by omega, root, hroot, rfl⟩

theorem buildManifest_consistent {name : Str} {view : Bytes} {shardSize : Int}
    {m : ShardManifest} (h : buildManifest name view shardSize = .ok m) : m.Consistent := by
  obtain ⟨hname, hsize, root, hroot, rfl⟩ := buildManifest_eq_ok h
  exact {
    schema := Or.inr rfl, name_ne := hname, shardSize_pos := by simp only; omega
    shardCount_eq := rfl, checksums_length := by simp
    checksum_valid := isChecksum_hex (Digest.length_eq _)
    checksums_valid := by
      intro c hc
      obtain ⟨index, -, rfl⟩ := List.mem_map.mp hc
      exact isChecksum_hex (Digest.length_eq _)
    members_canonical := Or.inl rfl, factor_pos := Nat.le_refl 1, factor_le := Or.inl rfl
    profiles := rfl
    current := fun _ => ⟨root, rfl, merkleRoot_valid hroot, hroot⟩
    legacy := fun (hlegacy : (Json.int 2).eqInt 2 = false) => absurd hlegacy (by decide) }

/-! ### Re-published manifests -/

theorem republish_consistent_iff {m : ShardManifest} (hm : m.Consistent) (node : MiddleNode)
    (hfactor : 1 ≤ node.replicationFactor) :
    (node.republish m).Consistent ↔ node.replicationFactor ≤ node.middleServers.length ∧
      (m.schema.eqInt 2 = true ∨ node.memberProfiles =
        node.middleServers.map fun member => (member, .default member)) := by
  have hne : node.middleServers ≠ [] := (canonicalMembers_eq_ok.mp node.canonical).2.1
  constructor
  · intro h
    refine ⟨h.factor_le.resolve_left hne, ?_⟩
    cases hschema : m.schema.eqInt 2 with
    | true => exact Or.inl rfl
    | false => exact Or.inr (h.legacy hschema).2
  · rintro ⟨hle, hprofiles⟩
    exact {
      hm with
      members_canonical := Or.inr node.canonical, factor_pos := hfactor, factor_le := Or.inr hle
      profiles := node.profiled, current := hm.current
      legacy := fun hlegacy =>
        ⟨(hm.legacy hlegacy).1, hprofiles.resolve_left (by
          have hlegacy : m.schema.eqInt 2 = false := hlegacy
          simp [hlegacy])⟩ }

theorem toBytes_eq_ok {m : ShardManifest} {raw : Bytes} (h : m.toBytes = .ok raw) :
    raw = dumps m.toDict ∧ (dumps m.toDict).length ≤ maxManifestBytes := by
  simp only [toBytes] at h
  split_ifs at h with hsize
  exact ⟨(Except.ok.inj h).symm, Nat.le_of_not_lt hsize⟩

theorem toBytes_of_le {m : ShardManifest} (h : (dumps m.toDict).length ≤ maxManifestBytes) :
    m.toBytes = .ok (dumps m.toDict) :=
  if_neg (Nat.not_lt.mpr h)

/-- **What is written can be read back.** A built manifest always; a manifest
a middle re-publishes exactly when its replication factor is within the
membership and, in the legacy schema, no profile departs from the default. -/
theorem written_manifests_read_back :
    (∀ (name : Str) (view : Bytes) (shardSize : Int) (m : ShardManifest) (raw : Bytes),
      buildManifest name view shardSize = .ok m → RoundTrips m.toDict → m.toBytes = .ok raw →
        fromBytes raw = .ok m) ∧
    ∀ (upstream : Bytes) (m : ShardManifest) (node : MiddleNode) (raw : Bytes),
      fromBytes upstream = .ok m → 1 ≤ node.replicationFactor →
      RoundTrips (node.republish m).toDict → (node.republish m).toBytes = .ok raw →
        (fromBytes raw = .ok (node.republish m) ↔
          node.replicationFactor ≤ node.middleServers.length ∧
            (m.schema.eqInt 2 = true ∨ node.memberProfiles =
              node.middleServers.map fun member => (member, .default member))) := by
  constructor
  · intro name view shardSize m raw hbuild htrips hraw
    obtain ⟨rfl, hsize⟩ := toBytes_eq_ok hraw
    exact fromBytes_dumps (buildManifest_consistent hbuild) hsize htrips
  · intro upstream m node raw hupstream hfactor htrips hraw
    obtain ⟨rfl, hsize⟩ := toBytes_eq_ok hraw
    rw [fromBytes_dumps_iff hsize htrips]
    exact republish_consistent_iff (fromBytes_consistent hupstream) node hfactor

end

/-! ### Three bytes, re-published by middles -/

/-- The manifest `build_manifest` writes for three bytes in shards of two. -/
def threeBytesManifest : ShardManifest where
  name := str "v1"
  totalSize := 3
  shardSize := 2
  shardCount := 2
  checksum := hex ([1, 2, 3] ++ List.replicate 29 0)
  shardChecksums := [hex ([1, 2] ++ List.replicate 30 0), hex (3 :: List.replicate 31 0)]
  merkleRoot := some (hex (asciiBytes "litecast-node\x00litecast-leaf\x00" ++ [1, 2, 0, 0]))

/-- One of two middles that hold every shard both. -/
def middleOfTwo : MiddleNode where
  upstream := str "http://origin"
  middleServers := [str "http://a", str "http://c"]
  middleId := str "http://c"
  replicationFactor := 2
  memberProfiles := [(str "http://a", .default (str "http://a")),
    (str "http://c", .default (str "http://c"))]
  canonical := by decide
  profiled := rfl
  named := by simp

def loneMiddle (replicationFactor : Nat) : MiddleNode where
  upstream := str "http://origin"
  middleServers := [str "http://a"]
  middleId := str "http://a"
  replicationFactor
  memberProfiles := [(str "http://a", .default (str "http://a"))]
  canonical := by decide
  profiled := rfl
  named := by simp

theorem threeBytesManifest_built :
    let _ := asciiLibrary
    buildManifest (str "v1") [1, 2, 3] 2 = .ok threeBytesManifest :=
  rfl

theorem threeBytesManifest_size :
    let _ := asciiLibrary
    (dumps threeBytesManifest.toDict).length ≤ maxManifestBytes := by
  decide +kernel

theorem threeBytesManifest_legible :
    let _ := asciiLibrary
    threeBytesManifest.Legible := by
  intro _
  exact {
    schema := .int 2, rejoined_schema := by rfl, name := by decide, checksum := by decide
    shardChecksums := by decide, members := by decide, merkleRoot := by decide
    profiled := by decide, texts := by decide, floats := by simp [threeBytesManifest] }

/-- A middle of members with default profiles writes nothing else. -/
theorem republish_threeBytes_legible {node : MiddleNode}
    (hmembers : ∀ member ∈ node.middleServers, IsText member)
    (hnodup : node.middleServers.Nodup)
    (hdefault : node.memberProfiles =
      node.middleServers.map fun member => (member, .default member)) :
    let _ := asciiLibrary
    (node.republish threeBytesManifest).Legible := by
  intro _
  have hone := floatReads_natCast 1
  have hzero := floatReads_natCast 0
  have hempty : IsText [] := by decide
  have hentries : ∀ entry ∈ (node.republish threeBytesManifest).memberProfiles,
      entry.1 ∈ node.middleServers ∧ entry.2 = .default entry.1 := by
    intro entry hentry
    rw [MiddleNode.republish, hdefault] at hentry
    obtain ⟨member, hmember, rfl⟩ := List.mem_map.mp hentry
    exact ⟨hmember, rfl⟩
  exact { threeBytesManifest_legible with
    members := hmembers
    profiled := by
      rw [MiddleNode.republish, hdefault, List.map_map]
      exact (List.map_id _).symm ▸ hnodup
    texts := by
      intro entry hentry
      obtain ⟨hmember, hprofile⟩ := hentries entry hentry
      rw [hprofile]
      exact ⟨hmembers _ hmember, hmembers _ hmember, hempty⟩
    floats := by
      intro entry hentry
      rw [(hentries entry hentry).2]
      exact ⟨hone, hone, hzero⟩ }

/-- Two members and replication factor 2: both manifests are read back. -/
theorem written_manifests_read_back_two_middles :
    let _ := asciiLibrary
    fromBytes (dumps threeBytesManifest.toDict) = .ok threeBytesManifest ∧
      fromBytes (dumps (middleOfTwo.republish threeBytesManifest).toDict) =
        .ok (middleOfTwo.republish threeBytesManifest) := by
  let _ := asciiLibrary
  have hbytes := toBytes_of_le threeBytesManifest_size
  have hbytes' : (middleOfTwo.republish threeBytesManifest).toBytes =
      .ok (dumps (middleOfTwo.republish threeBytesManifest).toDict) :=
    toBytes_of_le (by decide +kernel)
  have hread := written_manifests_read_back.1 _ _ _ _ _ threeBytesManifest_built
    threeBytesManifest_legible.roundTrips hbytes
  have hlegible : (middleOfTwo.republish threeBytesManifest).Legible :=
    republish_threeBytes_legible (by decide) (by decide) rfl
  refine ⟨hread, ?_⟩
  exact (written_manifests_read_back.2 _ _ middleOfTwo _ hread (by decide)
    hlegible.roundTrips hbytes').mpr ⟨by decide, Or.inl rfl⟩

/-- One member and the default replication factor 2: the re-published manifest
is not read back. -/
theorem replication_beyond_membership_unreadable :
    let _ := asciiLibrary
    ¬ ∀ (upstream : Bytes) (m : ShardManifest) (node : MiddleNode) (raw : Bytes),
      fromBytes upstream = .ok m → 1 ≤ node.replicationFactor →
      RoundTrips (node.republish m).toDict → (node.republish m).toBytes = .ok raw →
        fromBytes raw = .ok (node.republish m) := by
  intro _ claim
  have hbytes : ((loneMiddle 2).republish threeBytesManifest).toBytes =
      .ok (dumps ((loneMiddle 2).republish threeBytesManifest).toDict) :=
    toBytes_of_le (by decide +kernel)
  have hread := fromBytes_dumps (buildManifest_consistent threeBytesManifest_built)
    threeBytesManifest_size threeBytesManifest_legible.roundTrips
  have hlegible : ((loneMiddle 2).republish threeBytesManifest).Legible :=
    republish_threeBytes_legible (by decide) (by decide) rfl
  have h := fromBytes_consistent
    (claim _ _ (loneMiddle 2) _ hread (by decide) hlegible.roundTrips hbytes)
  exact absurd (h.factor_le.resolve_left (by simp [MiddleNode.republish, loneMiddle])) (by decide)

end ShardManifest

end Litecast
