import Mathlib.Data.List.DropRight
import Mathlib.Data.List.Sort
import Litecast.JsonText

/-! The placement half of `streaming.py`: canonical middle memberships, their
profiles, and the owners of a shard. -/

namespace Litecast

abbrev valueError {α : Type} (message : Str) : Except Exc α := .error ⟨.valueError, message⟩
abbrev typeError {α : Type} (message : Str) : Except Exc α := .error ⟨.typeError, message⟩

/-! ## Membership -/

/-- `canonical_members` on the texts of its items. -/
def canonicalMembers (members : List Str) : Except Exc (List Str) :=
  let result := members.map (Str.rstrip (.ofChar '/'))
  if result = [] ∨ [] ∈ result ∨ ¬ result.Nodup then
    valueError (str "middle membership must contain unique non-empty URLs")
  else .ok result

structure MemberProfile where
  bandwidth : Rat
  capacity : Rat
  load : Rat
  failureDomain : Str
  locality : Str
  bandwidth_pos : 0 < bandwidth
  capacity_pos : 0 < capacity
  load_nonneg : 0 ≤ load
  deriving DecidableEq

/-- The profile of a member nothing is said about. -/
def MemberProfile.default (member : Str) : MemberProfile where
  bandwidth := 1
  capacity := 1
  load := 0
  failureDomain := member
  locality := []
  bandwidth_pos := by decide
  capacity_pos := by decide
  load_nonneg := by decide

def MemberProfile.toJson (p : MemberProfile) : Json :=
  .obj [(str "bandwidth", .float (.finite p.bandwidth)),
    (str "capacity", .float (.finite p.capacity)), (str "load", .float (.finite p.load)),
    (str "failure_domain", .str p.failureDomain), (str "locality", .str p.locality)]

def profileFields : List Str :=
  [str "bandwidth", str "capacity", str "load", str "failure_domain", str "locality"]

/-- The mapping of members to profiles; each member occurs once. -/
def profilesObject (profiles : List (Str × MemberProfile)) : Json :=
  .obj (profiles.map fun item => (item.1, item.2.toJson))

section
variable [Library]

/-- `tuple(str(item) for item in value)` -/
def memberTexts : Json → Except Exc (List Str)
  | .arr items => .ok (items.map fun item => (item.string?).getD (strOf item))
  | .obj members => .ok (members.map Prod.fst)
  | .str s => .ok (s.map fun c => [c])
  | _ => typeError (str "object is not iterable")

/-- `float(value)` -/
def toFloat : Json → Except Exc PyFloat
  | .bool b => .ok (.finite (if b then 1 else 0))
  | .int n => match Library.floatOfInt n with
    | some x => .ok x
    | none => .error ⟨.overflowError, str "int too large to convert to float"⟩
  | .float x => .ok x
  | .str s => match Library.floatOfStr s with
    | some x => .ok x
    | none => valueError (str "could not convert string to float")
  | _ => typeError (str "float() argument must be a string or a real number")

def positiveFloat (value : Json) (label : Str) : Except Exc {q : Rat // 0 < q} := do
  match ← toFloat value with
  | .finite q =>
    if h : 0 < q then .ok ⟨q, h⟩ else valueError (label ++ str " must be positive")
  | _ => valueError (label ++ str " must be positive")

def nonnegativeFloat (value : Json) (label : Str) : Except Exc {q : Rat // 0 ≤ q} := do
  match ← toFloat value with
  | .finite q =>
    if h : 0 ≤ q then .ok ⟨q, h⟩ else valueError (label ++ str " must be non-negative")
  | _ => valueError (label ++ str " must be non-negative")

/-- One turn of the loop in `canonical_member_profiles`. -/
def memberProfile (member : Str) (profile : Json) : Except Exc MemberProfile := do
  if profile.isObject = false then typeError (str "member profile must be a mapping")
  else if profile.keys.any (fun k => k ∉ profileFields) then
    valueError (str "unknown member profile field")
  else
    let field (key : Str) (missing : Json) := (profile.get? key).getD missing
    let bandwidth ← positiveFloat (field (str "bandwidth") (.float (.finite 1))) (str "bandwidth")
    let capacity ← positiveFloat (field (str "capacity") (.float (.finite 1))) (str "capacity")
    let load ← nonnegativeFloat (field (str "load") (.float (.finite 0))) (str "load")
    match (field (str "failure_domain") (.str member)).string?,
        (field (str "locality") (.str [])).string? with
    | some failureDomain, some locality =>
      .ok ⟨bandwidth, capacity, load, failureDomain, locality, bandwidth.2, capacity.2, load.2⟩
    | _, _ => typeError (str "profile topology fields must be strings")

def canonicalMemberProfiles (members : List Str) (profiles : Json) :
    Except Exc (List (Str × MemberProfile)) := do
  let canonical ← canonicalMembers members
  if profiles.isObject = false then typeError (str "member_profiles must be a mapping")
  else if profiles.keys.any (fun k => k ∉ canonical) then
    valueError (str "member profile does not belong to membership")
  else
    canonical.mapM fun member => do
      let profile ← memberProfile member ((profiles.get? member).getD (.obj []))
      return (member, profile)

end

/-! ### Reading profiles back -/

theorem rstrip_rstrip (c : CodePoint) (s : Str) : Str.rstrip c (Str.rstrip c s) = Str.rstrip c s := by
  simp only [Str.rstrip, List.reverse_reverse, List.dropWhile_idempotent]

theorem canonicalMembers_eq_ok {xs ms : List Str} :
    canonicalMembers xs = .ok ms ↔
      ms = xs.map (Str.rstrip (.ofChar '/')) ∧ ms ≠ [] ∧ [] ∉ ms ∧ ms.Nodup := by
  simp only [canonicalMembers, valueError]
  split
  · rename_i h
    constructor
    · intro hok; cases hok
    · rintro ⟨rfl, hne, hempty, hnodup⟩
      rcases h with h | h | h
      exacts [absurd h hne, absurd h hempty, absurd hnodup h]
  · rename_i h
    simp only [not_or, not_not] at h
    constructor
    · intro hok
      obtain rfl := Except.ok.inj hok
      exact ⟨rfl, h⟩
    · rintro ⟨rfl, -⟩
      rfl

/-- A canonical membership is canonical again. -/
theorem canonicalMembers_idem {xs ms : List Str} (h : canonicalMembers xs = .ok ms) :
    canonicalMembers ms = .ok ms := by
  obtain ⟨rfl, hrest⟩ := canonicalMembers_eq_ok.mp h
  refine canonicalMembers_eq_ok.mpr ⟨?_, hrest⟩
  simp only [List.map_map, Function.comp_def, rstrip_rstrip]

section
variable [Library]

theorem toFloat_sorted (j : Json) : toFloat j.sorted = toFloat j := by
  cases j <;> simp [Json.sorted, toFloat]

theorem positiveFloat_sorted (j : Json) (label : Str) :
    positiveFloat j.sorted label = positiveFloat j label := by
  simp only [positiveFloat, toFloat_sorted]

theorem nonnegativeFloat_sorted (j : Json) (label : Str) :
    nonnegativeFloat j.sorted label = nonnegativeFloat j label := by
  simp only [nonnegativeFloat, toFloat_sorted]

theorem memberProfile_sorted (member : Str) (j : Json) :
    memberProfile member j.sorted = memberProfile member j := by
  simp only [memberProfile, Json.isObject_sorted, Json.any_keys_sorted,
    Json.field_sorted _ _ _ (Json.sorted_float _), Json.field_sorted _ _ _ (Json.sorted_str _),
    positiveFloat_sorted, nonnegativeFloat_sorted, Json.string?_sorted]

/-- Key order plays no part in reading profiles. -/
theorem canonicalMemberProfiles_sorted (members : List Str) (j : Json) :
    canonicalMemberProfiles members j.sorted = canonicalMemberProfiles members j := by
  have hfield (member : Str) : memberProfile member ((j.sorted.get? member).getD (.obj [])) =
      memberProfile member ((j.get? member).getD (.obj [])) := by
    rw [Json.field_sorted _ _ _ (by simp [Json.sorted, Json.sortedMembers]), memberProfile_sorted]
  simp only [canonicalMemberProfiles, Json.isObject_sorted, Json.any_keys_sorted, hfield]

theorem positiveFloat_finite {q : Rat} (h : 0 < q) (label : Str) :
    positiveFloat (.float (.finite q)) label = .ok ⟨q, h⟩ := by
  simp [positiveFloat, toFloat, bind, Except.bind, h]

theorem nonnegativeFloat_finite {q : Rat} (h : 0 ≤ q) (label : Str) :
    nonnegativeFloat (.float (.finite q)) label = .ok ⟨q, h⟩ := by
  simp [nonnegativeFloat, toFloat, bind, Except.bind, h]

/-- A profile's five fields are read back as they are. -/
theorem memberProfile_fields {profile : Json} {member failureDomain locality : Str}
    {bandwidth capacity load : Rat} (hb : 0 < bandwidth) (hc : 0 < capacity) (hl : 0 ≤ load)
    (hobject : profile.isObject = true)
    (hkeys : profile.keys.any (fun k => k ∉ profileFields) = false)
    (h1 : (profile.get? (str "bandwidth")).getD (.float (.finite 1)) = .float (.finite bandwidth))
    (h2 : (profile.get? (str "capacity")).getD (.float (.finite 1)) = .float (.finite capacity))
    (h3 : (profile.get? (str "load")).getD (.float (.finite 0)) = .float (.finite load))
    (h4 : (profile.get? (str "failure_domain")).getD (.str member) = .str failureDomain)
    (h5 : (profile.get? (str "locality")).getD (.str []) = .str locality) :
    memberProfile member profile =
      .ok ⟨bandwidth, capacity, load, failureDomain, locality, hb, hc, hl⟩ := by
  simp only [memberProfile, hobject, hkeys, h1, h2, h3, h4, h5, positiveFloat_finite hb,
    positiveFloat_finite hc, nonnegativeFloat_finite hl, bind, Except.bind, Json.string?,
    Bool.false_eq_true, if_false, reduceCtorEq]

theorem memberProfile_toJson (member : Str) (p : MemberProfile) :
    memberProfile member p.toJson = .ok p :=
  memberProfile_fields p.bandwidth_pos p.capacity_pos p.load_nonneg rfl rfl rfl rfl rfl rfl rfl

theorem memberProfile_empty (member : Str) :
    memberProfile member (.obj []) = .ok (.default member) :=
  memberProfile_fields (by decide) (by decide) (by decide) rfl rfl rfl rfl rfl rfl rfl

theorem canonicalMemberProfiles_eq_ok {members : List Str} {j : Json}
    {ps : List (Str × MemberProfile)} (hok : canonicalMemberProfiles members j = .ok ps) :
    canonicalMembers members = .ok (ps.map Prod.fst) ∧ j.isObject = true := by
  obtain ⟨canonical, hcanonical, h⟩ := bind_eq_ok.mp hok
  rw [hcanonical]
  split_ifs at h with hobject hkeys
  refine ⟨?_, by simpa using hobject⟩
  have hall := mapM_eq_ok.mp h
  congr 1
  clear hok hcanonical hkeys hobject h
  induction hall with
  | nil => rfl
  | cons hhead _ ih =>
    obtain ⟨profile, -, hpair⟩ := bind_eq_ok.mp hhead
    cases hpair
    rw [List.map_cons, ← ih]

theorem canonicalMemberProfiles_of_each (ps : List (Str × MemberProfile)) {j : Json}
    (hcanonical : canonicalMembers (ps.map Prod.fst) = .ok (ps.map Prod.fst))
    (hobject : j.isObject = true) (hkeys : ∀ k ∈ j.keys, k ∈ ps.map Prod.fst)
    (heach : ∀ item ∈ ps, memberProfile item.1 ((j.get? item.1).getD (.obj [])) = .ok item.2) :
    canonicalMemberProfiles (ps.map Prod.fst) j = .ok ps := by
  have hknown : j.keys.any (fun k => k ∉ ps.map Prod.fst) = false := by
    rw [List.any_eq_false]
    intro k hk
    simpa using hkeys k hk
  have hall : (ps.map Prod.fst).mapM (fun member => do
      let profile ← memberProfile member ((j.get? member).getD (.obj []))
      return (member, profile)) = .ok ps := by
    rw [mapM_eq_ok, List.forall₂_map_left_iff, List.forall₂_same]
    intro item hitem
    rw [heach item hitem]
    rfl
  rw [canonicalMemberProfiles, hcanonical]
  simp only [bind, Except.bind, hobject, hknown, Bool.true_eq_false, Bool.false_eq_true, if_false]
  exact hall

theorem canonicalMemberProfiles_profilesObject {ps : List (Str × MemberProfile)}
    (hcanonical : canonicalMembers (ps.map Prod.fst) = .ok (ps.map Prod.fst)) :
    canonicalMemberProfiles (ps.map Prod.fst) (profilesObject ps) = .ok ps := by
  have hnodup := (canonicalMembers_eq_ok.mp hcanonical).2.2.2
  refine canonicalMemberProfiles_of_each ps hcanonical rfl ?_ ?_
  · intro k hk
    simpa [profilesObject, Json.keys, List.map_map, Function.comp_def] using hk
  · intro item hitem
    have hget : (profilesObject ps).get? item.1 = some item.2.toJson :=
      Json.lookupMember_map MemberProfile.toJson hnodup hitem
    rw [hget]
    exact memberProfile_toJson item.1 item.2

theorem canonicalMemberProfiles_empty {members : List Str}
    (hcanonical : canonicalMembers members = .ok members) :
    canonicalMemberProfiles members (.obj []) =
      .ok (members.map fun member => (member, .default member)) := by
  have hfst : (members.map fun member => (member, MemberProfile.default member)).map Prod.fst
      = members := by
    simp [List.map_map, Function.comp_def]
  have h := canonicalMemberProfiles_of_each (members.map fun member => (member, .default member))
    (j := .obj []) (by rwa [hfst]) rfl (by simp [Json.keys]) (by
      intro item hitem
      obtain ⟨member, -, rfl⟩ := List.mem_map.mp hitem
      exact memberProfile_empty member)
  rwa [hfst] at h

end

/-! ## Owners -/

/-- `sorted(items, key=key, reverse=True)`: equal keys keep their order. -/
def sortedReverse {α S : Type} [LinearOrder S] (key : α → S) (items : List α) : List α :=
  items.insertionSort (fun a b => key b ≤ key a)

/-- The first loop of `shard_owners`: the best members of distinct failure
domains, up to `count`. A member without a domain is always taken. -/
def selectDiverse (count : Nat) : List (Str × MemberProfile) → List Str → List Str → List Str
  | [], selected, _ => selected
  | (member, profile) :: rest, selected, domains =>
    let domain := profile.failureDomain
    if domain ≠ [] ∧ domain ∈ domains then selectDiverse count rest selected domains
    else
      let selected := selected ++ [member]
      if selected.length = count then selected
      else selectDiverse count rest selected (if domain = [] then domains else domain :: domains)

/-- The second loop: the best of the others. -/
def selectOthers (count : Nat) : List (Str × MemberProfile) → List Str → List Str
  | [], selected => selected
  | (member, _) :: rest, selected =>
    let selected := if member ∈ selected then selected else selected ++ [member]
    if selected.length = count then selected else selectOthers count rest selected

def selectOwners (count : Nat) (ranked : List (Str × MemberProfile)) : List Str :=
  let selected := selectDiverse count ranked [] []
  if selected.length = count then selected else selectOthers count ranked selected

section
variable [Library] {S : Type} [LinearOrder S] (score : Str → Nat → Str → MemberProfile → S)

/-- `score` is `_weighted_score`. -/
def shardOwners (version : Str) (shardIndex : Nat) (members : List Str) (replicationFactor : Int)
    (memberProfiles : Json) : Except Exc (List Str) := do
  let canonical ← canonicalMembers members
  if replicationFactor < 1 then valueError (str "replication_factor must be positive")
  else
    let count := min replicationFactor.toNat canonical.length
    let profiles ← canonicalMemberProfiles canonical memberProfiles
    let ranked := sortedReverse (fun item => score version shardIndex item.1 item.2) profiles
    return selectOwners count ranked

end

def orderOwnersForClient (owners : List Str) (memberProfiles : Json) (clientLocality : Str) :
    List Str :=
  if clientLocality = [] then owners
  else
    let isLocal (member : Str) : Bool :=
      (((memberProfiles.get? member).bind (Json.get? (str "locality"))).bind Json.string?)
        = some clientLocality
    sortedReverse isLocal owners

end Litecast
