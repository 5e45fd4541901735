import Litecast.Lib.StableSort
import Litecast.Placement

/-! What becomes of a shard's owners when a member leaves. -/

namespace Litecast

/-- A dictionary after `del`. -/
def Json.without (key : Str) : Json → Json
  | .obj members => .obj (members.filter fun member => member.1 ≠ key)
  | value => value

theorem Json.lookupMember_filter {key other : Str} (h : other ≠ key) (members : List (Str × Json)) :
    lookupMember other (members.filter fun member => member.1 ≠ key) = lookupMember other members := by
  induction members with
  | nil => rfl
  | cons member rest ih =>
    obtain ⟨name, value⟩ := member
    by_cases hname : name = key
    · rw [List.filter_cons_of_neg (by simpa using hname), ih, lookupMember, if_neg]
      rintro rfl
      exact h hname
    · rw [List.filter_cons_of_pos (by simpa using hname), lookupMember, lookupMember, ih]

theorem Json.get?_without {key other : Str} (h : other ≠ key) (value : Json) :
    (value.without key).get? other = value.get? other := by
  cases value with
  | obj members => exact lookupMember_filter h members
  | _ => rfl

theorem Json.mem_keys_without {key other : Str} {value : Json} :
    other ∈ (value.without key).keys ↔ other ∈ value.keys ∧ other ≠ key := by
  cases value with
  | obj members =>
    simp only [without, keys, List.mem_map, List.mem_filter, decide_eq_true_eq]
    constructor
    · rintro ⟨member, ⟨hmem, hne⟩, rfl⟩
      exact ⟨⟨member, hmem, rfl⟩, hne⟩
    · rintro ⟨⟨member, hmem, rfl⟩, hne⟩
      exact ⟨member, ⟨hmem, hne⟩, rfl⟩
  | _ => simp [without, keys]

theorem canonicalMembers_filter {members : List Str}
    (hcanonical : canonicalMembers members = .ok members) {member : Str}
    (hother : ∃ other ∈ members, other ≠ member) :
    canonicalMembers (members.filter (· ≠ member)) = .ok (members.filter (· ≠ member)) := by
  obtain ⟨hstrip, -, hempty, hnodup⟩ := canonicalMembers_eq_ok.mp hcanonical
  have hfixed : ∀ name ∈ members, Str.rstrip (.ofChar '/') name = name := by
    have hmap : members.map (Str.rstrip (.ofChar '/')) = members.map id := by
      rw [List.map_id, ← hstrip]
    exact List.map_inj_left.mp hmap
  refine canonicalMembers_eq_ok.mpr ⟨?_, ?_, ?_, hnodup.filter _⟩
  · symm
    calc (members.filter (· ≠ member)).map (Str.rstrip (.ofChar '/'))
        = (members.filter (· ≠ member)).map id :=
          List.map_inj_left.mpr fun name hname => hfixed name (List.mem_of_mem_filter hname)
      _ = members.filter (· ≠ member) := List.map_id _
  · obtain ⟨other, hmem, hne⟩ := hother
    exact List.ne_nil_of_mem (List.mem_filter.mpr ⟨hmem, by simpa using hne⟩)
  · exact fun h => hempty (List.mem_of_mem_filter h)

section
variable [Library]

/-- Every profile is the one its member has in the mapping. -/
theorem canonicalMemberProfiles_each {members : List Str} {memberProfiles : Json}
    {profiles : List (Str × MemberProfile)}
    (h : canonicalMemberProfiles members memberProfiles = .ok profiles) :
    (∀ k ∈ memberProfiles.keys, k ∈ profiles.map Prod.fst) ∧
      ∀ item ∈ profiles,
        memberProfile item.1 ((memberProfiles.get? item.1).getD (.obj [])) = .ok item.2 := by
  obtain ⟨hnames, hobject⟩ := canonicalMemberProfiles_eq_ok h
  rw [canonicalMemberProfiles, hnames] at h
  simp only [bind, Except.bind, hobject, Bool.true_eq_false, if_false] at h
  split_ifs at h with hkeys
  refine ⟨?_, ?_⟩
  · intro k hk
    have hknown := List.any_eq_false.mp (Bool.not_eq_true _ ▸ hkeys) k hk
    simpa using hknown
  · intro item hitem
    have hall := mapM_eq_ok.mp h
    rw [List.forall₂_map_left_iff, List.forall₂_same] at hall
    obtain ⟨profile, hprofile, hpair⟩ := bind_eq_ok.mp (hall item hitem)
    rw [hprofile, ← (Except.ok.inj hpair : (item.1, profile) = item)]

theorem canonicalMemberProfiles_without {memberProfiles : Json}
    {profiles : List (Str × MemberProfile)} {member : Str}
    (h : canonicalMemberProfiles (profiles.map Prod.fst) memberProfiles = .ok profiles)
    (hcanonical : canonicalMembers ((profiles.filter fun item => item.1 ≠ member).map Prod.fst) =
      .ok ((profiles.filter fun item => item.1 ≠ member).map Prod.fst)) :
    canonicalMemberProfiles ((profiles.filter fun item => item.1 ≠ member).map Prod.fst)
      (memberProfiles.without member) = .ok (profiles.filter fun item => item.1 ≠ member) := by
  obtain ⟨hkeys, heach⟩ := canonicalMemberProfiles_each h
  refine canonicalMemberProfiles_of_each _ hcanonical ?_ ?_ ?_
  · have hobject := (canonicalMemberProfiles_eq_ok h).2
    cases memberProfiles <;> first | rfl | cases hobject
  · intro k hk
    obtain ⟨hmem, hne⟩ := Json.mem_keys_without.mp hk
    obtain ⟨item, hitem, rfl⟩ := List.mem_map.mp (hkeys k hmem)
    exact List.mem_map_of_mem (List.mem_filter.mpr ⟨hitem, by simpa using hne⟩)
  · intro item hitem
    obtain ⟨hmem, hne⟩ := List.mem_filter.mp hitem
    rw [Json.get?_without (by simpa using hne)]
    exact heach item hmem

end

/-! ## Ranking without a member -/

/-- Sorting is stable: the others keep their order when some go. -/
theorem sortedReverse_filter {α S : Type} [LinearOrder S] (key : α → S) (keep : α → Bool)
    (items : List α) :
    sortedReverse key (items.filter keep) = (sortedReverse key items).filter keep := by
  have htrans : IsTrans α fun a b => key b ≤ key a := ⟨fun _ _ _ hab hbc => hbc.trans hab⟩
  have htotal : Std.Total fun a b : α => key b ≤ key a := ⟨fun a b => le_total (key b) (key a)⟩
  exact (StableSort.filter_insertionSort keep items).symm

/-! ## Owners -/

/-- The owners are the first of the ranking once the best member of each
failure domain is put before the others. -/
theorem selectOwners_eq_take (count : Nat) (ranked : List (Str × MemberProfile)) (hpos : 0 < count)
    (hnodup : (ranked.map Prod.fst).Nodup) (hcount : count ≤ ranked.length) :
    selectOwners count ranked = ((FirstOfEach.arrange domainOf ranked).take count).map Prod.fst := by
  have hdiverse := selectDiverse_eq_take count ranked [] [] [] hpos hnodup (by simp) (by simp)
  rw [List.nil_append, List.length_nil, Nat.sub_zero] at hdiverse
  have hsub := FirstOfEach.pick_sublist domainOf [] ranked
  rw [selectOwners, FirstOfEach.arrange]
  by_cases hfull : (selectDiverse count ranked [] []).length = count
  · rw [if_pos hfull, hdiverse]
    rw [hdiverse, List.length_map, List.length_take] at hfull
    rw [List.take_append_of_le_length (by omega)]
  · rw [if_neg hfull]
    have hshort : (FirstOfEach.pick domainOf [] ranked).length < count := by
      rw [hdiverse, List.length_map, List.length_take] at hfull
      omega
    rw [List.take_of_length_le hshort.le] at hdiverse
    have hdistinct : ((FirstOfEach.pick domainOf [] ranked).map Prod.fst).Nodup :=
      (hsub.map Prod.fst).nodup hnodup
    have hlength := length_append_filter_notMem hnodup hdistinct (hsub.map Prod.fst).subset
    rw [List.length_map] at hlength
    rw [hdiverse, selectOthers_eq_take count ranked _ (by rwa [List.length_map]) hnodup (by omega),
      List.map_take, List.map_append]
    -- who is passed over by name is passed over as an item
    have hothers : (ranked.map Prod.fst).filter (· ∉ (FirstOfEach.pick domainOf [] ranked).map Prod.fst) =
        (FirstOfEach.others domainOf [] ranked).map Prod.fst := by
      rw [FirstOfEach.others_eq_filter domainOf [] (List.Nodup.of_map Prod.fst hnodup), List.filter_map]
      congr 1
      apply List.filter_congr
      intro item hitem
      have hsame : item.1 ∈ (FirstOfEach.pick domainOf [] ranked).map Prod.fst ↔
          item ∈ FirstOfEach.pick domainOf [] ranked := by
        constructor
        · intro hname
          obtain ⟨other, hother, heq⟩ := List.mem_map.mp hname
          rwa [List.inj_on_of_nodup_map hnodup (hsub.subset hother) hitem heq] at hother
        · exact fun h => List.mem_map_of_mem h
      rw [Function.comp_apply, decide_eq_decide, not_iff_not]
      exact hsame
    rw [hothers]

section
variable [Library] {S : Type} [LinearOrder S] (score : Str → Nat → Str → MemberProfile → S)

theorem shardOwners_eq_ok_iff {members : List Str} {memberProfiles : Json}
    (hcanonical : canonicalMembers members = .ok members) {version : Str} {index : Nat}
    {replicationFactor : Int} {owners : List Str} :
    shardOwners score version index members replicationFactor memberProfiles = .ok owners ↔
      1 ≤ replicationFactor ∧ ∃ profiles,
        canonicalMemberProfiles members memberProfiles = .ok profiles ∧
        owners = ((FirstOfEach.arrange domainOf
          (sortedReverse (fun item => score version index item.1 item.2) profiles)).take
            replicationFactor.toNat).map Prod.fst := by
  have hselect {profiles : List (Str × MemberProfile)} (hpos : 1 ≤ replicationFactor)
      (hprofiles : canonicalMemberProfiles members memberProfiles = .ok profiles) :
      selectOwners (min replicationFactor.toNat members.length)
          (sortedReverse (fun item => score version index item.1 item.2) profiles) =
        ((FirstOfEach.arrange domainOf
          (sortedReverse (fun item => score version index item.1 item.2) profiles)).take
            replicationFactor.toNat).map Prod.fst := by
    obtain ⟨-, hnonempty, -, hnodup⟩ := canonicalMembers_eq_ok.mp hcanonical
    obtain rfl : members = profiles.map Prod.fst :=
      Except.ok.inj (hcanonical.symm.trans (canonicalMemberProfiles_eq_ok hprofiles).1)
    have hperm := sortedReverse_perm (fun item => score version index item.1 item.2) profiles
    have hlength := hperm.length_eq
    have hsome := List.length_pos_iff.mpr hnonempty
    rw [List.length_map] at hsome ⊢
    rw [selectOwners_eq_take _ _ (by omega) ((hperm.map Prod.fst).nodup_iff.mpr hnodup) (by omega),
      ← hlength, ← FirstOfEach.length_arrange domainOf, ← List.take_eq_take_min]
  simp only [shardOwners, hcanonical, bind, Except.bind, pure, Except.pure]
  constructor
  · intro h
    split_ifs at h with hpos
    cases hprofiles : canonicalMemberProfiles members memberProfiles with
    | error e => rw [hprofiles] at h; cases h
    | ok profiles =>
      rw [hprofiles] at h
      obtain rfl := Except.ok.inj h
      exact ⟨by omega, profiles, rfl, hselect (by omega) hprofiles⟩
  · rintro ⟨hpos, profiles, hprofiles, rfl⟩
    rw [if_neg (by omega), hprofiles]
    simp only [hselect hpos hprofiles]

/-- **A member that leaves disturbs no other.** Owners other than it stay
owners, and where it was none the owners stay as they are. -/
theorem removal_keeps_owners {members : List Str} {memberProfiles : Json} {member : Str}
    (hcanonical : canonicalMembers members = .ok members) (hmembers : 2 ≤ members.length)
    (hmember : member ∈ members) (version : Str) (index : Nat) (replicationFactor : Int)
    {owners : List Str}
    (howners : shardOwners score version index members replicationFactor memberProfiles = .ok owners) :
    ∃ remaining, shardOwners score version index (members.erase member) replicationFactor
        (memberProfiles.without member) = .ok remaining ∧
      (∀ owner ∈ owners, owner ≠ member → owner ∈ remaining) ∧
      (member ∉ owners → remaining = owners) := by
  obtain ⟨hpos, profiles, hprofiles, rfl⟩ := (shardOwners_eq_ok_iff score hcanonical).mp howners
  obtain rfl : members = profiles.map Prod.fst :=
    Except.ok.inj (hcanonical.symm.trans (canonicalMemberProfiles_eq_ok hprofiles).1)
  obtain ⟨-, -, -, hnodup⟩ := canonicalMembers_eq_ok.mp hcanonical
  set key := fun item : Str × MemberProfile => score version index item.1 item.2
  set kept := profiles.filter fun item => item.1 ≠ member with hkept
  have hnames : (profiles.map Prod.fst).erase member = kept.map Prod.fst := by
    rw [hnodup.erase_eq_filter, List.filter_map]
    congr 1
    apply List.filter_congr
    intro item _
    exact Bool.eq_iff_iff.mpr (by simp)
  have hother : ∃ other ∈ profiles.map Prod.fst, other ≠ member := by
    by_contra hnone
    have hall : ∀ other ∈ profiles.map Prod.fst, other = member := by simpa using hnone
    have hsame := List.eq_replicate_iff.mpr ⟨rfl, hall⟩
    rw [hsame, List.nodup_replicate] at hnodup
    omega
  have hremaining := canonicalMembers_filter hcanonical hother
  have hnames' : (profiles.map Prod.fst).filter (· ≠ member) = kept.map Prod.fst := List.filter_map
  rw [hnames'] at hremaining
  have hwithout := canonicalMemberProfiles_without hprofiles hremaining
  refine ⟨_, (shardOwners_eq_ok_iff score (hnames ▸ hremaining)).mpr
    ⟨hpos, kept, hnames ▸ hwithout, rfl⟩, ?_⟩
  -- in the ranking, and so in its arrangement, one item is left out
  obtain ⟨item, hitem, rfl⟩ := List.mem_map.mp hmember
  have hperm := sortedReverse_perm key profiles
  have hranks : ((sortedReverse key profiles).map Prod.fst).Nodup :=
    (hperm.map Prod.fst).nodup_iff.mpr hnodup
  obtain ⟨before, after, hsplit⟩ := List.append_of_mem (hperm.symm.subset hitem)
  have hranked : sortedReverse key kept = before ++ after := by
    rw [hsplit, List.map_append, List.map_cons, List.nodup_middle, List.nodup_cons,
      ← List.map_append] at hranks
    have hothers : ∀ other ∈ before ++ after, other.1 ≠ item.1 := by
      intro other hmem hsame
      exact hranks.1 (hsame ▸ List.mem_map_of_mem hmem)
    rw [hkept, sortedReverse_filter, hsplit, List.filter_append, List.filter_cons_of_neg (by simp),
      ← List.filter_append, List.filter_eq_self]
    exact fun other hmem => by simpa using hothers other hmem
  rw [hranked, hsplit]
  obtain ⟨hstay, hsame⟩ := FirstOfEach.take_arrange_remove domainOf before item after
    replicationFactor.toNat
  constructor
  · intro owner howner hne
    obtain ⟨other, hmem, rfl⟩ := List.mem_map.mp howner
    refine List.mem_map_of_mem (hstay other hmem ?_)
    rintro rfl
    exact hne rfl
  · intro hnot
    rw [hsame fun hmem => hnot (List.mem_map_of_mem hmem)]

end

/-- One of two members in one place leaves. -/
theorem removal_keeps_owners_shared_place :
    letI := asciiLibrary
    ∃ owners remaining,
      shardOwners (fun _ _ _ profile => profile.capacity) (str "v1") 0 [str "a", str "b", str "c"] 2
        (profilesObject twoPlaces) = .ok owners ∧
      shardOwners (fun _ _ _ profile => profile.capacity) (str "v1") 0
        ([str "a", str "b", str "c"].erase (str "a")) 2
        ((profilesObject twoPlaces).without (str "a")) = .ok remaining ∧
      ∀ owner ∈ owners, owner ≠ str "a" → owner ∈ remaining := by
  let _ := asciiLibrary
  have hcanonical : canonicalMembers [str "a", str "b", str "c"] = .ok [str "a", str "b", str "c"] := by
    decide
  have htwo : canonicalMembers (twoPlaces.map Prod.fst) = .ok (twoPlaces.map Prod.fst) := by decide
  have hprofiles : canonicalMemberProfiles [str "a", str "b", str "c"] (profilesObject twoPlaces) =
      .ok twoPlaces := canonicalMemberProfiles_profilesObject htwo
  have hmember : str "a" ∈ [str "a", str "b", str "c"] := by simp
  have howners : shardOwners (fun _ _ _ profile => profile.capacity) (str "v1") 0
      [str "a", str "b", str "c"] 2 (profilesObject twoPlaces) = .ok _ :=
    (shardOwners_eq_ok_iff _ hcanonical).mpr ⟨by decide, _, hprofiles, rfl⟩
  obtain ⟨remaining, hremaining, hstay, -⟩ := removal_keeps_owners
    (fun _ _ _ profile => profile.capacity) hcanonical (by decide) hmember (str "v1") 0 2 howners
  exact ⟨_, remaining, howners, hremaining, hstay⟩

end Litecast
