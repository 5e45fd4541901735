import Litecast.Lib.FirstOfEach
import Litecast.Membership

/-! What `shard_owners` returns: as many distinct members as the replication
factor asks for, from as many failure domains as there are. -/

namespace Litecast

/-! ## The two loops -/

/-- The first loop adds members in rank order and stops at the count. -/
theorem selectDiverse_spec (count : Nat) (ranked : List (Str × MemberProfile))
    (selected domains : List Str) (hselected : selected.length < count) :
    ∃ more, selectDiverse count ranked selected domains = selected ++ more ∧
      more.Sublist (ranked.map Prod.fst) ∧ (selected ++ more).length ≤ count := by
  induction ranked generalizing selected domains with
  | nil => exact ⟨[], by simp [selectDiverse], List.Sublist.refl _, by simpa using hselected.le⟩
  | cons entry rest ih =>
    obtain ⟨member, profile⟩ := entry
    by_cases htaken : profile.failureDomain ≠ [] ∧ profile.failureDomain ∈ domains
    · obtain ⟨more, heq, hsub, hlen⟩ := ih selected domains hselected
      exact ⟨more, by simp only [selectDiverse, if_pos htaken, heq], hsub.cons _, hlen⟩
    · by_cases hfull : (selected ++ [member]).length = count
      · exact ⟨[member], by simp only [selectDiverse, if_neg htaken, if_pos hfull], by simp, hfull.le⟩
      · have hmore : (selected ++ [member]).length < count := by
          rw [List.length_append, List.length_singleton] at hfull ⊢
          omega
        obtain ⟨more, heq, hsub, hlen⟩ := ih (selected ++ [member])
          (if profile.failureDomain = [] then domains else profile.failureDomain :: domains) hmore
        refine ⟨member :: more, ?_, hsub.cons_cons member, by simpa using hlen⟩
        simp only [selectDiverse, if_neg htaken, if_neg hfull, heq]
        simp

/-- The second loop takes the others in order until the count is reached. -/
theorem selectOthers_eq_take (count : Nat) (ranked : List (Str × MemberProfile))
    (selected : List Str) (hselected : selected.length < count)
    (hnodup : (ranked.map Prod.fst).Nodup)
    (hcount : count ≤ (selected ++ (ranked.map Prod.fst).filter (· ∉ selected)).length) :
    selectOthers count ranked selected =
      (selected ++ (ranked.map Prod.fst).filter (· ∉ selected)).take count := by
  induction ranked generalizing selected with
  | nil => simp only [List.map_nil, List.filter_nil, List.append_nil] at hcount; omega
  | cons entry rest ih =>
    obtain ⟨member, profile⟩ := entry
    simp only [List.map_cons, List.nodup_cons] at hnodup hcount ⊢
    by_cases hmem : member ∈ selected
    · rw [List.filter_cons_of_neg (by simpa using hmem)] at hcount ⊢
      simp only [selectOthers, if_pos hmem, if_neg (Nat.ne_of_lt hselected)]
      exact ih selected hselected hnodup.2 hcount
    · rw [List.filter_cons_of_pos (by simpa using hmem)] at hcount ⊢
      simp only [selectOthers, if_neg hmem]
      have hsplit : selected ++ member :: (rest.map Prod.fst).filter (· ∉ selected)
          = (selected ++ [member]) ++ (rest.map Prod.fst).filter (· ∉ selected) := by simp
      rw [hsplit] at hcount ⊢
      have hfilter : (rest.map Prod.fst).filter (· ∉ selected)
          = (rest.map Prod.fst).filter (· ∉ selected ++ [member]) := by
        apply List.filter_congr
        intro other hother
        have hne : other ≠ member := by
          rintro rfl
          exact hnodup.1 hother
        simp [hne]
      split_ifs with hfull
      · rw [← hfull, List.take_left]
      · rw [hfilter] at hcount ⊢
        refine ih _ ?_ hnodup.2 hcount
        rw [List.length_append, List.length_singleton] at hfull ⊢
        omega

/-- The chosen owners and the members passed over are all the members. -/
theorem length_append_filter_notMem {names chosen : List Str} (hnames : names.Nodup)
    (hchosen : chosen.Nodup) (hsub : ∀ name ∈ chosen, name ∈ names) :
    (chosen ++ names.filter (· ∉ chosen)).length = names.length := by
  have hperm : (names.filter (· ∈ chosen)).Perm chosen := by
    rw [List.perm_ext_iff_of_nodup (hnames.filter _) hchosen]
    intro name
    simp only [List.mem_filter, decide_eq_true_eq]
    exact ⟨And.right, fun h => ⟨hsub name h, h⟩⟩
  have hall := (List.filter_append_perm (· ∈ chosen) names).length_eq
  simp only [List.length_append, hperm.length_eq] at hall ⊢
  simpa using hall

/-- **Owners are distinct members, as many as asked for.** -/
theorem selectOwners_spec (count : Nat) (ranked : List (Str × MemberProfile))
    (hpos : 0 < count) (hnodup : (ranked.map Prod.fst).Nodup) (hcount : count ≤ ranked.length) :
    (selectOwners count ranked).length = count ∧ (selectOwners count ranked).Nodup ∧
      ∀ member ∈ selectOwners count ranked, member ∈ ranked.map Prod.fst := by
  obtain ⟨diverse, heq, hsub, hlen⟩ := selectDiverse_spec count ranked [] [] hpos
  rw [List.nil_append] at heq hlen
  have hdiverse := hsub.nodup hnodup
  rw [selectOwners, heq]
  by_cases hfull : diverse.length = count
  · rw [if_pos hfull]
    exact ⟨hfull, hdiverse, fun member hmember => hsub.subset hmember⟩
  · rw [if_neg hfull]
    have hlength := length_append_filter_notMem hnodup hdiverse hsub.subset
    rw [List.length_map] at hlength
    rw [selectOthers_eq_take count ranked diverse (by omega) hnodup (by omega)]
    refine ⟨by rw [List.length_take]; omega, ?_, ?_⟩
    · apply (List.take_sublist _ _).nodup
      rw [List.nodup_append]
      refine ⟨hdiverse, hnodup.filter _, ?_⟩
      rintro chosen hchosen other hother rfl
      simp only [List.mem_filter, decide_eq_true_eq] at hother
      exact hother.2 hchosen
    · intro member hmember
      rcases List.mem_append.mp (List.mem_of_mem_take hmember) with h | h
      · exact hsub.subset h
      · exact (List.mem_filter.mp h).1

/-! ## `shard_owners` -/

theorem sortedReverse_perm {α S : Type} [LinearOrder S] (key : α → S) (items : List α) :
    (sortedReverse key items).Perm items :=
  List.perm_insertionSort _ _

section
variable [Library] {S : Type} [LinearOrder S] (score : Str → Nat → Str → MemberProfile → S)

theorem shardOwners_of_profiles {members : List Str} {memberProfiles : Json}
    {profiles : List (Str × MemberProfile)} {replicationFactor : Nat}
    (hcanonical : canonicalMembers members = .ok members)
    (hprofiles : canonicalMemberProfiles members memberProfiles = .ok profiles)
    (hpos : 1 ≤ replicationFactor) (hle : replicationFactor ≤ members.length) (version : Str)
    (index : Nat) :
    ∃ owners, shardOwners score version index members replicationFactor memberProfiles = .ok owners ∧
      owners.length = replicationFactor ∧ owners.Nodup ∧ ∀ owner ∈ owners, owner ∈ members := by
  have hnodup := (canonicalMembers_eq_ok.mp hcanonical).2.2.2
  obtain rfl : members = profiles.map Prod.fst :=
    Except.ok.inj (hcanonical.symm.trans (canonicalMemberProfiles_eq_ok hprofiles).1)
  have hperm := sortedReverse_perm (fun item => score version index item.1 item.2) profiles
  obtain ⟨hlength, hdistinct, hsub⟩ := selectOwners_spec replicationFactor
    (sortedReverse (fun item => score version index item.1 item.2) profiles) hpos
    ((hperm.map Prod.fst).nodup_iff.mpr hnodup)
    (by rw [hperm.length_eq]; simpa using hle)
  refine ⟨_, ?_, hlength, hdistinct, fun owner howner => (hperm.map Prod.fst).subset (hsub owner howner)⟩
  have hnot : ¬ (replicationFactor : Int) < 1 := by omega
  have hmin : min replicationFactor (profiles.map Prod.fst).length = replicationFactor :=
    Nat.min_eq_left hle
  simp only [shardOwners, hcanonical, bind, Except.bind, hnot, if_false, Int.toNat_natCast, hmin,
    hprofiles, pure, Except.pure]

/-- For a canonical membership with a factor within it, the owners exist and
are that many distinct members. -/
theorem shardOwners_spec {members : List Str} {profiles : List (Str × MemberProfile)}
    {replicationFactor : Nat} (hcanonical : canonicalMembers members = .ok members)
    (hprofiles : profiles.map Prod.fst = members) (hpos : 1 ≤ replicationFactor)
    (hle : replicationFactor ≤ members.length) (version : Str) (index : Nat) :
    ∃ owners, shardOwners score version index members replicationFactor (profilesObject profiles)
        = .ok owners ∧ owners.length = replicationFactor ∧ owners.Nodup ∧
      ∀ owner ∈ owners, owner ∈ members := by
  subst hprofiles
  exact shardOwners_of_profiles score hcanonical (canonicalMemberProfiles_profilesObject hcanonical)
    hpos hle version index

end

/-- A client asks a shard's owners and nobody else. -/
theorem orderOwnersForClient_perm (owners : List Str) (memberProfiles : Json)
    (clientLocality : Str) :
    (orderOwnersForClient owners memberProfiles clientLocality).Perm owners := by
  rw [orderOwnersForClient]
  split_ifs
  · exact List.Perm.refl _
  · exact sortedReverse_perm _ _

/-! ## Failure domains -/

/-- A member without a failure domain is one of its own. -/
def domainOf (item : Str × MemberProfile) : Str ⊕ Str :=
  if item.2.failureDomain = [] then .inl item.1 else .inr item.2.failureDomain

/-- The first loop takes the first member of each failure domain. -/
theorem selectDiverse_eq_take (count : Nat) (ranked : List (Str × MemberProfile))
    (selected domains : List Str) (seen : List (Str ⊕ Str)) (hselected : selected.length < count)
    (hnodup : (ranked.map Prod.fst).Nodup)
    (hdomains : ∀ domain, .inr domain ∈ seen ↔ domain ∈ domains)
    (hown : ∀ member ∈ ranked.map Prod.fst, .inl member ∉ seen) :
    selectDiverse count ranked selected domains =
      selected ++ ((FirstOfEach.pick domainOf seen ranked).take
        (count - selected.length)).map Prod.fst := by
  induction ranked generalizing selected domains seen with
  | nil => simp [selectDiverse, FirstOfEach.pick]
  | cons entry rest ih =>
    obtain ⟨member, profile⟩ := entry
    rw [List.map_cons, List.nodup_cons] at hnodup
    have hrest : ∀ other ∈ rest.map Prod.fst, .inl other ∉ seen :=
      fun other hother => hown other (List.mem_cons_of_mem _ hother)
    have htaken : (profile.failureDomain ≠ [] ∧ profile.failureDomain ∈ domains) ↔
        domainOf (member, profile) ∈ seen := by
      rw [domainOf]
      split_ifs with hnone
      · have hempty : profile.failureDomain = [] := hnone
        simp [hempty, hown member (by simp)]
      · have hnamed : profile.failureDomain ≠ [] := hnone
        simp [hnamed, hdomains]
    rw [selectDiverse, FirstOfEach.pick]
    by_cases hseen : domainOf (member, profile) ∈ seen
    · rw [if_pos hseen, if_pos (htaken.mpr hseen)]
      exact ih selected domains seen hselected hnodup.2 hdomains hrest
    · rw [if_neg hseen, if_neg (mt htaken.mp hseen)]
      obtain ⟨places, hplaces⟩ : ∃ places, count - selected.length = places + 1 :=
        ⟨count - selected.length - 1, by omega⟩
      rw [hplaces, List.take_succ_cons, List.map_cons]
      by_cases hfull : (selected ++ [member]).length = count
      · rw [List.length_append, List.length_singleton] at hfull
        obtain rfl : places = 0 := by omega
        simp [hfull]
      · have hlength : (selected ++ [member]).length = selected.length + 1 := by simp
        have hmore : selected.length + 1 < count := by omega
        have hplaces' : count - (selected.length + 1) = places := by omega
        have hstep := ih (selected ++ [member])
          (if profile.failureDomain = [] then domains else profile.failureDomain :: domains)
          (domainOf (member, profile) :: seen) (by rw [hlength]; exact hmore) hnodup.2
          (by
            intro domain
            rw [domainOf]
            split_ifs with hnone
            · simp [hdomains]
            · simp [hdomains])
          (by
            intro other hother hin
            rw [List.mem_cons] at hin
            rcases hin with heq | hin
            · rw [domainOf] at heq
              split_ifs at heq
              obtain rfl := Sum.inl.inj heq
              exact hnodup.1 hother
            · exact hrest other hother hin)
        rw [hlength, hplaces'] at hstep
        simp only [hlength, if_neg hmore.ne]
        rw [hstep, List.append_assoc, List.singleton_append]

/-- The members chosen, with their profiles. -/
def chosen (owners : List Str) (profiles : List (Str × MemberProfile)) :
    List (Str × MemberProfile) :=
  profiles.filter fun item => item.1 ∈ owners

theorem mem_chosen_iff {owners : List Str} {profiles picked : List (Str × MemberProfile)}
    (hnodup : (profiles.map Prod.fst).Nodup) (hpicked : picked ⊆ profiles)
    (howners : owners = picked.map Prod.fst) (item : Str × MemberProfile) :
    item ∈ chosen owners profiles ↔ item ∈ picked := by
  rw [chosen, List.mem_filter, decide_eq_true_eq, howners]
  constructor
  · rintro ⟨hitem, hname⟩
    obtain ⟨other, hother, hsame⟩ := List.mem_map.mp hname
    rwa [List.inj_on_of_nodup_map hnodup (hpicked hother) hitem hsame] at hother
  · intro hitem
    exact ⟨hpicked hitem, List.mem_map_of_mem hitem⟩

/-- **Owners are in as many failure domains as the factor and the members
allow.** -/
theorem selectOwners_domains (count : Nat) (ranked : List (Str × MemberProfile)) (hpos : 0 < count)
    (hnodup : (ranked.map Prod.fst).Nodup) (hcount : count ≤ ranked.length) :
    (FirstOfEach.keys domainOf (chosen (selectOwners count ranked) ranked)).card =
        min count (FirstOfEach.keys domainOf ranked).card ∧
      (selectOwners count ranked).head? = ranked.head?.map Prod.fst := by
  have hdiverse := selectDiverse_eq_take count ranked [] [] [] hpos hnodup (by simp) (by simp)
  rw [List.nil_append, List.length_nil, Nat.sub_zero] at hdiverse
  have hsub := FirstOfEach.pick_sublist domainOf [] ranked
  have hfirst : (selectDiverse count ranked [] []).head? = ranked.head?.map Prod.fst := by
    rw [hdiverse]
    cases ranked with
    | nil => simp [FirstOfEach.pick]
    | cons first rest => simp [FirstOfEach.pick, List.head?_take, hpos.ne']
  rw [selectOwners]
  by_cases hfull : (selectDiverse count ranked [] []).length = count
  · rw [if_pos hfull]
    refine ⟨?_, hfirst⟩
    rw [← FirstOfEach.card_keys_take count ranked]
    congr 1
    apply FirstOfEach.keys_congr
    exact mem_chosen_iff hnodup (fun item hitem => hsub.subset (List.mem_of_mem_take hitem)) hdiverse
  · rw [if_neg hfull]
    have hshort : (FirstOfEach.pick domainOf [] ranked).length < count := by
      rw [hdiverse, List.length_map, List.length_take] at hfull
      omega
    rw [List.take_of_length_le hshort.le] at hdiverse
    have hdistinct : (selectDiverse count ranked [] []).Nodup := by
      rw [hdiverse]
      exact (hsub.map Prod.fst).nodup hnodup
    have hlength := length_append_filter_notMem hnodup hdistinct (by
      rw [hdiverse]
      exact (hsub.map Prod.fst).subset)
    have hless : (selectDiverse count ranked [] []).length < count := by
      rw [hdiverse, List.length_map]
      exact hshort
    rw [List.length_map] at hlength
    rw [selectOthers_eq_take count ranked _ hless hnodup (by omega)]
    constructor
    · apply FirstOfEach.card_keys_all hshort.le
      · intro item hitem
        rw [chosen, List.mem_filter, decide_eq_true_eq]
        refine ⟨hsub.subset hitem, ?_⟩
        rw [List.take_append, List.take_of_length_le hless.le]
        apply List.mem_append_left
        rw [hdiverse]
        exact List.mem_map_of_mem hitem
      · exact List.filter_subset_self _
    · rw [List.head?_take, if_neg hpos.ne', List.head?_append, hfirst]
      cases ranked with
      | nil => exact absurd hcount (by simpa using hpos.ne')
      | cons first rest => rfl

section
variable [Library] {S : Type} [LinearOrder S] (score : Str → Nat → Str → MemberProfile → S)

omit [Library] in
theorem sortedReverse_head {α : Type} (key : α → S) {items : List α} {first : α}
    (h : (sortedReverse key items).head? = some first) :
    first ∈ items ∧ ∀ item ∈ items, key item ≤ key first := by
  have hperm := sortedReverse_perm key items
  have hsorted := List.pairwise_insertionSort (fun a b => key b ≤ key a) items
  rw [← sortedReverse] at hsorted
  cases hranked : sortedReverse key items with
  | nil =>
    rw [hranked] at h
    cases h
  | cons head rest =>
    rw [hranked] at h hperm hsorted
    obtain rfl : head = first := by simpa using h
    refine ⟨hperm.subset (by simp), fun item hitem => ?_⟩
    have hmem := hperm.symm.subset hitem
    rw [List.mem_cons] at hmem
    rcases hmem with rfl | hrest
    · exact le_rfl
    · exact (List.pairwise_cons.mp hsorted).1 item hrest

/-- **A shard's owners are the best placed.** As many distinct members as
asked for, or all; the highest score first; and as many failure domains as that
many members can be in. -/
theorem shardOwners_diverse {members canonical : List Str} {memberProfiles : Json}
    {profiles : List (Str × MemberProfile)} (hcanonical : canonicalMembers members = .ok canonical)
    (hprofiles : canonicalMemberProfiles canonical memberProfiles = .ok profiles)
    (replicationFactor : Nat) (hpos : 1 ≤ replicationFactor) (version : Str) (index : Nat) :
    ∃ owners, shardOwners score version index members replicationFactor memberProfiles = .ok owners ∧
      owners.length = min replicationFactor canonical.length ∧ owners.Nodup ∧
      (∀ owner ∈ owners, owner ∈ canonical) ∧
      (∃ first ∈ profiles, owners.head? = some first.1 ∧
        ∀ item ∈ profiles, score version index item.1 item.2 ≤ score version index first.1 first.2) ∧
      (FirstOfEach.keys domainOf (chosen owners profiles)).card =
        min replicationFactor (FirstOfEach.keys domainOf profiles).card := by
  have hidem := canonicalMembers_idem hcanonical
  obtain ⟨hnames, -⟩ := canonicalMemberProfiles_eq_ok hprofiles
  obtain rfl : canonical = profiles.map Prod.fst := Except.ok.inj (hidem.symm.trans hnames)
  obtain ⟨-, hnonempty, -, hnodup⟩ := canonicalMembers_eq_ok.mp hcanonical
  set count := min replicationFactor (profiles.map Prod.fst).length with hcount
  set ranked := sortedReverse (fun item => score version index item.1 item.2) profiles with hranked
  have hperm : ranked.Perm profiles := sortedReverse_perm _ _
  have hranks : (ranked.map Prod.fst).Nodup := (hperm.map Prod.fst).nodup_iff.mpr hnodup
  have hmembers : 0 < (profiles.map Prod.fst).length := List.length_pos_iff.mpr hnonempty
  have hcountPos : 0 < count := by omega
  have hcountLe : count ≤ ranked.length := by
    rw [hperm.length_eq, ← List.length_map (f := Prod.fst)]
    exact Nat.min_le_right _ _
  obtain ⟨hlength, hdistinct, hsub⟩ := selectOwners_spec count ranked hcountPos hranks hcountLe
  obtain ⟨hdomains, hhead⟩ := selectOwners_domains count ranked hcountPos hranks hcountLe
  refine ⟨selectOwners count ranked, ?_, hlength, hdistinct,
    fun owner howner => (hperm.map Prod.fst).subset (hsub owner howner), ?_, ?_⟩
  · have hnot : ¬ (replicationFactor : Int) < 1 := by omega
    simp only [shardOwners, hcanonical, bind, Except.bind, hnot, if_false, Int.toNat_natCast,
      hprofiles, pure, Except.pure]
    rfl
  · cases hfirst : ranked.head? with
    | none =>
      rw [List.head?_eq_none_iff] at hfirst
      rw [hfirst] at hcountLe
      exact absurd hcountLe (by simpa using hcountPos.ne')
    | some first =>
      obtain ⟨hmem, hbest⟩ := sortedReverse_head _ hfirst
      rw [hfirst] at hhead
      exact ⟨first, hmem, hhead, hbest⟩
  · have hsame : FirstOfEach.keys domainOf (chosen (selectOwners count ranked) profiles) =
        FirstOfEach.keys domainOf (chosen (selectOwners count ranked) ranked) := by
      apply FirstOfEach.keys_congr
      intro item
      simp only [chosen, List.mem_filter, hperm.mem_iff]
    have hall : FirstOfEach.keys domainOf ranked = FirstOfEach.keys domainOf profiles :=
      FirstOfEach.keys_congr fun item => hperm.mem_iff
    have hbound : (FirstOfEach.keys domainOf profiles).card ≤ (profiles.map Prod.fst).length := by
      rw [List.length_map, ← List.length_map (f := domainOf)]
      exact List.toFinset_card_le _
    rw [hsame, hdomains, hall]
    omega

end

/-- A member in a failure domain. -/
def placed (member failureDomain : Str) : Str × MemberProfile :=
  (member, { MemberProfile.default member with failureDomain })

/-- Two members in one rack and one in none. -/
def twoPlaces : List (Str × MemberProfile) :=
  [placed (str "a") (str "r1"), placed (str "b") (str "r1"), placed (str "c") []]

theorem shardOwners_diverse_two_places :
    letI := asciiLibrary
    ∃ owners, shardOwners (fun _ _ _ profile => profile.capacity) (str "v1") 0
        [str "a/", str "b", str "c"] 2 (profilesObject twoPlaces) = .ok owners ∧
      owners.length = 2 ∧ owners.Nodup ∧
      (FirstOfEach.keys domainOf (chosen owners twoPlaces)).card = 2 := by
  let _ := asciiLibrary
  have hcanonical : canonicalMembers [str "a/", str "b", str "c"] =
      .ok (twoPlaces.map Prod.fst) := by decide
  obtain ⟨owners, howners, hlength, hdistinct, -, -, hdomains⟩ := shardOwners_diverse
    (fun _ _ _ profile => profile.capacity) hcanonical
    (canonicalMemberProfiles_profilesObject (by decide)) 2 (by decide) (str "v1") 0
  exact ⟨owners, howners, hlength, hdistinct, hdomains.trans (by decide)⟩

end Litecast
