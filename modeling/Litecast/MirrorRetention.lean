import Litecast.VersionNumbers

/-! How long a mirrored version stays listed and on disk. -/

namespace Litecast.OriginServer

/-! ## The history of an origin -/

/-- The call writes the shard files of its version; a file always does. -/
def Call.mirrors (s : OriginServer) : Call → Bool
  | .buffer _ _ diskMirror => diskMirror.getD s.diskMirror
  | .file .. => true

/-- An origin, and what it has published: each version, and whether it was
mirrored. -/
structure History where
  origin : OriginServer
  published : List (Str × Bool) := []

def History.step [Library] (h : History) (c : Call) : History :=
  match c.run h.origin with
  | (.ok version, origin) =>
    { origin, published := h.published ++ [(version, c.mirrors h.origin)] }
  | (.error _, origin) => { h with origin }

/-- A mirrored version with fewer than `window` newer ones is listed, and its
shard files are on disk. -/
def Retained (window : Nat) (h : History) : Prop :=
  ∀ older version newer, h.published = older ++ (version, true) :: newer →
    newer.length < window →
      ∃ listing, h.origin.distribution.get? version = some listing ∧
        h.origin.OnDisk version listing

/-- The call publishes without a mirror, and the version has no room in RAM
beside it. -/
def PushesOut [Library] (s : OriginServer) (c : Call) (version : Str) : Prop :=
  ∃ data shardSize, c.inRam s = some (data, shardSize, false) ∧ 0 < shardSize ∧
    data.length ≤ s.store.capacity ∧ s.ManifestFits data shardSize ∧
    s.Evicts data.length version

/-- The call pushes out a mirrored version that is still to be retained. -/
def Withdraws [Library] (window : Nat) (h : History) (c : Call) : Prop :=
  ∃ older version newer, h.published = older ++ (version, true) :: newer ∧
    newer.length + 1 < window ∧ h.origin.PushesOut c version

/-! ## The names in a history -/

def History.publications (h : History) : Publications :=
  { origin := h.origin, returned := h.published.map Prod.fst }

/-- The versions are numbered upwards, and none but them is listed. -/
structure Chronicled (h : History) : Prop where
  numbered : Numbered h.publications
  listed : ∀ name ∈ h.origin.distribution.keys, name ∈ h.published.map Prod.fst

section
variable [Library]

theorem publications_step (h : History) (c : Call) :
    (h.step c).publications = h.publications.step (.call c {}) := by
  rw [History.step, Publications.step]
  simp only [History.publications, runWith_none]
  generalize c.run h.origin = outcome
  obtain ⟨result, origin⟩ := outcome
  cases result with
  | error e => rfl
  | ok version => simp only [List.map_append, List.map_singleton]

end

theorem Chronicled.orderly {h : History} (hh : Chronicled h) : h.origin.Orderly :=
  hh.numbered.orderly

theorem Chronicled.ascending {h : History} (hh : Chronicled h) :
    (h.published.map Prod.fst).Pairwise fun a b => versionKey a < versionKey b := by
  obtain ⟨numbers, hreturned, hincreasing, -⟩ := hh.numbered.increasing
  have hnames : h.published.map Prod.fst = numbers.map versionName := hreturned
  rw [hnames, List.pairwise_map]
  simp only [versionKey_versionName]
  exact hincreasing

/-- Behind a listed version stand only lines of newer ones, so it is pruned
only after `maxDistributionFolders` of them. -/
theorem Chronicled.not_prunes {h : History} (hh : Chronicled h) {older newer : List (Str × Bool)}
    {version : Str} {mirrored : Bool} (hpublished : h.published = older ++ (version, mirrored) :: newer)
    (hlength : newer.length + 1 < h.origin.maxDistributionFolders) : ¬ h.origin.Prunes version := by
  intro hpruned
  have hinOrder : InOrder h.origin.distribution := hh.orderly.inOrder
  have hascending := hh.ascending
  obtain ⟨before, after, hkeys⟩ := List.append_of_mem (List.mem_of_mem_take hpruned)
  have hkeysLength : h.origin.distribution.length = before.length + 1 + after.length := by
    have hsame := congrArg List.length hkeys
    rw [OrderedDict.keys, List.length_map, List.length_append, List.length_cons] at hsame
    rw [OrderedDict.length]
    omega
  rw [InOrder, hkeys, List.pairwise_append, List.pairwise_cons] at hinOrder
  obtain ⟨-, ⟨hafter, hordered⟩, hbefore⟩ := hinOrder
  -- the lines behind it are newer versions
  have hnewer : after.length ≤ (newer.map Prod.fst).length := by
    apply List.Subperm.length_le
    apply List.subperm_of_subset
    · exact hordered.imp fun hlt => by rintro rfl; exact Nat.lt_irrefl _ hlt
    · intro name hname
      have hthere := hh.listed name (by
        rw [hkeys]
        exact List.mem_append_right _ (List.mem_cons_of_mem _ hname))
      rw [hpublished, List.map_append, List.map_cons, List.pairwise_append] at hascending
      rw [hpublished, List.map_append, List.map_cons, List.mem_append, List.mem_cons] at hthere
      rcases hthere with hold | rfl | hnew
      · have hlt := hascending.2.2 name hold version List.mem_cons_self
        exact absurd (hafter name hname) (Nat.not_lt.mpr hlt.le)
      · exact absurd (hafter _ hname) (Nat.lt_irrefl _)
      · exact hnew
  rw [List.length_map] at hnewer
  -- so the lines that go all stand before it
  have htake : h.origin.distribution.length + 1 - h.origin.maxDistributionFolders ≤
      before.length := by
    omega
  rw [Prunes, hkeys, List.take_append_of_le_length htake] at hpruned
  exact Nat.lt_irrefl _ (hbefore version (List.mem_of_mem_take hpruned) version List.mem_cons_self)

/-! ## One call -/

section
variable [Library]

theorem run_of_inRam {s : OriginServer} {c : Call} {data : Bytes} {shardSize : Int} {mirror : Bool}
    (h : c.inRam s = some (data, shardSize, mirror)) :
    c.mirrors s = mirror ∧ ∃ diskMirror : Option Bool, diskMirror.getD s.diskMirror = mirror ∧
      c.run s = s.broadcastBuffer data shardSize diskMirror := by
  cases c with
  | buffer data' shardSize' diskMirror =>
    rw [Call.inRam] at h
    cases h
    exact ⟨rfl, diskMirror, rfl, rfl⟩
  | file data' shardSize' =>
    cases data' with
    | none => cases h
    | some data' =>
      rw [Call.inRam] at h
      split_ifs at h with hfits
      cases h
      refine ⟨rfl, some true, rfl, ?_⟩
      rw [Call.run, broadcast, if_pos hfits]

theorem pushesOut_iff {s : OriginServer} {c : Call} {data : Bytes} {shardSize : Int} {mirror : Bool}
    (through : c.inRam s = some (data, shardSize, mirror)) (name : Str) :
    s.PushesOut c name ↔ mirror = false ∧ 0 < shardSize ∧ data.length ≤ s.store.capacity ∧
      s.ManifestFits data shardSize ∧ s.Evicts data.length name := by
  rw [PushesOut, through]
  constructor
  · rintro ⟨data', shardSize', hsame, hrest⟩
    cases hsame
    exact ⟨rfl, hrest⟩
  · rintro ⟨rfl, hrest⟩
    exact ⟨data, shardSize, rfl, hrest⟩

/-- The shard files of a mirrored version are written, and its directory is not
removed in the same call. -/
theorem broadcastBuffer_onDisk {s t : OriginServer} (hs : s.Orderly) {buffer : Bytes}
    {shardSize : Int} {diskMirror : Option Bool} (hmirror : diskMirror.getD s.diskMirror = true)
    {version : Str} (h : s.broadcastBuffer buffer shardSize diskMirror = (.ok version, t)) :
    t.OnDisk s.nextVersion (bufferListing buffer shardSize) := by
  have hend := broadcastBufferWith_end hs.stocked {} buffer shardSize diskMirror
  rw [broadcastBufferWith_none, h, hmirror] at hend
  cases hend with
  | announced base directory _ _ _ _ inserted written files =>
    have horderly : base.Orderly := ⟨inserted.stored.ledger, inserted.stored.whole,
      inserted.lines ▸ hs.inOrder, inserted.folders ▸ hs.folders⟩
    have hlast : ∀ name ∈ base.distribution.keys, versionKey name < versionKey s.nextVersion := by
      rw [inserted.lines]
      exact fun name hname => Orderly.listed_older hname
    have hannounced := announce_announced horderly (bufferListing buffer shardSize) true hlast
      (inserted.spares_next hs.stocked)
    have hunpruned : ¬ base.Prunes s.nextVersion := fun hpruned =>
      Nat.lt_irrefl _ (hlast _ (List.mem_of_mem_take hpruned))
    have hkept := hannounced.directoryKept s.nextVersion hunpruned (by rintro ⟨hoff, -⟩; cases hoff)
    rw [announceWith_none]
    refine ⟨directory, hkept.trans written, fun index hindex => ?_⟩
    have hlt : index < shardCountOf buffer.length shardSize.toNat := by
      simp only [bufferListing] at hindex
      omega
    rw [OrderedDict.contains, files, if_pos ⟨rfl, hlt⟩]
    rfl

/-- A call raises and leaves the lines, or publishes the next version and takes
out those pruned or pushed out. -/
inductive HistoryCase (s : OriginServer) (c : Call) : Prop where
  | raised (e : Exc) (raised : (c.run s).1 = .error e)
      (lines : ∀ name, (s.call c).distribution.get? name = s.distribution.get? name)
      (directories : ∀ name ∈ s.distribution.keys,
        (s.call c).directories.get? name = s.directories.get? name)
      (spared : ∀ name, ¬ s.PushesOut c name)
  | published (evicts : Str → Prop) (returned : (c.run s).1 = .ok s.nextVersion)
      (rest : Broadcasted s (s.call c) s.nextVersion evicts fun name =>
        s.Prunes name ∨ s.PushesOut c name)
      (mirrored : c.mirrors s = true → ∃ listing,
        (s.call c).distribution.get? s.nextVersion = some listing ∧
          (s.call c).OnDisk s.nextVersion listing)

theorem history_case {s : OriginServer} (hs : s.Orderly) (c : Call) : HistoryCase s c := by
  have hne : ∀ name ∈ s.distribution.keys, name ≠ s.nextVersion := by
    rintro name hname rfl
    exact OrderedDict.get?_eq_none_iff.mp hs.stocked.fresh.2.1 hname
  cases call_case hs c with
  | ram data shardSize mirror through ends =>
    obtain ⟨hmirrors, diskMirror, hmirror, hrun⟩ := run_of_inRam through
    have honDisk : ∀ t, c.run s = (.ok s.nextVersion, t) → mirror = true →
        t.OnDisk s.nextVersion (bufferListing data shardSize) := by
      intro t ht hon
      rw [hrun] at ht
      exact broadcastBuffer_onDisk hs (hmirror.trans hon) ht
    have hpushes := pushesOut_iff through
    generalize hout : c.run s = outcome at ends honDisk
    have hcall : s.call c = outcome.2 := congrArg Prod.snd hout
    cases ends with
    | refused e bad =>
      refine .raised e (congrArg Prod.fst hout) (fun name => by rw [hcall])
        (fun name _ => by rw [hcall]) ?_
      intro name hname
      obtain ⟨-, hsize, hfits, -⟩ := (hpushes name).mp hname
      omega
    | halted e t _ _ large _ line rest =>
      refine .raised e (congrArg Prod.fst hout) ?_ ?_ ?_
      · intro name
        rw [hcall]
        by_cases hnext : name = s.nextVersion
        · rw [hnext, line, hs.stocked.fresh.2.1]
        · exact rest.lineKept name hnext not_false
      · intro name hname
        rw [hcall]
        exact rest.directoryKept name (hne name hname) not_false
      · intro name hname
        obtain ⟨-, -, -, hmanifest, -⟩ := (hpushes name).mp hname
        exact large hmanifest
    | published t size fits written _ line rest =>
      have hdrops : (fun name => s.Prunes name ∨ s.PushesOut c name) =
          fun name => s.Prunes name ∨ (mirror = false ∧ s.Evicts data.length name) := by
        funext name
        rw [hpushes name]
        apply propext
        apply or_congr_right
        constructor
        · exact fun h => ⟨h.1, h.2.2.2.2⟩
        · exact fun h => ⟨h.1, size, fits, written, h.2⟩
      refine .published _ (congrArg Prod.fst hout) (by rw [hdrops, hcall]; exact rest) ?_
      intro hon
      rw [hcall]
      exact ⟨_, line, honDisk t rfl (hmirrors ▸ hon)⟩
  | disk data shardSize given nonzero aside returned filed =>
    have hdrops : (fun name => s.Prunes name ∨ s.PushesOut c name) = s.Prunes := by
      funext name
      apply propext
      apply or_iff_left
      rintro ⟨_, _, hinRam, -⟩
      rw [aside] at hinRam
      cases hinRam
    refine .published s.Prunes returned (by rw [hdrops]; exact filed.rest) fun _ => ?_
    exact ⟨_, filed.line, filed.onDisk⟩
  | stopped aside raised _ _ lines directories =>
    obtain ⟨e, he⟩ := raised
    refine .raised e he (fun name => by rw [lines]) ?_ ?_
    · exact fun name hname => directories name (hne name hname)
    · rintro name ⟨_, _, hinRam, -⟩
      rw [aside] at hinRam
      cases hinRam

/-! ## The history after a call -/

theorem step_of_raised {h : History} {c : Call} {e : Exc}
    (hraised : (c.run h.origin).1 = .error e) :
    h.step c = { h with origin := h.origin.call c } := by
  rw [History.step, call]
  generalize c.run h.origin = outcome at hraised
  obtain ⟨result, t⟩ := outcome
  obtain rfl : result = .error e := hraised
  rfl

theorem step_of_published {h : History} {c : Call} {version : Str}
    (hreturned : (c.run h.origin).1 = .ok version) :
    h.step c = { origin := h.origin.call c
                 published := h.published ++ [(version, c.mirrors h.origin)] } := by
  rw [History.step, call]
  generalize c.run h.origin = outcome at hreturned
  obtain ⟨result, t⟩ := outcome
  obtain rfl : result = .ok version := hreturned
  rfl

theorem Chronicled.step {h : History} (hh : Chronicled h) (c : Call) : Chronicled (h.step c) := by
  refine ⟨publications_step h c ▸ hh.numbered.call c {}, ?_⟩
  intro name hname
  obtain ⟨listing, hline⟩ := OrderedDict.mem_keys_iff.mp hname
  cases history_case hh.orderly c with
  | raised e raised lines =>
    rw [step_of_raised raised] at hline ⊢
    rw [lines] at hline
    exact hh.listed name (OrderedDict.mem_keys_iff.mpr ⟨listing, hline⟩)
  | published evicts returned rest =>
    rw [step_of_published returned] at hline ⊢
    rw [List.map_append, List.mem_append]
    by_cases hnext : name = h.origin.nextVersion
    · exact Or.inr (List.mem_singleton.mpr hnext)
    · obtain ⟨-, hbefore⟩ := rest.line_before hnext hline
      exact Or.inl (hh.listed name (OrderedDict.mem_keys_iff.mpr ⟨listing, hbefore⟩))

theorem step_origin (h : History) (c : Call) : (h.step c).origin = h.origin.call c := by
  rw [History.step, call]
  generalize c.run h.origin = outcome
  obtain ⟨result, t⟩ := outcome
  cases result with
  | error e => rfl
  | ok version => rfl

omit [Library] in
/-- A version among those published before the last, or the last. -/
theorem published_append_cases {published older newer : List (Str × Bool)} {last entry : Str × Bool}
    (h : published ++ [last] = older ++ entry :: newer) :
    (newer = [] ∧ entry = last) ∨
      ∃ before, newer = before ++ [last] ∧ published = older ++ entry :: before := by
  rcases List.eq_nil_or_concat newer with rfl | ⟨before, final, rfl⟩
  · obtain ⟨-, hlast⟩ := List.append_inj' h rfl
    exact Or.inl ⟨rfl, (List.singleton_inj.mp hlast).symm⟩
  · rw [List.concat_eq_append, ← List.cons_append, ← List.append_assoc] at h
    obtain ⟨hpublished, hlast⟩ := List.append_inj' h rfl
    obtain rfl := List.singleton_inj.mp hlast
    exact Or.inr ⟨before, List.concat_eq_append, hpublished⟩

theorem retained_step {window : Nat} {h : History} (hh : Chronicled h)
    (hwindow : h.origin.maxDistributionFolders = window) (hretained : Retained window h) {c : Call}
    (hok : ¬ Withdraws window h c) : Retained window (h.step c) := by
  intro older version newer hpublished hlength
  cases history_case hh.orderly c with
  | raised e raised lines directories =>
    rw [step_of_raised raised] at hpublished ⊢
    obtain ⟨listing, hline, hdisk⟩ := hretained older version newer hpublished hlength
    have hlisted : version ∈ h.origin.distribution.keys :=
      OrderedDict.mem_keys_iff.mpr ⟨listing, hline⟩
    exact ⟨listing, (lines version).trans hline, hdisk.of_same (directories version hlisted)⟩
  | published evicts returned rest mirrored =>
    rw [step_of_published returned] at hpublished ⊢
    rcases published_append_cases hpublished with ⟨rfl, hlast⟩ | ⟨before, rfl, hbefore⟩
    · obtain ⟨rfl, hon⟩ := Prod.mk.inj hlast
      exact mirrored hon.symm
    · rw [List.length_append, List.length_singleton] at hlength
      obtain ⟨listing, hline, hdisk⟩ := hretained older version before hbefore (by omega)
      have hlisted : version ∈ h.origin.distribution.keys :=
        OrderedDict.mem_keys_iff.mpr ⟨listing, hline⟩
      have hne : version ≠ h.origin.nextVersion := by
        rintro rfl
        exact OrderedDict.get?_eq_none_iff.mp hh.orderly.stocked.fresh.2.1 hlisted
      have hkept : ¬ (h.origin.Prunes version ∨ h.origin.PushesOut c version) := by
        rintro (hpruned | hpushed)
        · exact hh.not_prunes hbefore (hwindow ▸ hlength) hpruned
        · exact hok ⟨older, version, before, hbefore, hlength, hpushed⟩
      exact ⟨listing, (rest.lineKept version hne hkept).trans hline,
        hdisk.of_same (rest.directoryKept version hne hkept)⟩

theorem withdrawing_breaks {window : Nat} {h : History} (hh : Chronicled h) {c : Call}
    (hwithdraws : Withdraws window h c) : ¬ Retained window (h.step c) := by
  obtain ⟨older, version, newer, hpublished, hlength, hpushed⟩ := hwithdraws
  intro hretained
  cases history_case hh.orderly c with
  | raised e raised lines directories spared => exact spared version hpushed
  | published evicts returned rest =>
    rw [step_of_published returned] at hretained
    obtain ⟨listing, hline, -⟩ := hretained older version
      (newer ++ [(h.origin.nextVersion, c.mirrors h.origin)])
      (by rw [hpublished, List.append_assoc, List.cons_append])
      (by rw [List.length_append, List.length_singleton]; exact hlength)
    have hne : version ≠ h.origin.nextVersion := by
      rintro rfl
      obtain ⟨_, _, -, -, -, -, hheld, -⟩ := hpushed
      rw [OrderedDict.contains, hh.orderly.stocked.fresh.1] at hheld
      cases hheld
    rw [rest.lineGone version hne (Or.inr hpushed)] at hline
    cases hline

/-- **A mirrored version is retained unless it is withdrawn.** In a run of
broadcasts with any mixture of mirrors, each mirrored version is listed and has
its shard files on disk until `maxDistributionFolders` newer ones are published
exactly when no call without a mirror pushes such a version out of RAM. -/
theorem retained_iff_never_withdrawn (ramCacheBytes maxDistributionFolders : Nat) (mirrors : Bool)
    (calls : List Call) :
    Runs.Always History.step (Retained maxDistributionFolders)
        { origin := new maxDistributionFolders mirrors ramCacheBytes } calls ↔
      Runs.EveryStep History.step (fun h c => ¬ Withdraws maxDistributionFolders h c)
        { origin := new maxDistributionFolders mirrors ramCacheBytes } calls := by
  have hlegal : ∀ c ∈ calls, (fun _ : Call => True) c := fun _ _ => trivial
  rcases Nat.eq_zero_or_pos maxDistributionFolders with rfl | hfolders
  · -- no version is to be retained
    refine Runs.always_iff_everyStep (fun _ => True) ?_ ?_ ?_ trivial hlegal
    · exact fun _ _ _ _ _ => trivial
    · intro h _ older version newer _ hlength
      exact absurd hlength (Nat.not_lt_zero _)
    · intro h c _ _ hnot
      obtain ⟨_, _, newer, -, hlength, -⟩ := Classical.not_not.mp hnot
      exact absurd hlength (Nat.not_lt_zero _)
  refine Runs.always_iff_everyStep (fun h => Chronicled h ∧
    h.origin.maxDistributionFolders = maxDistributionFolders ∧ Retained maxDistributionFolders h)
    ?_ ?_ ?_ ⟨⟨?_, ?_⟩, rfl, ?_⟩ hlegal
  · rintro h c ⟨hchronicled, hwindow, hretained⟩ - hok
    refine ⟨hchronicled.step c, ?_, retained_step hchronicled hwindow hretained hok⟩
    rw [step_origin, call_folders hchronicled.orderly, hwindow]
  · exact fun h hh => hh.2.2
  · exact fun h c hh _ hnot => withdrawing_breaks hh.1 (Classical.not_not.mp hnot)
  · exact ⟨orderly_new hfolders _ _, [], rfl, List.Pairwise.nil, by simp⟩
  · intro name hname
    cases hname
  · rintro older version newer hpublished -
    exact absurd hpublished (by simp)

end

/-- With room for one byte, a second version without a mirror takes the first
off the disk. -/
theorem unmirrored_call_withdraws :
    letI := asciiLibrary
    ¬ ∀ (ramCacheBytes maxDistributionFolders : Nat) (mirrors : Bool) (calls : List Call),
      Runs.Always History.step (Retained maxDistributionFolders)
        { origin := new maxDistributionFolders mirrors ramCacheBytes } calls := by
  intro claim
  let _ := asciiLibrary
  let calls : List Call := [.buffer [97] 1 (some true), .buffer [98] 1 (some false)]
  let h := calls.foldl History.step { origin := new 5 true 1 }
  obtain ⟨hpublished, hline⟩ : h.published = [(str "v1", true), (str "v2", false)] ∧
      h.origin.distribution.get? (str "v1") = none := by
    decide +kernel
  have hretained : Retained 5 h := Runs.always_foldl (claim 1 5 true calls)
  obtain ⟨listing, hlisted, -⟩ := hretained [] (str "v1") [(str "v2", false)] hpublished (by decide)
  rw [hline] at hlisted
  cases hlisted

end Litecast.OriginServer
