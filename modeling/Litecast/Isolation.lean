import Litecast.Lib.Runs
import Litecast.MonitorSteps

/-! One version of a listing against the others: what becomes of a pass when
some cannot be obtained. -/

namespace Litecast.Monitor

/-! ## The end of a pass -/

/-- The directories that go are there, each found once. -/
def Removable (distribution : Lines) (directories : OrderedDict Str VersionDirectory) : Prop :=
  let old := ((directories.keys.filter (versionPrefix.isPrefixOf ·)).map stem).filter fun name =>
    !distribution.contains name
  old.Nodup ∧ ∀ name ∈ old, directories.contains name = true

theorem removeDirectories_eq_ok_iff (distribution : Lines) (found : List Str)
    (directories : OrderedDict Str VersionDirectory) :
    (removeDirectories distribution found directories).1 = .ok () ↔
      ((found.map stem).filter fun name => !distribution.contains name).Nodup ∧
        ∀ name ∈ (found.map stem).filter fun name => !distribution.contains name,
          directories.contains name = true := by
  induction found generalizing directories with
  | nil => simp [removeDirectories]
  | cons first rest ih =>
    rw [removeDirectories, List.map_cons]
    by_cases hlisted : distribution.contains (stem first) = true
    · rw [if_pos hlisted, ih, List.filter_cons_of_neg (by simpa using hlisted)]
    rw [if_neg hlisted, List.filter_cons_of_pos (by simpa using hlisted)]
    by_cases hthere : directories.contains (stem first) = true
    · have herased : ∀ name, (directories.erase (stem first)).contains name = true ↔
          name ≠ stem first ∧ directories.contains name = true := by
        intro name
        rw [OrderedDict.contains, OrderedDict.get?_erase]
        by_cases hname : name = stem first
        · simp [hname]
        · simp [hname, OrderedDict.contains]
      rw [if_pos hthere, ih, List.nodup_cons]
      simp only [herased, List.mem_cons, forall_eq_or_imp]
      constructor
      · rintro ⟨hnodup, hall⟩
        exact ⟨⟨fun hmem => (hall _ hmem).1 rfl, hnodup⟩, hthere, fun name h => (hall name h).2⟩
      · rintro ⟨⟨hnotin, hnodup⟩, -, hall⟩
        refine ⟨hnodup, fun name h => ⟨?_, hall name h⟩⟩
        rintro rfl
        exact hnotin h
    · rw [if_neg hthere]
      refine iff_of_false (by simp) ?_
      rintro ⟨-, hall⟩
      exact hthere (hall _ List.mem_cons_self)

/-- Nothing under a listed name is removed. -/
theorem get?_removeDirectories {distribution : Lines} (found : List Str)
    (directories : OrderedDict Str VersionDirectory) {name : Str}
    (hlisted : distribution.contains name = true) :
    (removeDirectories distribution found directories).2.get? name = directories.get? name := by
  induction found generalizing directories with
  | nil => rfl
  | cons first rest ih =>
    rw [removeDirectories]
    split_ifs with hfirst hthere
    · exact ih directories
    · rw [ih, OrderedDict.get?_erase, if_neg]
      rintro rfl
      exact hfirst hlisted
    · rfl

theorem removeDirectories_fewer (distribution : Lines) (found : List Str)
    {directories : OrderedDict Str VersionDirectory} {name : Str}
    (h : directories.get? name = none) :
    (removeDirectories distribution found directories).2.get? name = none := by
  induction found generalizing directories with
  | nil => exact h
  | cons first rest ih =>
    rw [removeDirectories]
    split_ifs with hfirst hthere
    · exact ih h
    · apply ih
      rw [OrderedDict.get?_erase, h, ite_self]
    · exact h

/-- What was found and is not listed is gone in the end. -/
theorem removeDirectories_removed {distribution : Lines} {found : List Str}
    {directories : OrderedDict Str VersionDirectory}
    (hok : (removeDirectories distribution found directories).1 = .ok ()) {name : Str}
    (hfound : name ∈ found.map stem) (hunlisted : distribution.contains name = false) :
    (removeDirectories distribution found directories).2.get? name = none := by
  induction found generalizing directories with
  | nil => cases hfound
  | cons first rest ih =>
    rw [removeDirectories] at hok ⊢
    rw [List.map_cons, List.mem_cons] at hfound
    split_ifs at hok ⊢ with hfirst hthere
    · refine ih hok (hfound.resolve_left ?_)
      rintro rfl
      rw [hunlisted] at hfirst
      cases hfirst
    · rcases hfound with rfl | hrest
      · apply removeDirectories_fewer
        rw [OrderedDict.get?_erase, if_pos rfl]
      · exact ih hok hrest

theorem removes_spec (names : List Str) (store : CheckpointStore) :
    (∀ name, (names.foldl (fun store name => (CheckpointStore.remove store name).2) store).versions.get?
        name = if name ∈ names then none else store.versions.get? name) ∧
      (store.Ledger →
        (names.foldl (fun store name => (CheckpointStore.remove store name).2) store).Ledger) ∧
      (names.foldl (fun store name => (CheckpointStore.remove store name).2) store).capacity =
        store.capacity := by
  induction names generalizing store with
  | nil => simp
  | cons first rest ih =>
    obtain ⟨hget, hledger, hcapacity⟩ := ih (store.remove first).2
    refine ⟨?_, fun h => hledger (h.remove first), hcapacity.trans (store.remove_capacity first)⟩
    intro name
    rw [List.foldl_cons, hget, CheckpointStore.get?_remove]
    by_cases hrest : name ∈ rest
    · simp [hrest]
    · by_cases hfirst : name = first
      · simp [hfirst]
      · simp [hrest, hfirst]

/-- Only listed versions and what they had is left. -/
structure Finished (s t : Middle) (distribution : Lines) : Prop where
  sound : Sound t
  lines : t.lines = s.lines
  processed : ∀ name, name ∈ t.processedVersions ↔
    name ∈ s.processedVersions ∧ distribution.contains name = true
  store : ∀ name, distribution.contains name = true →
    t.store.versions.get? name = s.store.versions.get? name
  gone : ∀ name, t.store.versions.contains name = true → distribution.contains name = true
  directories : ∀ name, distribution.contains name = true →
    t.directories.get? name = s.directories.get? name
  removed : ∀ name, versionPrefix.isPrefixOf name = true → stem name = name →
    distribution.contains name = false → t.directories.contains name = false

theorem Sound.names {s : Middle} (hs : Sound s) {name : Str} {v : StoredVersion}
    (hv : s.store.versions.get? name = some v) :
    name ∈ s.store.listVersions.map VersionMetadata.name := by
  rw [CheckpointStore.listVersions, OrderedDict.values, List.map_map, List.map_map]
  exact List.mem_map.mpr ⟨(name, v), OrderedDict.get?_eq_some_iff.mp hv, (hs.kept name v hv).named⟩

theorem removeOld_finished {s : Middle} (hs : Sound s) {distribution : Lines}
    (h : Removable distribution s.directories) :
    (s.removeOld distribution).1 = .ok () ∧
      Finished s (s.removeOld distribution).2 distribution := by
  have hremoved := (removeDirectories_eq_ok_iff distribution
    (s.directories.keys.filter (versionPrefix.isPrefixOf ·)) s.directories).mpr h
  have hlisted : ∀ name, distribution.contains name = true → (removeDirectories distribution
      (s.directories.keys.filter (versionPrefix.isPrefixOf ·)) s.directories).2.get? name =
        s.directories.get? name :=
    fun _ => get?_removeDirectories _ _
  have hunlisted : ∀ name, versionPrefix.isPrefixOf name = true → stem name = name →
      distribution.contains name = false → (removeDirectories distribution
        (s.directories.keys.filter (versionPrefix.isPrefixOf ·)) s.directories).2.contains name =
          false := by
    intro name hversion hstem hin
    rw [OrderedDict.contains, Option.isSome_eq_false_iff, Option.isNone_iff_eq_none]
    cases hthere : s.directories.get? name with
    | none => exact removeDirectories_fewer distribution _ hthere
    | some directory =>
      refine removeDirectories_removed hremoved (List.mem_map.mpr ⟨name, ?_, hstem⟩) hin
      exact List.mem_filter.mpr ⟨OrderedDict.mem_keys_iff.mpr ⟨directory, hthere⟩, hversion⟩
  rw [Middle.removeOld]
  generalize removeDirectories distribution
    (s.directories.keys.filter (versionPrefix.isPrefixOf ·)) s.directories = outcome
      at hremoved hlisted hunlisted ⊢
  obtain ⟨result, directories⟩ := outcome
  obtain rfl : result = .ok () := hremoved
  obtain ⟨hget, hledger, -⟩ := removes_spec ((s.store.listVersions.map VersionMetadata.name).filter
    fun name => !distribution.contains name) s.store
  have hgone : ∀ name v, ((((s.store.listVersions.map VersionMetadata.name).filter
      fun name => !distribution.contains name).foldl
        (fun store name => (CheckpointStore.remove store name).2) s.store).versions.get? name =
          some v) → s.store.versions.get? name = some v ∧ distribution.contains name = true := by
    intro name v hv
    rw [hget] at hv
    split_ifs at hv with hold
    refine ⟨hv, ?_⟩
    by_contra hunlisted
    exact hold (List.mem_filter.mpr ⟨hs.names hv, by simpa using hunlisted⟩)
  refine ⟨rfl, ⟨hledger hs.ledger, ?_⟩, rfl, ?_, ?_, ?_, hlisted, hunlisted⟩
  · intro name v hv
    obtain ⟨hbefore, hin⟩ := hgone name v hv
    have hkept := hs.kept name v hbefore
    exact ⟨hkept.named, fun hwhole => List.mem_filter.mpr ⟨hkept.whole hwhole, hin⟩,
      hkept.digested, hkept.sized⟩
  · exact fun name => List.mem_filter
  · intro name hin
    simp only [hget, List.mem_filter, hin, Bool.not_true, Bool.false_eq_true, and_false, if_false]
  · intro name hthere
    obtain ⟨v, hv⟩ := Option.isSome_iff_exists.mp hthere
    exact (hgone name v hv).2

theorem removeOld_raises {s : Middle} (hs : Sound s) {distribution : Lines}
    (h : ¬ Removable distribution s.directories) :
    (∃ e, (s.removeOld distribution).1 = .error e) ∧ Sound (s.removeOld distribution).2 := by
  have hraised := mt (removeDirectories_eq_ok_iff distribution
    (s.directories.keys.filter (versionPrefix.isPrefixOf ·)) s.directories).mp h
  rw [Middle.removeOld]
  generalize removeDirectories distribution
    (s.directories.keys.filter (versionPrefix.isPrefixOf ·)) s.directories = outcome at hraised ⊢
  obtain ⟨result, directories⟩ := outcome
  cases result with
  | ok => exact absurd rfl hraised
  | error e => exact ⟨⟨e, rfl⟩, hs.ledger, hs.kept⟩

/-- UCXX takes the names of all versions held. -/
def Announceable (config : Config) (s : Middle) : Prop :=
  config.ucxxServer = true →
    ∀ name, s.store.versions.contains name = true → Ucxx.validateVersion name = .ok ()

/-- Announcing changes nothing else, and stops at a name UCXX does not take. -/
theorem notifyAll_spec (config : Config) (names : List Str) (s : Middle) :
    (∃ availableVersions, (s.notifyAll config names).2 = { s with availableVersions }) ∧
      ((s.notifyAll config names).1 = .ok () ↔
        (config.ucxxServer = true → ∀ name ∈ names, Ucxx.validateVersion name = .ok ())) := by
  induction names generalizing s with
  | nil => exact ⟨⟨s.availableVersions, rfl⟩, iff_of_true rfl fun _ _ h => nomatch h⟩
  | cons name rest ih =>
    have hnotified := notify_case config s name
    rw [Middle.notifyAll]
    generalize s.notifyVersionAvailable config name = outcome at hnotified ⊢
    cases hnotified with
    | refused e listener invalid =>
      refine ⟨⟨s.availableVersions, rfl⟩, iff_of_false (fun h => nomatch h) fun h => ?_⟩
      have hvalid := h listener name List.mem_cons_self
      rw [invalid] at hvalid
      cases hvalid
    | announced availableVersions valid =>
      obtain ⟨⟨more, hmore⟩, hok⟩ := ih { s with availableVersions }
      refine ⟨⟨more, hmore⟩, hok.trans ?_⟩
      simp only [List.mem_cons, forall_eq_or_imp]
      exact ⟨fun h listener => ⟨valid listener, h listener⟩, fun h listener => (h listener).2⟩

theorem notifyAll_of_none {config : Config} (h : config.ucxxServer = false) (names : List Str)
    (s : Middle) : s.notifyAll config names = (.ok (), s) := by
  induction names with
  | nil => rfl
  | cons name rest ih =>
    have hlistener : ¬ config.ucxxServer = true := by simp [h]
    rw [Middle.notifyAll, Middle.notifyVersionAvailable, if_neg hlistener]
    exact ih

theorem Sound.mem_names_iff {s : Middle} (hs : Sound s) {name : Str} :
    name ∈ s.store.listVersions.map VersionMetadata.name ↔
      s.store.versions.contains name = true := by
  constructor
  · intro h
    rw [CheckpointStore.listVersions, OrderedDict.values, List.map_map, List.map_map] at h
    obtain ⟨⟨key, v⟩, hentry, rfl⟩ := List.mem_map.mp h
    have hv := OrderedDict.get?_eq_some_iff.mpr hentry
    have hnamed : v.metadata.name = key := (hs.kept key v hv).named
    simp only [Function.comp_apply, hnamed, OrderedDict.contains, hv, Option.isSome_some]
  · intro h
    obtain ⟨v, hv⟩ := Option.isSome_iff_exists.mp h
    exact hs.names hv

/-- The local file has the listed versions that can be discovered. -/
theorem get?_rewrite (s : Middle) (distribution : Lines) (version info : Str) :
    (s.rewrite distribution).lines.get? version = some info ↔
      distribution.get? version = some info ∧ s.discoverable version = true := by
  rw [Middle.rewrite]
  by_cases hdropped : version ∈ distribution.keys.filter fun version => !s.discoverable version
  · have hhidden := (List.mem_filter.mp hdropped).2
    rw [OrderedDict.get?_foldl_erase_of_mem hdropped]
    refine iff_of_false (fun h => nomatch h) ?_
    rintro ⟨-, hfound⟩
    rw [hfound] at hhidden
    cases hhidden
  · rw [OrderedDict.get?_foldl_erase_of_not_mem hdropped]
    refine ⟨fun h => ⟨h, ?_⟩, And.left⟩
    by_contra hhidden
    exact hdropped (List.mem_filter.mpr
      ⟨OrderedDict.mem_keys_iff.mpr ⟨info, h⟩, by simpa using hhidden⟩)

/-! ## A version at its turn -/

section
variable [Library] {S : Type} [LinearOrder S]

/-- A payload is stored as the listed version. -/
def Storable (capacity : Nat) (version checksum : Str) (expectedCount : Nat) (data : Bytes) : Prop :=
  version ≠ [] ∧ data.length ≤ capacity ∧ lower checksum = hexdigest data ∧
    shardCountOf data.length (inferredShardSize data.length expectedCount) = expectedCount

omit [Library] in
theorem inferredShardSize_pos (size expectedCount : Nat) :
    0 < inferredShardSize size expectedCount := by
  rw [inferredShardSize]
  split_ifs
  · exact Nat.one_pos
  · exact Nat.lt_of_lt_of_le Nat.one_pos (Nat.le_max_left _ _)

theorem buffer_processed_iff {s : Middle} {version : Str} (hnew : version ∉ s.processedVersions)
    (config : Config) (checksum : Str) (expectedCount : Nat) (data : Bytes) :
    version ∈ (processBuffer config s version checksum expectedCount data).2.processedVersions ↔
      Storable s.store.capacity version checksum expectedCount data := by
  have hends := put_case s.store version data (inferredShardSize data.length expectedCount) checksum
  have hpos := inferredShardSize_pos data.length expectedCount
  rw [processBuffer]
  generalize s.store.put version data (inferredShardSize data.length expectedCount) (some checksum) =
    outcome at hends ⊢
  cases hends with
  | refused e _ why =>
    refine iff_of_false hnew ?_
    rintro ⟨hname, hfits, hdigest, -⟩
    rcases why with hnil | hnonpos | hlarge | hother
    · exact hname hnil
    · omega
    · omega
    · exact hother hdigest
  | stored metadata size given fits named named_ne total count digest =>
    subst named
    have hshardSize : metadata.shardSize = inferredShardSize data.length expectedCount := by omega
    have hstorable : Storable s.store.capacity metadata.name checksum expectedCount data ↔
        metadata.shardCount = expectedCount := by
      rw [count, total, hshardSize]
      exact ⟨fun h => h.2.2.2, fun h => ⟨named_ne, fits, digest, h⟩⟩
    rw [hstorable]
    simp only
    by_cases hcount : metadata.shardCount = expectedCount
    · rw [if_neg (not_not.mpr hcount)]
      refine iff_of_true ?_ hcount
      by_cases hmirror : config.diskMirror = true
      · obtain ⟨files, hfiles, -⟩ := mirror_total
          (CheckpointStore.get?_storeComplete s.store metadata data []) rfl
          total ((s.directories.get? metadata.name).getD {}).shards
        rw [if_pos hmirror]
        simp only [hfiles]
        exact List.mem_insert_self
      · rw [if_neg hmirror]
        exact List.mem_insert_self
    · rw [if_pos hcount]
      exact iff_of_false hnew hcount

variable (score : Str → Nat → Str → MemberProfile → S) (config : Config) (answers : Str → Answers)

/-- What becomes of a middle when a listed version is processed, whatever that
raises. -/
def advance (s : Middle) (listed : Str × Str) : Middle :=
  (processVersion score config s listed.1 listed.2 (answers listed.1)).2

variable {score config answers}

/-- What a middle obtains in one state it obtains in any later one in which
processing the version does not raise. -/
theorem processed_at_turn {s t : Middle} (ht : Sound t)
    (hmore : ∀ name ∈ s.processedVersions, name ∈ t.processedVersions)
    (hcapacity : t.store.capacity = s.store.capacity) {listed : Str × Str}
    (hquiet : ¬ Raises score config t listed.1 listed.2 (answers listed.1))
    (h : listed.1 ∈ (advance score config answers s listed).processedVersions) :
    listed.1 ∈ (advance score config answers t listed).processedVersions := by
  obtain ⟨version, info⟩ := listed
  obtain ⟨hadvanced, hok⟩ :=
    version_spec score ht config version info (answers version)
  by_cases hold : version ∈ t.processedVersions
  · exact hadvanced.processed version hold
  have hnew : version ∉ s.processedVersions := fun hs => hold (hmore version hs)
  have hplan : plan config s version info (answers version) =
      plan config t version info (answers version) := by
    rw [plan, plan, if_neg hnew, if_neg hold]
  have hdone := hok.mpr hquiet
  simp only [advance, processVersion, hplan] at h hdone ⊢
  cases hplanned : plan config t version info (answers version) with
  | error e => exact absurd (.planning e hplanned) hquiet
  | ok planned =>
    simp only [hplanned] at h hdone ⊢
    cases planned with
    | skip => exact absurd h hnew
    | stream node manifest payload =>
      obtain ⟨rfl, -, hm⟩ := plan_stream hplanned
      exact (streaming_spec score ht hm hold config node payload _).2.2 hdone
    | whole checksum expectedCount =>
      simp only [processWhole] at h ⊢
      cases hwhole : (answers version).whole with
      | error e => exact absurd (.client checksum expectedCount e hplanned hwhole) hquiet
      | ok data =>
        simp only [hwhole] at h ⊢
        cases data with
        | some data =>
          rw [buffer_processed_iff hnew, ← hcapacity] at h
          exact (buffer_processed_iff hold config checksum expectedCount data).mpr h
        | none =>
          by_cases hmirror : config.diskMirror = true
          · simp only [if_pos hmirror, processFiles] at h ⊢
            split_ifs at h ⊢
            · exact List.mem_insert_self
            · exact absurd h hnew
          · simp only [if_neg hmirror] at h
            exact absurd h hnew

/-! ## The versions of a listing -/

/-- From `s` to `t` some versions were processed, in a sound middle. -/
structure Progress (s t : Middle) : Prop where
  sound : Sound t
  processed : ∀ name ∈ s.processedVersions, name ∈ t.processedVersions
  capacity : t.store.capacity = s.store.capacity

omit [Library] in
theorem Progress.trans {r s t : Middle} (h : Progress r s) (h' : Progress s t) : Progress r t :=
  ⟨h'.sound, fun name hname => h'.processed name (h.processed name hname),
    h'.capacity.trans h.capacity⟩

variable (score config answers)

theorem advance_progress {s : Middle} (hs : Sound s) (listed : Str × Str) :
    Progress s (advance score config answers s listed) := by
  obtain ⟨hadvanced, -⟩ :=
    version_spec score hs config listed.1 listed.2 (answers listed.1)
  exact ⟨hadvanced.sound, hadvanced.processed, hadvanced.capacity⟩

theorem foldl_progress {s : Middle} (hs : Sound s) (entries : List (Str × Str)) :
    Progress s (entries.foldl (advance score config answers) s) := by
  have hstart : Progress s s := ⟨hs, fun _ h => h, rfl⟩
  refine Runs.foldl_keeps (fun t listed ht => ?_) hstart entries
  exact ht.trans (advance_progress score config answers ht.sound listed)

/-- The versions are gone through to the last exactly when none raises. -/
theorem processVersions_spec {s : Middle} (hs : Sound s) (entries : List (Str × Str)) :
    ((processVersions score config answers entries s).1 = .ok () ↔
        Runs.EveryStep (advance score config answers)
          (fun s listed => ¬ Raises score config s listed.1 listed.2 (answers listed.1)) s entries) ∧
      Sound (processVersions score config answers entries s).2 ∧
      ((processVersions score config answers entries s).1 = .ok () →
        (processVersions score config answers entries s).2 =
          entries.foldl (advance score config answers) s) := by
  induction entries generalizing s with
  | nil => exact ⟨iff_of_true rfl trivial, hs, fun _ => rfl⟩
  | cons listed rest ih =>
    obtain ⟨version, info⟩ := listed
    have hprogress := advance_progress score config answers hs (version, info)
    obtain ⟨-, hok⟩ := version_spec score hs config version info (answers version)
    have hrest := ih hprogress.sound
    rw [advance] at hprogress
    rw [processVersions, Runs.EveryStep, List.foldl_cons]
    simp only [advance] at hrest ⊢
    rw [← hok]
    generalize processVersion score config s version info (answers version) =
      outcome at hprogress hrest ⊢
    obtain ⟨result, t⟩ := outcome
    cases result with
    | error e =>
      have hraised : ¬ (.error e : Except Exc Unit) = .ok () := by
        rintro ⟨⟩
      exact ⟨iff_of_false hraised fun h => hraised h.1, hprogress.sound, fun h => absurd h hraised⟩
    | ok => exact ⟨hrest.1.trans (and_iff_right rfl).symm, hrest.2⟩

/-! ## Passes -/

/-- What a pass meets: the listing of the upstream and what the others answer. -/
structure Pass where
  payload : Option Bytes
  answers : Str → Answers := fun _ => {}

def runPass (s : Middle) (pass : Pass) : Middle :=
  (monitorUpstream score config s pass.payload pass.answers).2

/-- A middle that comes up beside an old distribution file and directories. -/
def started (capacity : Nat) (lines : Lines) (directories : OrderedDict Str VersionDirectory) :
    Middle :=
  { store := .new capacity, lines, directories }

omit [Library] in
theorem started_sound (capacity : Nat) (lines : Lines)
    (directories : OrderedDict Str VersionDirectory) : Sound (started capacity lines directories) :=
  ⟨CheckpointStore.ledger_new capacity, fun _ _ h => nomatch h⟩

/-- How far a pass over a listing comes. -/
inductive FollowCase (score : Str → Nat → Str → MemberProfile → S) (config : Config)
    (answers : Str → Answers) (distribution : Lines) (s : Middle) :
    Except Exc Unit × Middle → Prop where
  | processing (e : Exc) (t : Middle)
      (processed : processVersions score config answers distribution.entries s = (.error e, t)) :
      FollowCase score config answers distribution s (.error e, t)
  | announcing (e : Exc) (t : Middle) (availableVersions : List Str)
      (processed : processVersions score config answers distribution.entries s = (.ok (), t)) :
      FollowCase score config answers distribution s
        (.error e, { t.rewrite distribution with availableVersions })
  | removing (t : Middle) (availableVersions : List Str)
      (processed : processVersions score config answers distribution.entries s = (.ok (), t)) :
      FollowCase score config answers distribution s
        ({ t.rewrite distribution with availableVersions }.removeOld distribution)

theorem follow_case (s : Middle) (distribution : Lines) (answers : Str → Answers) :
    FollowCase score config answers distribution s (follow score config s distribution answers) := by
  rw [follow]
  cases hprocessed : processVersions score config answers distribution.entries s with
  | mk result t =>
    cases result with
    | error e => exact .processing e t hprocessed
    | ok =>
      obtain ⟨⟨available, hannounced⟩, -⟩ := notifyAll_spec config
        (t.store.listVersions.map VersionMetadata.name) (t.rewrite distribution)
      simp only
      generalize (t.rewrite distribution).notifyAll config _ = outcome at hannounced ⊢
      obtain ⟨result, u⟩ := outcome
      obtain rfl : u = { t.rewrite distribution with availableVersions := available } := hannounced
      cases result with
      | error e => exact .announcing e t available hprocessed
      | ok => exact .removing t available hprocessed

/-- A pass over a listing goes to its end exactly when no version raises, UCXX
takes the names of all that are held then and every directory that goes is there. -/
theorem follow_spec {s : Middle} (hs : Sound s) (distribution : Lines) (answers : Str → Answers) :
    ((follow score config s distribution answers).1 = .ok () ↔
        Runs.EveryStep (advance score config answers)
            (fun s listed => ¬ Raises score config s listed.1 listed.2 (answers listed.1)) s
            distribution.entries ∧
          Announceable config (distribution.entries.foldl (advance score config answers) s) ∧
          Removable distribution
            (distribution.entries.foldl (advance score config answers) s).directories) ∧
      Sound (follow score config s distribution answers).2 ∧
      ((follow score config s distribution answers).1 = .ok () →
        Finished ((distribution.entries.foldl (advance score config answers) s).rewrite distribution)
          (follow score config s distribution answers).2 distribution) := by
  have hraised (e : Exc) : ¬ (.error e : Except Exc Unit) = .ok () := by
    rintro ⟨⟩
  obtain ⟨hok, hsound, hfolded⟩ := processVersions_spec score config answers hs
    distribution.entries
  rw [follow, ← hok]
  generalize processVersions score config answers distribution.entries s = outcome at *
  obtain ⟨result, t⟩ := outcome
  cases result with
  | error e =>
    exact ⟨iff_of_false (hraised e) fun h => hraised e h.1, hsound, fun h => absurd h (hraised e)⟩
  | ok =>
    obtain rfl := hfolded rfl
    generalize distribution.entries.foldl (advance score config answers) s = t at *
    obtain ⟨⟨available, hannounced⟩, hnotified⟩ := notifyAll_spec config
      (t.store.listVersions.map VersionMetadata.name) (t.rewrite distribution)
    simp only [hsound.mem_names_iff] at hnotified
    rw [← Announceable] at hnotified
    simp only [true_and, ← hnotified]
    generalize (t.rewrite distribution).notifyAll config _ = outcome at hannounced ⊢
    obtain ⟨result, u⟩ := outcome
    obtain rfl : u = { t.rewrite distribution with availableVersions := available } := hannounced
    have hrewritten : Sound { t.rewrite distribution with availableVersions := available } :=
      ⟨hsound.ledger, hsound.kept⟩
    cases result with
    | error e =>
      exact ⟨iff_of_false (hraised e) fun h => hraised e h.1, hrewritten,
        fun h => absurd h (hraised e)⟩
    | ok =>
      simp only [true_and]
      by_cases hremovable : Removable distribution t.directories
      · obtain ⟨hresult, hfinished⟩ := removeOld_finished hrewritten hremovable
        refine ⟨iff_of_true hresult hremovable, hfinished.sound, fun _ => ?_⟩
        exact ⟨hfinished.sound, hfinished.lines, hfinished.processed, hfinished.store,
          hfinished.gone, hfinished.directories, hfinished.removed⟩
      · obtain ⟨⟨e, hresult⟩, hafter⟩ := removeOld_raises hrewritten hremovable
        rw [hresult]
        exact ⟨iff_of_false (hraised e) hremovable, hafter, fun h => absurd h (hraised e)⟩

theorem runPass_sound {s : Middle} (hs : Sound s) (pass : Pass) :
    Sound (runPass score config s pass) := by
  unfold runPass monitorUpstream
  split
  · exact hs
  split
  · exact hs
  split_ifs
  · exact hs
  · next payload _ content _ _ =>
    obtain ⟨-, hsound, -⟩ := follow_spec score config hs
      (parseListing content) pass.answers
    generalize follow score config s (parseListing content) pass.answers = outcome at hsound ⊢
    obtain ⟨result, t⟩ := outcome
    cases result <;> exact hsound

/-- A middle after the passes so far. -/
theorem passes_sound (capacity : Nat) (lines : Lines)
    (directories : OrderedDict Str VersionDirectory) (earlier : List Pass) :
    Sound (earlier.foldl (runPass score config) (started capacity lines directories)) :=
  Runs.foldl_keeps (I := Sound) (fun _ pass hs => runPass_sound score config hs pass)
    (started_sound capacity lines directories) earlier

/-! ## One version against the others -/

/-- A pass that begins with `s` and ends with `outcome` came to the end of
`listing`, and no version in it kept another from being obtained that could be,
by itself or after those before it. -/
structure Isolated (answers : Str → Answers) (s : Middle) (listing : Lines)
    (outcome : Except Exc Bool × Middle) : Prop where
  ended : outcome.1 = .ok true
  obtained : ∀ before listed after, listing.entries = before ++ listed :: after →
    listed.1 ∈ (advance score config answers s listed).processedVersions ∨
      listed.1 ∈ (advance score config answers (before.foldl (advance score config answers) s)
        listed).processedVersions →
    listed.1 ∈ outcome.2.processedVersions
  rewritten : ∀ version info, outcome.2.lines.get? version = some info ↔
    listing.get? version = some info ∧ outcome.2.discoverable version = true
  withdrawn : ∀ version, listing.contains version = false →
    outcome.2.store.versions.contains version = false ∧ version ∉ outcome.2.processedVersions
  removed : ∀ version, versionPrefix.isPrefixOf version = true → stem version = version →
    listing.contains version = false → outcome.2.directories.contains version = false

variable {score config}

theorem monitorUpstream_listing (score : Str → Nat → Str → MemberProfile → S) (config : Config)
    (s : Middle) {payload : Bytes} {content : Str} (hdecoded : decodeUtf8 payload = some content)
    (hne : content ≠ []) (answers : Str → Answers) :
    monitorUpstream score config s (some payload) answers =
      ((follow score config s (parseListing content) answers).1.map fun _ => true,
        (follow score config s (parseListing content) answers).2) := by
  simp only [monitorUpstream, hdecoded, if_neg hne]
  generalize follow score config s (parseListing content) answers = outcome
  obtain ⟨result, t⟩ := outcome
  cases result <;> rfl

theorem follow_isolated {s : Middle} (hs : Sound s) {listing : Lines} {answers : Str → Answers}
    (h : (follow score config s listing answers).1 = .ok ()) :
    Isolated score config answers s listing (.ok true, (follow score config s listing answers).2) := by
  obtain ⟨hok, -, hend⟩ := follow_spec score config hs listing answers
  obtain ⟨hquiet, -⟩ := hok.mp h
  have hfinished := hend h
  have hlisted : ∀ version info, (version, info) ∈ listing.entries →
      listing.contains version = true := by
    intro version info hin
    rw [OrderedDict.contains, OrderedDict.get?_eq_some_iff.mpr hin]
    rfl
  refine ⟨rfl, ?_, ?_, ?_, hfinished.removed⟩
  · intro before listed after hentries hobtains
    have hbefore := foldl_progress score config answers hs before
    have hquietHere : ¬ Raises score config (before.foldl (advance score config answers) s) listed.1
        listed.2 (answers listed.1) := (hentries ▸ hquiet).here
    have hturn : listed.1 ∈ (advance score config answers
        (before.foldl (advance score config answers) s) listed).processedVersions := by
      rcases hobtains with halone | hturn
      · exact processed_at_turn hbefore.sound hbefore.processed hbefore.capacity hquietHere halone
      · exact hturn
    have hafter := foldl_progress score config answers
      (advance_progress score config answers hbefore.sound listed).sound after
    rw [hfinished.processed]
    refine ⟨?_, hlisted listed.1 listed.2 (by simp [hentries])⟩
    rw [hentries, Middle.rewrite, List.foldl_append, List.foldl_cons]
    exact hafter.processed listed.1 hturn
  · intro version info
    rw [hfinished.lines, get?_rewrite]
    refine and_congr_right fun hin => ?_
    have hthere : listing.contains version = true := hlisted version info
      (OrderedDict.get?_eq_some_iff.mp hin)
    rw [Middle.discoverable, Middle.discoverable, OrderedDict.contains, OrderedDict.contains,
      OrderedDict.contains, OrderedDict.contains, hfinished.store version hthere,
      hfinished.directories version hthere]
    rfl
  · intro version hunlisted
    constructor
    · rw [← Bool.not_eq_true]
      intro hthere
      rw [hfinished.gone version hthere] at hunlisted
      cases hunlisted
    · intro hprocessed
      rw [((hfinished.processed version).mp hprocessed).2] at hunlisted
      cases hunlisted

/-- **A pass keeps the versions of a listing from affecting each other exactly
when none of them raises**, there is a listing to follow, UCXX takes the names
of the versions held, and what is to be removed is there. -/
theorem isolated_iff_none_raises (score : Str → Nat → Str → MemberProfile → S) (config : Config)
    (capacity : Nat) (lines : Lines) (directories : OrderedDict Str VersionDirectory)
    (earlier : List Pass) (answers : Str → Answers) (payload : Bytes) (content : Str)
    (hdecoded : decodeUtf8 payload = some content) :
    let s := earlier.foldl (runPass score config) (started capacity lines directories)
    let listing := parseListing content
    Isolated score config answers s listing (monitorUpstream score config s (some payload) answers) ↔
      content ≠ [] ∧
      Runs.EveryStep (advance score config answers)
        (fun s listed => ¬ Raises score config s listed.1 listed.2 (answers listed.1)) s
        listing.entries ∧
      Announceable config (listing.entries.foldl (advance score config answers) s) ∧
      Removable listing (listing.entries.foldl (advance score config answers) s).directories := by
  intro s listing
  have hs : Sound s := passes_sound score config capacity lines directories earlier
  obtain ⟨hok, -, -⟩ := follow_spec score config hs listing answers
  rw [← hok]
  by_cases hempty : content = []
  · have hstopped : (monitorUpstream score config s (some payload) answers).1 = .ok false := by
      simp only [monitorUpstream, hdecoded, if_pos hempty]
    refine iff_of_false (fun h => ?_) fun h => h.1 hempty
    cases hstopped.symm.trans h.ended
  rw [monitorUpstream_listing score config s hdecoded hempty answers]
  constructor
  · intro h
    refine ⟨hempty, ?_⟩
    have hended := h.ended
    generalize (follow score config s listing answers).1 = result at hended ⊢
    cases result with
    | error e => cases hended
    | ok => rfl
  · rintro ⟨-, hdone⟩
    rw [hdone]
    exact follow_isolated hs hdone

end

/-- Two versions of one byte each. -/
def twoVersions [Library] : Str :=
  str "v1: " ++ lineInfo (hexdigest [7]) 1 ++ str "\nv2: " ++ lineInfo (hexdigest [7]) 1

theorem isolated_iff_none_raises_two_versions :
    letI := asciiLibrary
    let answers (_ : Str) : Answers := { whole := .ok (some [7]) }
    let score (_ : Str) (_ : Nat) (_ : Str) (_ : MemberProfile) := 0
    ∃ payload, decodeUtf8 payload = some twoVersions ∧
      Isolated score ⟨none, true, 1000, true⟩ answers (started 8 .empty .empty) (parseListing twoVersions)
        (monitorUpstream score ⟨none, true, 1000, true⟩ (started 8 .empty .empty) (some payload)
          answers) := by
  let _ := asciiLibrary
  intro answers score
  have hdecoded : decodeUtf8 ((encodeUtf8 twoVersions).getD []) = some twoVersions :=
    decodeUtf8_eq_some_iff.mpr (by decide +kernel)
  refine ⟨_, hdecoded, ?_⟩
  refine (isolated_iff_none_raises score ⟨none, true, 1000, true⟩ 8 .empty .empty [] answers _ _
    hdecoded).mpr ⟨by decide +kernel, ?_⟩
  have hs := started_sound 8 .empty .empty
  refine (follow_spec score _ hs (parseListing twoVersions) answers).1.mp ?_
  have hdone : (follow score ⟨none, true, 1000, true⟩ (started 8 .empty .empty) (parseListing twoVersions)
      answers).1.isOk = true := by decide +kernel
  generalize follow score ⟨none, true, 1000, true⟩ (started 8 .empty .empty) (parseListing twoVersions)
    answers = outcome at hdone ⊢
  obtain ⟨result, t⟩ := outcome
  cases result with
  | error e => cases hdone
  | ok => rfl

/-- The manifest the upstream has of `v1` is not that of its line. -/
theorem unusable_manifest_stops_others :
    letI := asciiLibrary
    let answers (version : Str) : Answers :=
      if version = str "v1" then
        { whole := valueError (str "streaming manifest does not match distribution manifest") }
      else { whole := .ok (some [7]) }
    let score (_ : Str) (_ : Nat) (_ : Str) (_ : MemberProfile) := 0
    let config : Config := ⟨none, true, 1000, false⟩
    let s := started 8 .empty .empty
    let payload := (encodeUtf8 twoVersions).getD []
    decodeUtf8 payload = some twoVersions ∧
      str "v2" ∈ (advance score config answers s (str "v2", lineInfo (hexdigest [7]) 1)).processedVersions ∧
      str "v2" ∉ (monitorUpstream score config s (some payload) answers).2.processedVersions ∧
      ¬ Isolated score config answers s (parseListing twoVersions)
        (monitorUpstream score config s (some payload) answers) := by
  let _ := asciiLibrary
  intro answers score config s payload
  have hdecoded : decodeUtf8 payload = some twoVersions :=
    decodeUtf8_eq_some_iff.mpr (by decide +kernel)
  have hentries : (parseListing twoVersions).entries =
      [(str "v1", lineInfo (hexdigest [7]) 1), (str "v2", lineInfo (hexdigest [7]) 1)] := by
    decide +kernel
  refine ⟨hdecoded, by decide +kernel, by decide +kernel, ?_⟩
  intro hisolated
  have hobtained := hisolated.obtained [_] _ [] hentries (Or.inl (by decide +kernel))
  revert hobtained
  decide +kernel

end Litecast.Monitor
