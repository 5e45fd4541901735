import Litecast.Agreement
import Litecast.Isolation
import Litecast.Spared

/-! What stands behind the versions a middle lists: its store, or all their
shard files. -/

namespace Litecast.Monitor

section
variable [Library]

/-- Every shard file the line counts is there. -/
def Complete (directory : VersionDirectory) (info : Str) : Prop :=
  ∃ n, intOf? (partition (.ofChar '|') info).2 = some n ∧
    ∀ index : Nat, (index : Int) < n → directory.shards.contains index = true

/-- The version is in the store, or no directory of it lacks a shard file. -/
def Backed (s : Middle) (version info : Str) : Prop :=
  s.store.versions.contains version = true ∨
    ∀ directory, s.directories.get? version = some directory → Complete directory info

/-- Every version the middle serves a line of is in its store, or has all its
shard files. -/
def AllBacked (s : Middle) : Prop :=
  ∀ version info, s.lines.get? version = some info →
    s.store.versions.contains version = true ∨
      ∃ directory, s.directories.get? version = some directory ∧ Complete directory info

def Upheld (listing : Lines) (s : Middle) : Prop :=
  ∀ version info, listing.get? version = some info → Backed s version info

/-- A listed version with a directory that lacks shard files. -/
def Exposed (listing : Lines) (s : Middle) (version : Str) : Prop :=
  ∃ info directory, listing.get? version = some info ∧
    s.directories.get? version = some directory ∧ ¬ Complete directory info

theorem upheld_iff {listing : Lines} {s : Middle} :
    Upheld listing s ↔
      ∀ version, Exposed listing s version → s.store.versions.contains version = true := by
  constructor
  · rintro h version ⟨info, directory, hlisted, hthere, hlacks⟩
    refine (h version info hlisted).resolve_right fun hcomplete => ?_
    exact hlacks (hcomplete directory hthere)
  · intro h version info hlisted
    by_cases hheld : s.store.versions.contains version = true
    · exact Or.inl hheld
    · refine Or.inr fun directory hthere => ?_
      by_contra hlacks
      exact hheld (h version ⟨info, directory, hlisted, hthere, hlacks⟩)

/-- Nothing listed is lost when a middle keeps what it holds of it. -/
theorem Upheld.mono {listing : Lines} {s t : Middle} (h : Upheld listing s)
    (hstore : ∀ version, listing.contains version = true →
      t.store.versions.get? version = s.store.versions.get? version)
    (hdirectories : ∀ version, listing.contains version = true →
      t.directories.get? version = s.directories.get? version) : Upheld listing t := by
  intro version info hlisted
  have hin : listing.contains version = true := by
    rw [OrderedDict.contains, hlisted]
    rfl
  have hbacked := h version info hlisted
  rwa [Backed, OrderedDict.contains, hstore version hin, hdirectories version hin]

variable {S : Type} [LinearOrder S] {score : Str → Nat → Str → MemberProfile → S}

/-! ## Streaming -/

/-- How far streaming a version comes, and what it leaves in the store. -/
inductive StreamCase (score : Str → Nat → Str → MemberProfile → S) (s : Middle)
    (node : MiddleNode) (manifest : ShardManifest) (arrivals : List Arrival) (diskMirror : Bool)
    (t : Middle) : Prop where
  | refused (changed : Changed s manifest) (store : t.store = s.store)
      (directories : t.directories = s.directories)
  | stopped (store : CheckpointStore) (begun : Begun s manifest store) (kept : t.store = store)
  | fetched (unchanged : ¬ Changed s manifest)
      (numbered : ∀ name, name = manifest.name ∨ name ∈ s.lines.keys → (lineKey? name).isSome = true)
      (store : CheckpointStore) (begun : Begun s manifest store) (assignments : List Assignment)
      (owners : node.assignments score manifest = .ok assignments) (files : OrderedDict Nat Bytes)
      (kept : t.store = (arrivals.foldl (Fetching.arrive manifest.name diskMirror)
        ⟨store, files, assignments.map Assignment.index, []⟩).store)

theorem streaming_case (score : Str → Nat → Str → MemberProfile → S) {s : Middle} (hs : Sound s)
    {manifest : ShardManifest} (hm : Usable manifest) (hnew : manifest.name ∉ s.processedVersions)
    (config : Config) (node : MiddleNode) (payload : Bytes) (arrivals : List Arrival) :
    StreamCase score s node manifest arrivals config.diskMirror
      (processStreamingVersion score config s node manifest payload arrivals).2 := by
  rw [processStreamingVersion]
  by_cases hchanged : Changed s manifest
  · obtain ⟨e, hbegin⟩ := begin_refused hs hm hnew hchanged
    simp only [hbegin]
    exact .refused hchanged rfl rfl
  obtain ⟨metadata, store, hbegin, hbegun⟩ := begin_begun hs hm hnew hchanged
  simp only [hbegin]
  have hnumbered := @updateLines_eq_ok_iff _ s.lines manifest.name manifest.checksum 100000
    manifest.shardCount
  generalize updateLines s.lines manifest.name manifest.checksum 100000 manifest.shardCount =
    outcome at hnumbered ⊢
  obtain ⟨result, lines⟩ := outcome
  cases result with
  | error e => exact .stopped store hbegun rfl
  | ok =>
    simp only
    generalize { (s.directories.get? manifest.name).getD {} with manifest := some payload } =
      directory
    have hnotified := notify_case config
      { s with store, directories := s.directories.insert manifest.name directory, lines }
      manifest.name
    generalize Middle.notifyVersionAvailable config _ _ = outcome at hnotified ⊢
    cases hnotified with
    | refused e => exact .stopped store hbegun rfl
    | announced availableVersions =>
      simp only [fetchAssigned]
      cases howners : node.assignments score manifest with
      | error e => exact .stopped store hbegun rfl
      | ok assignments =>
        refine .fetched hchanged (hnumbered.mp rfl) store hbegun assignments howners
          directory.shards ?_
        simp only
        split <;> rfl

/-- What a middle holds of another version is still there after streaming one,
when there is room beside it. -/
theorem streaming_spares {s t : Middle} {manifest : ShardManifest} (hm : Usable manifest)
    {node : MiddleNode} {arrivals : List Arrival} {diskMirror : Bool}
    (hcase : StreamCase score s node manifest arrivals diskMirror t) {other : Str}
    (hne : other ≠ manifest.name) (hother : s.store.versions.contains other = true)
    (hspared : ¬ Changed s manifest →
      (∀ name, name = manifest.name ∨ name ∈ s.lines.keys → (lineKey? name).isSome = true) →
      ∀ assignments, node.assignments score manifest = .ok assignments →
      other ∈ s.store.olderThan manifest.name →
      s.store.bytesFrom other + demandedBytes (metadataOf manifest) manifest.shardChecksums
        (heldShards s.store manifest.name) (assignments.map Assignment.index) arrivals ≤
          s.store.capacity) :
    t.store.versions.contains other = true := by
  obtain ⟨w, hw⟩ := Option.isSome_iff_exists.mp hother
  cases hcase with
  | refused _ hstore _ => rwa [hstore]
  | stopped store hbegun hkept =>
    rw [OrderedDict.contains, hkept, hbegun.others other hne]
    exact hother
  | fetched hsame hnumbered store hbegun assignments howners files hkept =>
    have hw' : store.versions.get? other = some w := hbegun.others other hne ▸ hw
    have hafter := arrivals_spare (hbegun.underway howners files) hm.checksums_length hbegun.held hne
      hw' diskMirror arrivals fun hin => by
        rw [hbegun.bytes, hbegun.capacity]
        exact hspared hsame hnumbered assignments howners (hbegun.older ▸ hin)
    rw [OrderedDict.contains, hkept, hafter]
    rfl

/-- Streaming a version holds it, unless it is refused at once. -/
theorem streaming_holds {s t : Middle} {manifest : ShardManifest} (hm : Usable manifest)
    {node : MiddleNode} {arrivals : List Arrival} {diskMirror : Bool}
    (hcase : StreamCase score s node manifest arrivals diskMirror t) :
    (t.store = s.store ∧ t.directories = s.directories) ∨
      t.store.versions.contains manifest.name = true := by
  cases hcase with
  | refused _ hstore hdirectories => exact Or.inl ⟨hstore, hdirectories⟩
  | stopped store hbegun hkept =>
    right
    rw [OrderedDict.contains, hkept, hbegun.held.get]
    rfl
  | fetched _ _ store hbegun assignments howners files hkept =>
    right
    obtain ⟨shards, hheld, -⟩ :=
      (arrivals_ran (hbegun.underway howners files) hm.checksums_length diskMirror
        arrivals).underway.held
    rw [OrderedDict.contains, hkept, hheld.get]
    rfl

/-! ## A version at its turn -/

/-- `put` takes the data as the version. -/
def Puttable (capacity : Nat) (version checksum : Str) (data : Bytes) : Prop :=
  version ≠ [] ∧ data.length ≤ capacity ∧ lower checksum = hexdigest data

/-- What makes a version's turn take out of the store what only the store has. -/
inductive Strands (score : Str → Nat → Str → MemberProfile → S) (config : Config) (listing : Lines)
    (s : Middle) (version info : Str) (answers : Answers) : Prop where
  /-- An older version, when the shards offered do not fit beside it and those
  after it. -/
  | streamed (node : MiddleNode) (manifest : ShardManifest) (payload : Bytes)
      (planned : plan config s version info answers = .ok (.stream node manifest payload))
      (unchanged : ¬ Changed s manifest)
      (numbered : ∀ name, name = version ∨ name ∈ s.lines.keys → (lineKey? name).isSome = true)
      (assignments : List Assignment) (owners : node.assignments score manifest = .ok assignments)
      (other : Str) (exposed : Exposed listing s other)
      (older : other ∈ s.store.olderThan version)
      (full : s.store.capacity < s.store.bytesFrom other +
        demandedBytes (metadataOf manifest) manifest.shardChecksums (heldShards s.store version)
          (assignments.map Assignment.index) answers.arrivals)
  /-- Any other, when the whole data does not fit beside it and those after it. -/
  | stored (checksum : Str) (expectedCount : Nat) (data : Bytes)
      (planned : plan config s version info answers = .ok (.whole checksum expectedCount))
      (downloaded : answers.whole = .ok (some data))
      (puttable : Puttable s.store.capacity version checksum data)
      (other : Str) (exposed : Exposed listing s other) (ne : other ≠ version)
      (held : s.store.versions.contains other = true)
      (full : s.store.capacity < (s.store.popped version).bytesFrom other + data.length)
  /-- The version itself, when its data gives another number of shards. -/
  | miscounted (checksum : Str) (expectedCount : Nat) (data : Bytes)
      (planned : plan config s version info answers = .ok (.whole checksum expectedCount))
      (downloaded : answers.whole = .ok (some data))
      (puttable : Puttable s.store.capacity version checksum data)
      (exposed : Exposed listing s version)
      (differs : shardCountOf data.length (inferredShardSize data.length expectedCount) ≠ expectedCount)

theorem Advanced.exposed {s t : Middle} {version : Str} (h : Advanced s t version) {listing : Lines}
    {other : Str} (hne : other ≠ version) (hexposed : Exposed listing t other) :
    Exposed listing s other := by
  obtain ⟨info, directory, hlisted, hthere, hlacks⟩ := hexposed
  exact ⟨info, directory, hlisted, h.directories other hne ▸ hthere, hlacks⟩

/-- Nothing is stranded where nothing is exposed, or by what is skipped. -/
theorem Strands.exposed_of {config : Config} {listing : Lines} {s : Middle}
    {version info : Str} {answers : Answers} (h : Strands score config listing s version info answers) :
    plan config s version info answers ≠ .ok .skip ∧ ∃ other, Exposed listing s other := by
  rcases h with ⟨node, manifest, payload, planned, -, -, -, -, other, exposed, -⟩ |
    ⟨checksum, expectedCount, data, planned, -, -, other, exposed, -⟩ |
    ⟨checksum, expectedCount, data, planned, -, -, exposed, -⟩
  · exact ⟨by simp [planned], other, exposed⟩
  · exact ⟨by simp [planned], other, exposed⟩
  · exact ⟨by simp [planned], version, exposed⟩

omit [Library] in
theorem storeComplete_spares {store : CheckpointStore} (hstore : store.Ledger)
    (metadata : VersionMetadata) (data : Bytes) {other : Str} (hne : other ≠ metadata.name)
    (hother : store.versions.contains other = true)
    (hroom : (store.popped metadata.name).bytesFrom other + data.length ≤ store.capacity) :
    (store.storeComplete metadata data []).versions.contains other = true := by
  obtain ⟨w, hw⟩ := Option.isSome_iff_exists.mp hother
  have hpopped : (store.popped metadata.name).versions.get? other = some w := by
    rw [CheckpointStore.popped]
    split
    · exact hw
    · rw [OrderedDict.get?_erase, if_neg hne]
      exact hw
  have hkept : ((store.popped metadata.name).evict data.length fun _ => false).versions.get? other =
      some w := by
    refine CheckpointStore.get?_evictOldest_of_fits _ _ (hstore.popped metadata.name).counted hpopped ?_
    rw [CheckpointStore.popped_capacity]
    omega
  rw [CheckpointStore.storeComplete_eq, OrderedDict.contains, OrderedDict.get?_insert, if_neg hne]
  exact Option.isSome_iff_exists.mpr ⟨w, hkept⟩

theorem buffer_upheld {s : Middle} (hs : Sound s) {listing : Lines} (hup : Upheld listing s)
    (config : Config) (version checksum : Str) (expectedCount : Nat) (data : Bytes)
    (hothers : Puttable s.store.capacity version checksum data → ∀ other, Exposed listing s other →
      other ≠ version → s.store.versions.contains other = true →
      (s.store.popped version).bytesFrom other + data.length ≤ s.store.capacity)
    (hown : Puttable s.store.capacity version checksum data → Exposed listing s version →
      shardCountOf data.length (inferredShardSize data.length expectedCount) = expectedCount) :
    Upheld listing (processBuffer config s version checksum expectedCount data).2 := by
  have hends := put_case s.store version data (inferredShardSize data.length expectedCount) checksum
  have hadvanced := (buffer_spec hs config version checksum expectedCount data).1
  have hpos := inferredShardSize_pos data.length expectedCount
  rw [upheld_iff] at hup ⊢
  rw [processBuffer] at hadvanced ⊢
  generalize s.store.put version data (inferredShardSize data.length expectedCount) (some checksum) =
    outcome at hends hadvanced ⊢
  cases hends with
  | refused e value =>
    exact hup
  | stored metadata size given fits named named_ne total count digest =>
    subst named
    have hput : Puttable s.store.capacity metadata.name checksum data := ⟨named_ne, fits, digest⟩
    have hspared : ∀ other, Exposed listing s other → other ≠ metadata.name →
        (s.store.storeComplete metadata data []).versions.contains other = true := by
      intro other hexposed hne
      have hheld := hup other hexposed
      exact storeComplete_spares hs.ledger metadata data hne hheld
        (hothers hput other hexposed hne hheld)
    have hstored : (s.store.storeComplete metadata data []).versions.contains metadata.name = true := by
      rw [OrderedDict.contains, CheckpointStore.get?_storeComplete]
      rfl
    simp only at hadvanced ⊢
    by_cases hcount : metadata.shardCount = expectedCount
    · rw [if_neg (not_not.mpr hcount)] at hadvanced ⊢
      intro other hexposed
      have hkept : (s.store.storeComplete metadata data []).versions.contains other = true := by
        by_cases hother : other = metadata.name
        · rw [hother]
          exact hstored
        · exact hspared other (hadvanced.exposed hother hexposed) hother
      split_ifs
      · split <;> exact hkept
      · exact hkept
    · rw [if_pos hcount] at hadvanced ⊢
      intro other hexposed
      by_cases hother : other = metadata.name
      · subst hother
        have hshardSize : metadata.shardSize = inferredShardSize data.length expectedCount := by omega
        rw [count, total, hshardSize] at hcount
        exact absurd (hown hput hexposed) hcount
      · have hkept := hspared other (hadvanced.exposed hother hexposed) hother
        rwa [OrderedDict.contains, CheckpointStore.get?_remove, if_neg hother]

/-- A directory that is kept after downloading to disk only has every file. -/
theorem files_upheld {s : Middle} {listing : Lines} (hup : Upheld listing s)
    {version checksum info : Str} {expectedCount : Nat}
    (hinfo : intOf? (partition (.ofChar '|') info).2 = some (expectedCount : Int))
    (hlisted : listing.get? version = some info) (shardFile : Nat → Option Bytes) :
    Upheld listing (processFiles s version checksum expectedCount shardFile) := by
  have hother : ∀ other, other ≠ version →
      (processFiles s version checksum expectedCount shardFile).directories.get? other =
        s.directories.get? other := by
    intro other hne
    rw [processFiles]
    split_ifs
    · rw [OrderedDict.get?_insert, if_neg hne]
    · rw [OrderedDict.get?_erase, if_neg hne]
  intro other info' hlisted'
  by_cases hne : other = version
  · subst hne
    obtain rfl := Option.some.inj (hlisted.symm.trans hlisted')
    right
    rw [processFiles]
    split_ifs
    · simp only [OrderedDict.get?_insert, if_true, Option.some.injEq, forall_eq']
      refine ⟨_, hinfo, fun index hindex => ?_⟩
      rw [OrderedDict.contains, OrderedDict.get?_foldl_range, if_pos (by omega)]
      rfl
    · rw [OrderedDict.get?_erase, if_pos rfl]
      intro directory hthere
      cases hthere
  · have hbacked := hup other info' hlisted'
    rw [Backed] at hbacked ⊢
    rw [hother other hne]
    rw [processFiles]
    split_ifs <;> exact hbacked

theorem planStream_whole {config : Config} {version checksum checksum' : Str}
    {expectedCount expectedCount' : Nat} {offered : Option Bytes}
    (h : planStream config version checksum expectedCount offered =
      .ok (.whole checksum' expectedCount')) : expectedCount' = expectedCount := by
  unfold planStream at h
  split at h
  · next node raw _ =>
    cases hread : readManifest config raw with
    | error e =>
      simp only [hread] at h
      split at h
      · cases h
        rfl
      · cases h
    | ok upstream =>
      simp only [hread] at h
      split at h
      · obtain ⟨_, -, hplan⟩ := bind_eq_ok.mp h
        cases hplan
      · cases h
        rfl
  · cases h
    rfl

theorem plan_whole {config : Config} {s : Middle} {version info checksum : Str}
    {expectedCount : Nat} {answers : Answers}
    (h : plan config s version info answers = .ok (.whole checksum expectedCount)) :
    intOf? (partition (.ofChar '|') info).2 = some (expectedCount : Int) := by
  rw [plan] at h
  split at h
  · cases h
  simp only at h
  split at h
  · cases h
  split at h
  · cases h
  · next count hcount =>
    split at h
    · cases h
    · next hnonneg =>
      rw [planStream_whole h, hcount]
      congr 1
      omega

/-- A manifest of the line is streamed as this middle republishes it. -/
theorem plan_streams {config : Config} {node : MiddleNode} (hnode : config.node = some node)
    {s : Middle} {info : Str} {raw payload : Bytes} (manifest : ShardManifest) (count : Str)
    (hnew : manifest.name ∉ s.processedVersions)
    (hinfo : partition (.ofChar '|') info = (manifest.checksum, count)) (hne : count ≠ [])
    (hcount : intOf? count = some (manifest.shardCount : Int)) {answers : Answers}
    (hoffered : answers.manifest = some raw) (hread : readManifest config raw = .ok manifest)
    (hpayload : (node.republish manifest).toBytes = .ok payload) :
    plan config s manifest.name info answers =
      .ok (.stream node (node.republish manifest) payload) := by
  have hnonneg : ¬ (manifest.shardCount : Int) < 0 := by omega
  rw [plan, if_neg hnew]
  simp only [hinfo, if_neg hne, hcount, if_neg hnonneg, planStream, hnode, hoffered, hread, hpayload]
  rw [if_pos ⟨trivial, trivial, rfl⟩]
  rfl

/-- **A turn keeps what stands behind the listed versions**, unless it strands
one. -/
theorem advance_upheld {config : Config} {answers : Str → Answers} {s : Middle} (hs : Sound s)
    {listing : Lines} (hup : Upheld listing s) {version info : Str}
    (hlisted : listing.get? version = some info)
    (hspared : ¬ Strands score config listing s version info (answers version)) :
    Upheld listing (advance score config answers s (version, info)) := by
  have hadvanced := (version_spec score hs config version info (answers version)).1
  simp only [advance]
  rw [processVersion] at hadvanced ⊢
  cases hplan : plan config s version info (answers version) with
  | error e => exact hup
  | ok planned =>
    simp only [hplan] at hadvanced ⊢
    cases planned with
    | skip => exact hup
    | stream node manifest payload =>
      obtain ⟨rfl, hnew, hm⟩ := plan_stream hplan
      have hcase := streaming_case score hs hm hnew config node payload (answers manifest.name).arrivals
      simp only at hadvanced ⊢
      rw [upheld_iff] at hup ⊢
      intro other hexposed
      by_cases hother : other = manifest.name
      · subst hother
        rcases streaming_holds hm hcase with ⟨hstore, hdirectories⟩ | hheld
        · rw [hstore]
          obtain ⟨info', directory, hin, hthere, hlacks⟩ := hexposed
          exact hup _ ⟨info', directory, hin, hdirectories ▸ hthere, hlacks⟩
        · exact hheld
      · have hbefore := hadvanced.exposed hother hexposed
        refine streaming_spares hm hcase hother (hup other hbefore) ?_
        intro hsame hnumbered assignments howners holder
        by_contra hfull
        exact hspared (.streamed node manifest payload hplan hsame hnumbered assignments howners other
          hbefore holder (not_le.mp hfull))
    | whole checksum expectedCount =>
      simp only [processWhole]
      cases hwhole : (answers version).whole with
      | error e => exact hup
      | ok data =>
        cases data with
        | none =>
          simp only
          split_ifs
          · exact files_upheld hup (plan_whole hplan) hlisted _
          · exact hup
        | some data =>
          refine buffer_upheld hs hup config version checksum expectedCount data ?_ ?_
          · intro hput other hexposed hne hheld
            by_contra hfull
            exact hspared (.stored checksum expectedCount data hplan hwhole hput other hexposed hne
              hheld (not_le.mp hfull))
          · intro hput hexposed
            by_contra hdiffers
            exact hspared (.miscounted checksum expectedCount data hplan hwhole hput hexposed hdiffers)

/-! ## A pass -/

/-- No listed version comes to a turn, those before it done, that strands one. -/
def Spared (score : Str → Nat → Str → MemberProfile → S) (config : Config) (listing : Lines)
    (answers : Str → Answers) (s : Middle) (entries : List (Str × Str)) : Prop :=
  ∀ before listed after, entries = before ++ listed :: after →
    Runs.EveryStep (advance score config answers)
      (fun s listed => ¬ Raises score config s listed.1 listed.2 (answers listed.1)) s before →
    ¬ Strands score config listing (before.foldl (advance score config answers) s) listed.1 listed.2
      (answers listed.1)

theorem spared_nil {config : Config} {listing : Lines} {s : Middle} {answers : Str → Answers} :
    Spared score config listing answers s [] := by
  intro before listed after hentries
  cases List.append_eq_nil_iff.mp hentries.symm |>.2

theorem Spared.cons {config : Config} {listing : Lines} {s : Middle} {answers : Str → Answers}
    {version info : Str} {rest : List (Str × Str)}
    (hfirst : ¬ Strands score config listing s version info (answers version))
    (hrest : Spared score config listing answers (advance score config answers s (version, info)) rest) :
    Spared score config listing answers s ((version, info) :: rest) := by
  intro before listed after hentries hsteps
  cases before with
  | nil =>
    obtain rfl := (List.cons.inj hentries).1
    exact hfirst
  | cons other others =>
    obtain ⟨rfl, rfl⟩ := List.cons.inj hentries
    exact hrest others listed after rfl hsteps.2

theorem processVersions_upheld {config : Config} {answers : Str → Answers} {listing : Lines}
    {s : Middle} (hs : Sound s) (hup : Upheld listing s) {entries : List (Str × Str)}
    (hlisted : ∀ listed ∈ entries, listing.get? listed.1 = some listed.2)
    (hspared : Spared score config listing answers s entries) :
    Upheld listing (processVersions score config answers entries s).2 := by
  induction entries generalizing s with
  | nil => exact hup
  | cons listed rest ih =>
    obtain ⟨version, info⟩ := listed
    have hturn := advance_upheld hs hup (hlisted _ List.mem_cons_self)
      (hspared [] (version, info) rest rfl trivial)
    obtain ⟨hadvanced, hok⟩ := version_spec score hs config version info (answers version)
    have hlater := @ih (advance score config answers s (version, info)) hadvanced.sound hturn
      fun listed hin => hlisted listed (List.mem_cons_of_mem _ hin)
    have hspared' : (processVersion score config s version info (answers version)).1 = .ok () →
        Spared score config listing answers (advance score config answers s (version, info)) rest := by
      intro hdone before listed after hentries hquiet
      refine hspared ((version, info) :: before) listed after ?_ ⟨hok.mp hdone, hquiet⟩
      rw [hentries, List.cons_append]
    rw [processVersions]
    simp only [advance] at hturn hlater hspared'
    generalize processVersion score config s version info (answers version) = outcome at *
    obtain ⟨result, t⟩ := outcome
    cases result with
    | error e => exact hturn
    | ok => exact hlater (hspared' rfl)

omit [Library] in
/-- Removing what is old keeps what is listed. -/
theorem removeOld_listed (s : Middle) (distribution : Lines) {version : Str}
    (hlisted : distribution.contains version = true) :
    (s.removeOld distribution).2.store.versions.get? version = s.store.versions.get? version ∧
      (s.removeOld distribution).2.directories.get? version = s.directories.get? version := by
  have hdirectories := get?_removeDirectories
    (s.directories.keys.filter (versionPrefix.isPrefixOf ·)) s.directories hlisted
  rw [Middle.removeOld]
  generalize removeDirectories distribution
    (s.directories.keys.filter (versionPrefix.isPrefixOf ·)) s.directories = outcome
      at hdirectories ⊢
  obtain ⟨result, directories⟩ := outcome
  cases result with
  | error e => exact ⟨rfl, hdirectories⟩
  | ok =>
    refine ⟨?_, hdirectories⟩
    simp only [(removes_spec _ s.store).1, List.mem_filter, hlisted, Bool.not_true,
      Bool.false_eq_true, and_false, if_false]

theorem follow_upheld {config : Config} {answers : Str → Answers} {listing : Lines} {s : Middle}
    (hs : Sound s) (hup : Upheld listing s)
    (hspared : Spared score config listing answers s listing.entries) :
    Upheld listing (follow score config s listing answers).2 := by
  have hprocessed := processVersions_upheld hs hup
    (fun listed hin => OrderedDict.get?_eq_some_iff.mpr hin) hspared
  have hfollowed := follow_case score config s listing answers
  generalize follow score config s listing answers = outcome at hfollowed ⊢
  cases hfollowed with
  | processing e t processed =>
    rw [processed] at hprocessed
    exact hprocessed
  | announcing e t availableVersions processed =>
    rw [processed] at hprocessed
    exact hprocessed
  | removing t availableVersions processed =>
    rw [processed] at hprocessed
    have hlisted {version : Str} (hin : listing.contains version = true) :=
      removeOld_listed { t.rewrite listing with availableVersions } listing hin
    exact hprocessed.mono (fun version hin => (hlisted hin).1) fun version hin => (hlisted hin).2

/-- A pass that goes to its end serves the lines of what it can discover, all
of it backed. -/
theorem follow_backed {config : Config} {answers : Str → Answers} {listing : Lines} {s : Middle}
    (hs : Sound s) (hup : Upheld listing s)
    (hspared : Spared score config listing answers s listing.entries)
    (hended : (follow score config s listing answers).1 = .ok ()) :
    AllBacked (follow score config s listing answers).2 := by
  have hisolated := follow_isolated hs hended
  have hafter := follow_upheld hs hup hspared
  intro version info hline
  obtain ⟨hlisted, hdiscoverable⟩ := (hisolated.rewritten version info).mp hline
  rcases hafter version info hlisted with hheld | hcomplete
  · exact Or.inl hheld
  · rw [Middle.discoverable, Bool.or_eq_true] at hdiscoverable
    refine hdiscoverable.imp id fun hthere => ?_
    obtain ⟨directory, hdirectory⟩ := Option.isSome_iff_exists.mp hthere
    exact ⟨directory, hdirectory, hcomplete directory hdirectory⟩

variable (score) in
theorem processVersion_stream {config : Config} {s : Middle} {node : MiddleNode} {manifest : ShardManifest}
    {payload : Bytes} {version info : Str} {answers : Answers}
    (hplan : plan config s version info answers = .ok (.stream node manifest payload)) :
    processVersion score config s version info answers =
      processStreamingVersion score config s node manifest payload answers.arrivals := by
  simp only [processVersion, hplan]

theorem follow_single {config : Config} (hlistener : config.ucxxServer = false) {s t : Middle}
    {listing : Lines} {version info : Str} {answers : Str → Answers}
    (hentries : listing.entries = [(version, info)])
    (hturn : processVersion score config s version info (answers version) = (.ok (), t)) :
    follow score config s listing answers = (t.rewrite listing).removeOld listing := by
  simp only [follow, hentries, processVersions, hturn, notifyAll_of_none hlistener]

/-! ## Runs -/

/-- The listing a pass follows, if it gets one. -/
def Pass.listing (pass : Pass) : Option Lines := do
  let content ← decodeUtf8 (← pass.payload)
  if content = [] then none else some (parseListing content)

/-- A middle, the listing it followed last, and whether its last pass went
through one to the end. -/
structure Following where
  middle : Middle
  last : Lines := .empty
  ended : Bool := false

variable (score) in
def followPass (config : Config) (s : Following) (pass : Pass) : Following :=
  let outcome := monitorUpstream score config s.middle pass.payload pass.answers
  { middle := outcome.2, last := pass.listing.getD s.last, ended := outcome.1.toOption.getD false }

theorem followPass_listed {config : Config} {s : Following} (pass : Pass) {payload : Bytes}
    {content : Str} (hpayload : pass.payload = some payload)
    (hdecoded : decodeUtf8 payload = some content) (hne : content ≠ [])
    {outcome : Except Exc Unit × Middle}
    (hfollowed : follow score config s.middle (parseListing content) pass.answers = outcome) :
    followPass score config s pass =
      { middle := outcome.2, last := parseListing content, ended := outcome.1.isOk } := by
  have hlisting : pass.listing = some (parseListing content) := by
    simp [Pass.listing, hpayload, hdecoded, hne]
  rw [followPass, hlisting, hpayload, monitorUpstream_listing score config s.middle hdecoded hne,
    hfollowed]
  obtain ⟨result, t⟩ := outcome
  cases result <;> rfl

/-- What a pass meets lets it keep what stands behind the listed versions. -/
structure Undisturbed (score : Str → Nat → Str → MemberProfile → S) (config : Config)
    (s : Following) (pass : Pass) : Prop where
  /-- A line the last listing did not have is not of a version whose directory
  lacks shard files, unless the store holds it. -/
  settled : ∀ listing, pass.listing = some listing → ∀ version info,
    listing.get? version = some info → s.last.get? version ≠ some info → Backed s.middle version info
  spared : ∀ listing, pass.listing = some listing →
    Spared score config listing pass.answers s.middle listing.entries

/-- What the passes keep. -/
structure Holds (s : Following) : Prop where
  sound : Sound s.middle
  upheld : Upheld s.last s.middle
  backed : s.ended = true → AllBacked s.middle

theorem listing_eq_some {pass : Pass} {listing : Lines} (h : pass.listing = some listing) :
    ∃ payload content, pass.payload = some payload ∧ decodeUtf8 payload = some content ∧
      content ≠ [] ∧ listing = parseListing content := by
  obtain ⟨payload, hpayload, hrest⟩ := Option.bind_eq_some_iff.mp h
  obtain ⟨content, hcontent, hparsed⟩ := Option.bind_eq_some_iff.mp hrest
  split_ifs at hparsed with hempty
  exact ⟨payload, content, hpayload, hcontent, hempty, (Option.some.inj hparsed).symm⟩

variable (score) in
/-- Without a listing nothing happens. -/
theorem monitorUpstream_unlisted (config : Config) (s : Middle) {pass : Pass}
    (h : pass.listing = none) :
    (monitorUpstream score config s pass.payload pass.answers).2 = s ∧
      (monitorUpstream score config s pass.payload pass.answers).1 ≠ .ok true := by
  unfold monitorUpstream
  split
  · exact ⟨rfl, by simp⟩
  split
  · exact ⟨rfl, by simp [valueError]⟩
  split
  · exact ⟨rfl, by simp⟩
  · next payload hpayload _ content hcontent hne =>
    have hlisting : pass.listing = some (parseListing content) := by
      simp [Pass.listing, hpayload, hcontent, hne]
    cases h.symm.trans hlisting

theorem followPass_holds {config : Config} {s : Following} (hs : Holds s) {pass : Pass}
    (hpass : Undisturbed score config s pass) : Holds (followPass score config s pass) := by
  cases hlisting : pass.listing with
  | none =>
    obtain ⟨hsame, hnot⟩ := monitorUpstream_unlisted score config s.middle hlisting
    constructor
    · simp only [followPass, hsame]
      exact hs.sound
    · simp only [followPass, hsame, hlisting, Option.getD_none]
      exact hs.upheld
    · intro hended
      refine absurd ?_ hnot
      simp only [followPass] at hended
      generalize (monitorUpstream score config s.middle pass.payload pass.answers).1 = result at *
      cases result with
      | error e => cases hended
      | ok b => exact congrArg _ hended
  | some listing =>
    obtain ⟨payload, content, hpayload, hdecoded, hne, rfl⟩ := listing_eq_some hlisting
    have hup : Upheld (parseListing content) s.middle := by
      intro version info hlisted
      by_cases hlast : s.last.get? version = some info
      · exact hs.upheld version info hlast
      · exact hpass.settled _ hlisting version info hlisted hlast
    have hspared := hpass.spared _ hlisting
    have hfollowed := monitorUpstream_listing score config s.middle hdecoded hne pass.answers
    have hsound := runPass_sound score config hs.sound pass
    rw [runPass, hpayload, hfollowed] at hsound
    simp only [followPass, hlisting, hpayload, hfollowed, Option.getD_some]
    refine ⟨hsound, follow_upheld hs.sound hup hspared, fun hended => ?_⟩
    apply follow_backed hs.sound hup hspared
    simp only at hended
    generalize (follow score config s.middle (parseListing content) pass.answers).1 = result at *
    cases result with
    | error e => cases hended
    | ok => rfl

/-- **After every pass that went to its end all listed versions are backed**, in
a run whose passes meet nothing that disturbs them. -/
theorem ended_backed (score : Str → Nat → Str → MemberProfile → S) (config : Config) (capacity : Nat)
    (lines : Lines) (directories : OrderedDict Str VersionDirectory) (passes : List Pass)
    (hpasses : Runs.EveryStep (followPass score config) (Undisturbed score config)
      { middle := started capacity lines directories } passes) :
    Runs.Always (followPass score config) (fun s => s.ended = true → AllBacked s.middle)
      { middle := started capacity lines directories } passes := by
  have hstart : Holds { middle := started capacity lines directories } :=
    ⟨started_sound capacity lines directories, fun _ _ h => (nomatch h), fun h => (nomatch h)⟩
  have hkeep : ∀ s pass, Holds s → Undisturbed score config s pass →
      Holds (followPass score config s pass) := fun _ _ hs hpass => followPass_holds hs hpass
  exact (Runs.always_of_everyStep hkeep hstart hpasses).mono fun _ h => h.backed

/-- Beside the only directory there is, a version downloaded whole strands
nothing if its data fits. -/
theorem spared_beside {score : Str → Nat → Str → MemberProfile → S} {config : Config}
    {listing : Lines} {answers : Str → Answers} {s : Middle} {kept new line info checksum : Str}
    {expectedCount : Nat} {data : Bytes} (hprocessed : kept ∈ s.processedVersions)
    (hthere : s.directories.keys = [kept]) (hother : new ≠ kept)
    (hwhole : plan config s new info (answers new) = .ok (.whole checksum expectedCount))
    (hdata : (answers new).whole = .ok (some data))
    (hroom : (s.store.popped new).bytesFrom kept + data.length ≤ s.store.capacity) :
    Spared score config listing answers s [(kept, line), (new, info)] := by
  have hdirectory {version : Str} {directory : VersionDirectory}
      (h : s.directories.get? version = some directory) : version = kept := by
    have hkey := OrderedDict.mem_keys_iff.mpr ⟨directory, h⟩
    rwa [hthere, List.mem_singleton] at hkey
  have hskip : plan config s kept line (answers kept) = .ok .skip := if_pos hprocessed
  have hsame : advance score config answers s (kept, line) = s := by
    rw [advance, processVersion, hskip]
  refine .cons (fun h => h.exposed_of.1 hskip) (.cons ?_ spared_nil)
  rw [hsame]
  rintro (⟨node, manifest, payload, planned, -⟩ |
    ⟨checksum, expectedCount, data', -, downloaded, -, other, exposed, -, -, full⟩ |
    ⟨checksum, expectedCount, data', -, -, -, exposed, -⟩)
  · cases hwhole.symm.trans planned
  · obtain ⟨-, directory, -, h, -⟩ := exposed
    obtain rfl := hdirectory h
    obtain rfl := Option.some.inj (Except.ok.inj (hdata.symm.trans downloaded))
    exact absurd full (Nat.not_lt.mpr hroom)
  · obtain ⟨-, directory, -, h, -⟩ := exposed
    exact hother (hdirectory h)

end

/-- A line of a version of one byte. -/
def oneByteLine [Library] (version : String) : Str :=
  str version ++ str ": " ++ lineInfo (hexdigest [97]) 1

/-- `v1` is streamed, any other version downloaded whole. -/
def oneByteAnswers [Library] (version : Str) : Answers where
  manifest := if version = str "v1" then some (dumps oneByteManifest.toDict) else none
  whole := .ok (some [97])
  arrivals := [{ index := 0, payload := [97] }]

def oneBytePass [Library] (listing : Str) : Pass where
  payload := some ((encodeUtf8 listing).getD [])
  answers := oneByteAnswers

theorem listing_oneBytePass [Library] {text : Str}
    (hdecoded : decodeUtf8 ((encodeUtf8 text).getD []) = some text) (hne : text ≠ []) :
    (oneBytePass text).listing = some (parseListing text) := by
  simp only [Pass.listing, oneBytePass, Option.bind_eq_bind, Option.bind_some, hdecoded, if_neg hne]

/-- A middle alone, without a mirror. -/
def loneUnmirrored : Config := ⟨some (ShardManifest.loneMiddle 1), false, 1000, false⟩

/-- `v1` as a middle that is alone streams it. -/
def streamedByte [Library] (capacity : Nat) : Except Exc Unit × Middle :=
  processStreamingVersion (fun _ _ _ _ => 0) loneUnmirrored (started capacity .empty .empty)
    (ShardManifest.loneMiddle 1) ((ShardManifest.loneMiddle 1).republish oneByteManifest)
    (dumps ((ShardManifest.loneMiddle 1).republish oneByteManifest).toDict)
    (oneByteAnswers (str "v1")).arrivals

/-- The end of its first pass. -/
def followedByte [Library] (capacity : Nat) : Except Exc Unit × Middle :=
  let listing := parseListing (oneByteLine "v1")
  ((streamedByte capacity).2.rewrite listing).removeOld listing

theorem followPass_streamed {capacity : Nat} :
    letI := asciiLibrary
    (streamedByte capacity).1.isOk = true →
      followPass (fun _ _ _ _ => 0) loneUnmirrored { middle := started capacity .empty .empty }
          (oneBytePass (oneByteLine "v1")) =
        { middle := (followedByte capacity).2, last := parseListing (oneByteLine "v1")
          ended := (followedByte capacity).1.isOk } := by
  let _ := asciiLibrary
  intro hisOk
  let node := ShardManifest.loneMiddle 1
  have hbuilt : buildManifest (str "v1") [97] 4 = .ok oneByteManifest := rfl
  have hread : readManifest loneUnmirrored (dumps oneByteManifest.toDict) = .ok oneByteManifest := by
    have hdecoded : decodeUtf8 (dumps oneByteManifest.toDict) =
        some (JsonText.write true oneByteManifest.toDict.sorted) :=
      decodeUtf8_eq_some_iff.mpr (by decide +kernel)
    have hnesting : nesting (dumps oneByteManifest.toDict) ≤ 1000 := by
      rw [nesting, hdecoded]
      decide +kernel
    rw [readManifest, if_neg (fun h => absurd hnesting (not_le.mpr h.2))]
    exact ShardManifest.fromBytes_dumps (ShardManifest.buildManifest_consistent hbuilt)
      (by decide +kernel) oneByteManifest_legible.roundTrips
  have hraw : (node.republish oneByteManifest).toBytes =
      .ok (dumps (node.republish oneByteManifest).toDict) :=
    ShardManifest.toBytes_of_le (by decide +kernel)
  have hplan : plan loneUnmirrored (started capacity .empty .empty) (str "v1")
      (lineInfo (hexdigest [97]) 1) (oneByteAnswers (str "v1")) =
      .ok (.stream node (node.republish oneByteManifest)
        (dumps (node.republish oneByteManifest).toDict)) :=
    plan_streams rfl oneByteManifest (str "1") List.not_mem_nil (by decide +kernel) (by decide)
      (by decide +kernel) (by decide +kernel) hread hraw
  have hentries : (parseListing (oneByteLine "v1")).entries =
      [(str "v1", lineInfo (hexdigest [97]) 1)] := by decide +kernel
  have hdecoded : decodeUtf8 ((encodeUtf8 (oneByteLine "v1")).getD []) = some (oneByteLine "v1") :=
    decodeUtf8_eq_some_iff.mpr (by decide +kernel)
  have hdone : (streamedByte capacity).1 = .ok () := by
    cases hresult : (streamedByte capacity).1 with
    | error e =>
      rw [hresult] at hisOk
      cases hisOk
    | ok => rfl
  have hturn : processVersion (fun _ _ _ _ => 0) loneUnmirrored (started capacity .empty .empty)
      (str "v1") (lineInfo (hexdigest [97]) 1) (oneByteAnswers (str "v1")) =
        (.ok (), (streamedByte capacity).2) :=
    (processVersion_stream _ hplan).trans (Prod.ext hdone rfl)
  exact followPass_listed _ rfl hdecoded (by decide) (follow_single rfl hentries hturn)

/-- `v1` is streamed without a mirror, and `v2` downloaded whole beside it. -/
theorem ended_backed_two_versions :
    letI := asciiLibrary
    let score (_ : Str) (_ : Nat) (_ : Str) (_ : MemberProfile) := 0
    let first := oneBytePass (oneByteLine "v1")
    let second := oneBytePass (oneByteLine "v1" ++ str "\n" ++ oneByteLine "v2")
    let start : Following := { middle := started 8 .empty .empty }
    Runs.Always (followPass score loneUnmirrored) (fun s => s.ended = true → AllBacked s.middle) start
        [first, second] ∧
      ([first, second].foldl (followPass score loneUnmirrored) start).ended = true ∧
      ([first, second].foldl (followPass score loneUnmirrored) start).middle.lines.keys =
        [str "v1", str "v2"] := by
  let _ := asciiLibrary
  intro score first second start
  let info := lineInfo (hexdigest [97]) 1
  let text := oneByteLine "v1" ++ str "\n" ++ oneByteLine "v2"
  have hlisting : first.listing = some (parseListing (oneByteLine "v1")) :=
    listing_oneBytePass (decodeUtf8_eq_some_iff.mpr (by decide +kernel)) (by decide)
  have hentries : (parseListing (oneByteLine "v1")).entries = [(str "v1", info)] := by
    decide +kernel
  have hdecoded : decodeUtf8 ((encodeUtf8 text).getD []) = some text :=
    decodeUtf8_eq_some_iff.mpr (by decide +kernel)
  have hlisting' : second.listing = some (parseListing text) :=
    listing_oneBytePass hdecoded (by decide)
  have hentries' : (parseListing text).entries = [(str "v1", info), (str "v2", info)] := by
    decide +kernel
  have hfirst : followPass score loneUnmirrored start first = _ :=
    followPass_streamed (by decide +kernel)
  have hbegun : Undisturbed score loneUnmirrored start first := by
    have hnone (listing : Lines) : ¬ ∃ other, Exposed listing start.middle other := by
      rintro ⟨other, info, directory, -, hthere, -⟩
      cases hthere
    refine ⟨fun _ _ _ _ _ _ => Or.inr fun _ h => (by cases h), fun listing hpass => ?_⟩
    obtain rfl := Option.some.inj (hlisting.symm.trans hpass)
    rw [hentries]
    exact .cons (fun h => hnone _ h.exposed_of.2) spared_nil
  have hrest : Undisturbed score loneUnmirrored (followPass score loneUnmirrored start first)
      second := by
    rw [hfirst]
    obtain ⟨hprocessed, hnew, hthere, hroom⟩ :
        str "v1" ∈ (followedByte 8).2.processedVersions ∧
          str "v2" ∉ (followedByte 8).2.processedVersions ∧
          (followedByte 8).2.directories.keys = [str "v1"] ∧
          ((followedByte 8).2.store.popped (str "v2")).bytesFrom (str "v1") + 1 ≤
            (followedByte 8).2.store.capacity := by
      decide +kernel
    generalize (followedByte 8).2 = s at hprocessed hnew hthere hroom ⊢
    constructor
    · intro listing hpass version info' hline hfresh
      obtain rfl := Option.some.inj (hlisting'.symm.trans hpass)
      refine Or.inr fun directory h => ?_
      have hkey := OrderedDict.mem_keys_iff.mpr ⟨directory, h⟩
      rw [hthere, List.mem_singleton] at hkey
      obtain rfl := hkey
      have hsame : (parseListing text).get? (str "v1") =
          (parseListing (oneByteLine "v1")).get? (str "v1") := by decide +kernel
      exact absurd (hsame.symm.trans hline) hfresh
    · intro listing hpass
      obtain rfl := Option.some.inj (hlisting'.symm.trans hpass)
      rw [hentries']
      have hwhole : plan loneUnmirrored s (str "v2") info (oneByteAnswers (str "v2")) =
          .ok (.whole (hexdigest [97]) 1) := by
        rw [plan, if_neg hnew]
        rfl
      exact spared_beside hprocessed hthere (by decide) hwhole rfl hroom
  refine ⟨ended_backed score loneUnmirrored 8 .empty .empty [first, second] ⟨hbegun, hrest, trivial⟩, ?_⟩
  rw [List.foldl_cons, List.foldl_cons, List.foldl_nil, hfirst,
    followPass_listed second rfl hdecoded (by decide) rfl]
  constructor
  · decide +kernel
  · decide +kernel

/-- `v1` is streamed without a mirror, and `v2` takes its place in the store. -/
theorem streamed_version_outlives_its_shards :
    letI := asciiLibrary
    let score (_ : Str) (_ : Nat) (_ : Str) (_ : MemberProfile) := 0
    let config : Config := ⟨some (ShardManifest.loneMiddle 1), false, 1000, false⟩
    let first := oneBytePass (oneByteLine "v1")
    let second := oneBytePass (oneByteLine "v1" ++ str "\n" ++ oneByteLine "v2")
    ¬ Runs.Always (followPass score config) (fun s => s.ended = true → AllBacked s.middle)
      { middle := started 1 .empty .empty } [first, second] := by
  let _ := asciiLibrary
  intro score config first second halways
  let text := oneByteLine "v1" ++ str "\n" ++ oneByteLine "v2"
  have hdecoded : decodeUtf8 ((encodeUtf8 text).getD []) = some text :=
    decodeUtf8_eq_some_iff.mpr (by decide +kernel)
  have hlast := Runs.always_foldl halways
  have hfirst : followPass score config { middle := started 1 .empty .empty } first = _ :=
    followPass_streamed (by decide +kernel)
  rw [List.foldl_cons, List.foldl_cons, List.foldl_nil, hfirst,
    followPass_listed second rfl hdecoded (by decide) rfl] at hlast
  have hbacked := hlast (by decide +kernel) (str "v1") (lineInfo (hexdigest [97]) 1) (by decide +kernel)
  rcases hbacked with hheld | ⟨directory, hthere, n, hn, hfiles⟩
  · revert hheld
    decide +kernel
  · have hlacks : (some directory).map (fun d => d.shards.contains 0) = some false := by
      rw [← hthere]
      decide +kernel
    have hone : intOf? (partition (.ofChar '|') (lineInfo (hexdigest [97]) 1)).2 = some 1 := by
      decide +kernel
    obtain rfl := Option.some.inj (hn.symm.trans hone)
    have hfile := hfiles 0 (by decide)
    rw [Option.map_some, hfile] at hlacks
    cases hlacks

end Litecast.Monitor
