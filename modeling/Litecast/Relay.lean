import Litecast.Downloads
import Litecast.InferredSize

/-! Middles that follow an origin, or one another, over HTTP: what has been
published under a name is what any of them serves under it. -/

namespace Litecast.Relay

open Monitor Releases Downloads
open OriginServer (InRam)

section
variable [Library]

/-- The HTTP server of a middle. -/
def middleSite (s : Middle) : Site :=
  ⟨s.store, s.directories, encodeUtf8 (s.lines.entries.flatMap Utils.lineText)⟩

/-! ## A copy of a release -/

/-- A release with a name for each of its shard files. -/
def Regular (r : Release) : Prop := 0 < r.shardSize ∧ r.shardCount ≤ 99999

instance (r : Release) : Decidable (Regular r) := inferInstanceAs (Decidable (_ ∧ _))

/-- The size cuts the payload into as many shards. -/
def Cuts (r : Release) (size : Nat) : Prop :=
  0 < size ∧ shardCountOf r.payload.length size = r.shardCount

/-- What a middle has of a release joins to its payload. -/
structure Copied (s : Middle) (r : Release) : Prop where
  line : ∀ info, s.lines.get? r.version = some info →
    info = Listing.info ⟨hexdigest r.payload, r.shardCount⟩
  ram : ∀ v, s.store.versions.get? r.version = some v →
    ∃ size, Cuts r size ∧ InRam s.store r.version r.payload size v
  disk : ∀ directory, s.directories.get? r.version = some directory →
    ∃ size, Cuts r size ∧ ∀ index < r.shardCount, ∀ shard,
      directory.shards.get? index = some shard → shard = Pieces.piece size r.payload index

/-- The versions of a middle are published ones. -/
structure Faithful (releases : List Release) (s : Middle) : Prop where
  listed : ∀ line ∈ s.lines.entries,
    (∃ r ∈ releases, r.version = line.1) ∧ Utils.OneLine line
  stored : ∀ name v, s.store.versions.get? name = some v → ∃ r ∈ releases, r.version = name
  filed : ∀ name directory, s.directories.get? name = some directory →
    ∃ r ∈ releases, r.version = name
  copied : ∀ r ∈ releases, Regular r → Copied s r

/-- A site on which all that is listed was published. -/
structure Truthful (releases : List Release) (site : Site) : Prop where
  listed : ∀ line ∈ (listAvailableVersions site.distribution).entries,
    (∃ r ∈ releases, r.version = line.1) ∧ Utils.OneLine line
  keeps : ∀ r ∈ releases, Regular r → site.Keeps r

variable {releases : List Release} {s t : Middle} {r : Release}

theorem Copied.keeps (h : Copied s r) (hname : ∃ n, r.version = versionName n)
    (hregular : Regular r) (hlines : ∀ line ∈ s.lines.entries, Utils.OneLine line) :
    (middleSite s).Keeps r where
  line := by
    intro info hinfo
    cases hdata : encodeUtf8 (s.lines.entries.flatMap Utils.lineText) with
    | none =>
      rw [middleSite, hdata] at hinfo
      cases hinfo
    | some data =>
      rw [middleSite, hdata, (Utils.read_written hlines hdata).2] at hinfo
      exact h.line info hinfo
  shards := by
    have hserved (index : Nat) (hindex : index < r.shardCount) :
        (middleSite s).shard r.version index = servedShard s.store s.directories r.version index :=
      Site.shard_eq hname (Nat.lt_of_lt_of_le hindex hregular.2)
    cases hv : s.store.versions.get? r.version with
    | some v =>
      obtain ⟨size, ⟨hsize, hcount⟩, hram⟩ := h.ram v hv
      refine ⟨size, hsize, hcount, ?_⟩
      intro index hindex shard hshard
      rw [hserved index hindex, servedShard_of_inRam hram _ (hcount ▸ hindex)] at hshard
      exact (Option.some.inj hshard).symm
    | none =>
      cases hdirectory : s.directories.get? r.version with
      | none =>
        refine ⟨r.shardSize, hregular.1, rfl, ?_⟩
        intro index hindex shard hshard
        rw [hserved index hindex, servedShard_of_absent hv, hdirectory] at hshard
        cases hshard
      | some directory =>
        obtain ⟨size, ⟨hsize, hcount⟩, hshards⟩ := h.disk directory hdirectory
        refine ⟨size, hsize, hcount, ?_⟩
        intro index hindex shard hshard
        rw [hserved index hindex, servedShard_of_absent hv, hdirectory, Option.bind_some] at hshard
        exact hshards index hindex shard hshard

theorem Faithful.truthful (h : Faithful releases s)
    (hnames : ∀ r ∈ releases, ∃ n, r.version = versionName n) :
    Truthful releases (middleSite s) where
  listed := by
    intro line hline
    cases hdata : encodeUtf8 (s.lines.entries.flatMap Utils.lineText) with
    | none =>
      rw [middleSite, hdata] at hline
      cases hline
    | some data =>
      rw [middleSite, hdata, (Utils.read_written (fun line hline => (h.listed line hline).2)
        hdata).2] at hline
      exact h.listed line hline
  keeps := fun r hr hregular => (h.copied r hr hregular).keeps (hnames r hr) hregular
    fun line hline => (h.listed line hline).2

/-! ## One version -/

/-- Nothing came to the middle but of `version`. -/
structure Touches (s t : Middle) (version : Str) : Prop where
  lines : t.lines = s.lines
  ram : ∀ name v, name ≠ version → t.store.versions.get? name = some v →
    s.store.versions.get? name = some v
  disk : ∀ name directory, name ≠ version → t.directories.get? name = some directory →
    s.directories.get? name = some directory

omit [Library] in
theorem Touches.refl (s : Middle) (version : Str) : Touches s s version :=
  ⟨rfl, fun _ _ _ h => h, fun _ _ _ h => h⟩

theorem Copied.touched (h : Copied s r) {version : Str} (htouches : Touches s t version)
    (hne : r.version ≠ version) : Copied t r where
  line := fun info hinfo => h.line info (htouches.lines ▸ hinfo)
  ram := by
    intro v hv
    obtain ⟨size, hcuts, hram⟩ := h.ram v (htouches.ram r.version v hne hv)
    exact ⟨size, hcuts, hv, hram.data, hram.totalSize, hram.shardCount, hram.shardSize⟩
  disk := fun directory hthere =>
    h.disk directory (htouches.disk r.version directory hne hthere)

variable {S : Type} [LinearOrder S] (score : Str → Nat → Str → MemberProfile → S)
  {config : Config}

theorem processFiles_touches (s : Middle) (version checksum : Str) (expectedCount : Nat)
    (shardFile : Nat → Option Bytes) :
    Touches s (processFiles s version checksum expectedCount shardFile) version := by
  rw [processFiles]
  split_ifs
  · refine ⟨rfl, fun _ _ _ h => h, ?_⟩
    intro name directory hne h
    rwa [OrderedDict.get?_insert, if_neg hne] at h
  · refine ⟨rfl, fun _ _ _ h => h, ?_⟩
    intro name directory hne h
    rwa [OrderedDict.get?_erase, if_neg hne] at h

theorem processBuffer_touches (s : Middle) (version checksum : Str) (expectedCount : Nat)
    (data : Bytes) :
    Touches s (processBuffer config s version checksum expectedCount data).2 version := by
  have hends := put_case s.store version data (inferredShardSize data.length expectedCount) checksum
  rw [processBuffer]
  generalize s.store.put version data (inferredShardSize data.length expectedCount)
    (some checksum) = outcome at hends ⊢
  cases hends with
  | refused => exact .refl s version
  | stored metadata size given fits named =>
    subst named
    have hram : ∀ name v, name ≠ metadata.name →
        (s.store.storeComplete metadata data []).versions.get? name = some v →
          s.store.versions.get? name = some v :=
      fun name v hne h => storeComplete_fewer s.store metadata data [] hne h
    have hdisk (made : VersionDirectory) : ∀ name directory, name ≠ metadata.name →
        (s.directories.insert metadata.name made).get? name = some directory →
          s.directories.get? name = some directory := by
      intro name directory hne h
      rwa [OrderedDict.get?_insert, if_neg hne] at h
    simp only
    split_ifs
    · refine ⟨rfl, ?_, fun _ _ _ h => h⟩
      intro name v hne h
      rw [CheckpointStore.get?_remove, if_neg hne] at h
      exact hram name v hne h
    · split <;> exact ⟨rfl, hram, hdisk _⟩
    · exact ⟨rfl, hram, fun _ _ _ h => h⟩

theorem processVersion_touches (hnode : config.node = none) (s : Middle) (version info : Str)
    (answers : Answers) :
    Touches s (processVersion score config s version info answers).2 version := by
  rw [processVersion]
  rcases plan_unstreamed hnode s version info answers with hskip | ⟨checksum, count, hplan⟩
  · rw [hskip]
    exact .refl s version
  · simp only [hplan, processWhole]
    cases answers.whole with
    | error e => exact .refl s version
    | ok data =>
      cases data with
      | none =>
        simp only
        split_ifs
        · exact processFiles_touches s version checksum count answers.shardFile
        · exact .refl s version
      | some data => exact processBuffer_touches s version checksum count data

/-- What comes of a release in answer to a middle is of its payload. -/
structure Yields (r : Release) (answers : Answers) : Prop where
  whole : ∀ data, answers.whole = .ok (some data) → data = r.payload
  files : ∃ size, Cuts r size ∧ ∀ index < r.shardCount, ∀ shard,
    answers.shardFile index = some shard → shard = Pieces.piece size r.payload index

theorem processFiles_copied (h : Copied s r) (checksum : Str) {answers : Answers}
    (hyields : Yields r answers) :
    Copied (processFiles s r.version checksum r.shardCount answers.shardFile) r := by
  rw [processFiles]
  split_ifs with hwhole
  · refine ⟨h.line, h.ram, ?_⟩
    intro directory hthere
    rw [OrderedDict.get?_insert, if_pos rfl] at hthere
    obtain rfl := Option.some.inj hthere
    obtain ⟨size, hcuts, hshards⟩ := hyields.files
    refine ⟨size, hcuts, ?_⟩
    intro index hindex shard hshard
    rw [OrderedDict.get?_foldl_range, if_pos hindex] at hshard
    have hsome := List.all_eq_true.mp hwhole.1 index (List.mem_range.mpr hindex)
    obtain ⟨file, hfile⟩ := Option.isSome_iff_exists.mp hsome
    rw [hfile, Option.getD_some] at hshard
    exact hshards index hindex shard (hfile.trans hshard)
  · refine ⟨h.line, h.ram, ?_⟩
    intro directory hthere
    rw [OrderedDict.get?_erase, if_pos rfl] at hthere
    cases hthere

theorem processBuffer_copied (h : Copied s r) (hregular : Regular r) (checksum : Str) :
    Copied (processBuffer config s r.version checksum r.shardCount r.payload).2 r := by
  have hends := put_case s.store r.version r.payload
    (inferredShardSize r.payload.length r.shardCount) checksum
  have hcuts : Cuts r (inferredShardSize r.payload.length r.shardCount) :=
    ⟨inferredShardSize_pos _ _, shardCountOf_inferred hregular.1⟩
  rw [processBuffer]
  generalize s.store.put r.version r.payload (inferredShardSize r.payload.length r.shardCount)
    (some checksum) = outcome at hends ⊢
  cases hends with
  | refused => exact h
  | stored metadata size given fits named _ total count =>
    have hsize : metadata.shardSize = inferredShardSize r.payload.length r.shardCount := by omega
    have hget : (s.store.storeComplete metadata r.payload []).versions.get? r.version =
        some { metadata, data := some r.payload, shardChecksums := [] } :=
      named ▸ CheckpointStore.get?_storeComplete s.store metadata r.payload []
    have hram : InRam (s.store.storeComplete metadata r.payload []) r.version r.payload
        (inferredShardSize r.payload.length r.shardCount)
        { metadata, data := some r.payload, shardChecksums := [] } :=
      ⟨hget, rfl, total, by rw [count, total, hsize], hsize⟩
    have hheld : ∀ v, (s.store.storeComplete metadata r.payload []).versions.get? r.version =
        some v → ∃ size, Cuts r size ∧
          InRam (s.store.storeComplete metadata r.payload []) r.version r.payload size v := by
      intro v hv
      obtain rfl := Option.some.inj (hget.symm.trans hv)
      exact ⟨_, hcuts, hram⟩
    simp only
    split_ifs with hcount
    · refine ⟨h.line, ?_, h.disk⟩
      intro v hv
      rw [CheckpointStore.get?_remove, if_pos rfl] at hv
      cases hv
    · obtain ⟨files, hfiles, hpieces⟩ := CheckpointStore.readShards_of_data hget rfl total
        ((s.directories.get? r.version).getD {}).shards metadata.shardCount (Nat.le_refl _)
      rw [mirror, hfiles]
      refine ⟨h.line, hheld, ?_⟩
      intro directory hthere
      rw [OrderedDict.get?_insert, if_pos rfl] at hthere
      obtain rfl := Option.some.inj hthere
      refine ⟨_, hcuts, ?_⟩
      intro index hindex shard hshard
      rw [not_not] at hcount
      rw [hpieces, if_pos (hcount ▸ hindex)] at hshard
      rw [← Option.some.inj hshard, hsize]
    · exact ⟨h.line, hheld, h.disk⟩

theorem processVersion_copied (hnode : config.node = none) (h : Copied s r)
    (hregular : Regular r) {answers : Answers} (hyields : Yields r answers) :
    Copied (processVersion score config s r.version
      (Listing.info ⟨hexdigest r.payload, r.shardCount⟩) answers).2 r := by
  rw [processVersion]
  by_cases hprocessed : r.version ∈ s.processedVersions
  · have hskip : plan config s r.version (Listing.info ⟨hexdigest r.payload, r.shardCount⟩)
        answers = .ok .skip := if_pos hprocessed
    rw [hskip]
    exact h
  · have hbar : CodePoint.ofChar '|' ∉ hexdigest r.payload := by
      intro hmem
      exact absurd (hex_isHexDigit _ _ hmem) (by decide)
    have hplan : plan config s r.version (Listing.info ⟨hexdigest r.payload, r.shardCount⟩)
        answers = .ok (.whole (hexdigest r.payload) r.shardCount) :=
      plan_listing hnode hprocessed rfl hbar answers
    simp only [hplan, processWhole]
    cases hwhole : answers.whole with
    | error e => exact h
    | ok data =>
      cases data with
      | none =>
        simp only
        split_ifs
        · exact processFiles_copied h (hexdigest r.payload) hyields
        · exact h
      | some data =>
        obtain rfl := hyields.whole data hwhole
        exact processBuffer_copied h hregular (hexdigest r.payload)

/-! ## A pass -/

/-- A listing of published versions, with answers that are of their payloads. -/
structure Reliable (releases : List Release) (distribution : Lines) (answers : Str → Answers) :
    Prop where
  known : ∀ line ∈ distribution.entries,
    (∃ r ∈ releases, r.version = line.1) ∧ Utils.OneLine line
  line : ∀ r ∈ releases, Regular r → ∀ info, distribution.get? r.version = some info →
    info = Listing.info ⟨hexdigest r.payload, r.shardCount⟩ ∧ Yields r (answers r.version)

theorem Faithful.version (hnode : config.node = none) (h : Faithful releases s) {version info : Str}
    {answers : Answers} (hknown : ∃ r ∈ releases, r.version = version)
    (hline : ∀ r ∈ releases, Regular r → r.version = version →
      info = Listing.info ⟨hexdigest r.payload, r.shardCount⟩ ∧ Yields r answers) :
    Faithful releases (processVersion score config s version info answers).2 := by
  have htouches := processVersion_touches score hnode s version info answers
  constructor
  · intro line hline
    exact h.listed line (htouches.lines ▸ hline)
  · intro name v hv
    by_cases hname : name = version
    · exact hname ▸ hknown
    · exact h.stored name v (htouches.ram name v hname hv)
  · intro name directory hthere
    by_cases hname : name = version
    · exact hname ▸ hknown
    · exact h.filed name directory (htouches.disk name directory hname hthere)
  · intro r hr hregular
    by_cases hname : r.version = version
    · subst hname
      obtain ⟨rfl, hyields⟩ := hline r hr hregular rfl
      exact processVersion_copied score hnode (h.copied r hr hregular) hregular hyields
    · exact (h.copied r hr hregular).touched htouches hname

theorem Faithful.versions (hnode : config.node = none) {distribution : Lines}
    {answers : Str → Answers} (hreliable : Reliable releases distribution answers)
    {entries : List (Str × Str)} (hentries : ∀ line ∈ entries, line ∈ distribution.entries)
    (h : Faithful releases s) :
    Faithful releases (processVersions score config answers entries s).2 := by
  induction entries generalizing s with
  | nil => exact h
  | cons line rest ih =>
    obtain ⟨version, info⟩ := line
    have hmem := hentries (version, info) List.mem_cons_self
    have hnext : Faithful releases
        (processVersion score config s version info (answers version)).2 := by
      apply h.version score hnode (hreliable.known _ hmem).1
      rintro r hr hregular rfl
      exact hreliable.line r hr hregular info (OrderedDict.get?_eq_some_iff.mpr hmem)
    rw [processVersions]
    generalize processVersion score config s version info (answers version) = outcome at hnext ⊢
    obtain ⟨result, t⟩ := outcome
    cases result with
    | error e => exact hnext
    | ok => exact ih (fun line hline => hentries line (List.mem_cons_of_mem _ hline)) hnext

omit [Library] in
/-- Removing directories makes none. -/
theorem removeDirectories_less (distribution : Lines) (found : List Str)
    {directories : OrderedDict Str VersionDirectory} {name : Str} {directory : VersionDirectory}
    (h : (removeDirectories distribution found directories).2.get? name = some directory) :
    directories.get? name = some directory := by
  induction found generalizing directories with
  | nil => exact h
  | cons first rest ih =>
    rw [removeDirectories] at h
    split_ifs at h
    · exact ih h
    · have hthere := ih h
      rw [OrderedDict.get?_erase] at hthere
      split_ifs at hthere
      exact hthere
    · exact h

/-- With fewer versions a middle is as faithful. -/
theorem Faithful.of_less (h : Faithful releases s) (hlines : t.lines = s.lines)
    (hram : ∀ name v, t.store.versions.get? name = some v → s.store.versions.get? name = some v)
    (hdisk : ∀ name directory, t.directories.get? name = some directory →
      s.directories.get? name = some directory) : Faithful releases t where
  listed := fun line hline => h.listed line (hlines ▸ hline)
  stored := fun name v hv => h.stored name v (hram name v hv)
  filed := fun name directory hthere => h.filed name directory (hdisk name directory hthere)
  copied := by
    intro r hr hregular
    have hcopied := h.copied r hr hregular
    constructor
    · exact fun info hinfo => hcopied.line info (hlines ▸ hinfo)
    · intro v hv
      obtain ⟨size, hcuts, hheld⟩ := hcopied.ram v (hram r.version v hv)
      exact ⟨size, hcuts, hv, hheld.data, hheld.totalSize, hheld.shardCount, hheld.shardSize⟩
    · exact fun directory hthere => hcopied.disk directory (hdisk r.version directory hthere)

theorem Faithful.removeOld (h : Faithful releases s) (distribution : Lines) :
    Faithful releases (s.removeOld distribution).2 := by
  have hdisk : ∀ name directory, (removeDirectories distribution
      (s.directories.keys.filter (versionPrefix.isPrefixOf ·)) s.directories).2.get? name =
        some directory → s.directories.get? name = some directory :=
    fun _ _ => removeDirectories_less distribution _
  rw [Middle.removeOld]
  generalize removeDirectories distribution
    (s.directories.keys.filter (versionPrefix.isPrefixOf ·)) s.directories = outcome at hdisk ⊢
  obtain ⟨result, directories⟩ := outcome
  cases result with
  | error e => exact h.of_less rfl (fun _ _ hv => hv) hdisk
  | ok =>
    refine h.of_less rfl ?_ hdisk
    intro name v hv
    rw [(removes_spec _ _).1] at hv
    split_ifs at hv
    exact hv

theorem Faithful.rewrite (h : Faithful releases s) {distribution : Lines}
    {answers : Str → Answers} (hreliable : Reliable releases distribution answers) :
    Faithful releases (s.rewrite distribution) where
  listed := by
    intro line hline
    have hget := OrderedDict.get?_eq_some_iff.mpr hline
    exact hreliable.known line (OrderedDict.get?_eq_some_iff.mp
      ((get?_rewrite s distribution line.1 line.2).mp hget).1)
  stored := h.stored
  filed := h.filed
  copied := by
    intro r hr hregular
    have hcopied := h.copied r hr hregular
    refine ⟨?_, hcopied.ram, hcopied.disk⟩
    intro info hinfo
    exact (hreliable.line r hr hregular info ((get?_rewrite s distribution r.version info).mp
      hinfo).1).1

theorem Faithful.announced (h : Faithful releases s) (availableVersions : List Str) :
    Faithful releases { s with availableVersions } := by
  refine ⟨h.listed, h.stored, h.filed, ?_⟩
  intro r hr hregular
  have hcopied := h.copied r hr hregular
  exact ⟨hcopied.line, hcopied.ram, hcopied.disk⟩

/-- A pass over what has been published leaves a middle faithful, wherever it stops. -/
theorem Faithful.pass (hnode : config.node = none) (h : Faithful releases s) {pass : Pass}
    (hreliable : Reliable releases (listAvailableVersions pass.payload) pass.answers) :
    Faithful releases (runPass score config s pass) := by
  rw [runPass, monitorUpstream.eq_def]
  cases hpayload : pass.payload with
  | none => exact h
  | some payload =>
    cases hdecode : decodeUtf8 payload with
    | none =>
      simp only [hdecode]
      exact h
    | some content =>
      have hlist : listAvailableVersions pass.payload = parseListing content := by
        simp only [listAvailableVersions, hpayload, Option.bind_some, hdecode]
      rw [hlist] at hreliable
      simp only [hdecode]
      split_ifs
      · exact h
      · have hdone : Faithful releases (processVersions score config pass.answers
            (parseListing content).entries s).2 :=
          h.versions score hnode hreliable fun line hline => hline
        have hfollowed := follow_case score config s (parseListing content) pass.answers
        generalize follow score config s (parseListing content) pass.answers = outcome
          at hfollowed ⊢
        cases hfollowed with
        | processing e t processed =>
          rw [processed] at hdone
          exact hdone
        | announcing e t availableVersions processed =>
          rw [processed] at hdone
          exact (hdone.rewrite hreliable).announced availableVersions
        | removing t availableVersions processed =>
          rw [processed] at hdone
          have hlast := ((hdone.rewrite hreliable).announced availableVersions).removeOld
            (parseListing content)
          generalize Middle.removeOld _ (parseListing content) = outcome at hlast ⊢
          obtain ⟨result, u⟩ := outcome
          cases result with
          | error e => exact hlast
          | ok => exact hlast

/-! ## A network -/

/-- An origin with what it has published, and the middles. -/
structure Network where
  catalogue : Catalogue
  middles : Nat → Middle

/-- Whom a request goes to. -/
inductive Party where
  | origin
  | middle (i : Nat)

def Network.site (n : Network) : Party → Site
  | .origin => originSite n.catalogue.origin
  | .middle i => middleSite (n.middles i)

inductive Event where
  | origin (event : DiskOrigin.Event)
  | pass (i : Nat) (pass : Pass)
  /-- A middle comes up again with what it has on disk. -/
  | restart (i : Nat) (capacity : Nat)

def Network.setMiddle (n : Network) (i : Nat) (s : Middle) : Network :=
  { n with middles := Function.update n.middles i s }

def Network.step (config : Nat → Config) (n : Network) : Event → Network
  | .origin event => { n with catalogue := n.catalogue.step event }
  | .pass i pass => n.setMiddle i (runPass score (config i) (n.middles i) pass)
  | .restart i capacity =>
    n.setMiddle i (started capacity (n.middles i).lines (n.middles i).directories)

/-- What a middle gets of a version is downloaded from that site. -/
structure FromSite (site : Site) (version : Str) (answers : Answers) : Prop where
  whole : ∀ data, answers.whole = .ok (some data) →
    ∃ client nestingLimit versionAnswers, client.servers.length < 2 ∧
      AnsweredBy site version versionAnswers ∧ UsesHttp client versionAnswers ∧
      client.downloadVersionBuffer score nestingLimit version versionAnswers = .ok (some data)
  files : ∀ index shard, answers.shardFile index = some shard →
    site.shard version index = some shard

/-- What a step may meet in a network with this past, the latest first. The
listing of a pass was served at some time, and each of the versions since. -/
def Event.Legal (past : List Network) : Event → Prop
  | .origin event => event.Legal
  | .pass _ met => ∃ since polled before, past = since ++ polled :: before ∧
      (∀ payload, met.payload = some payload →
        ∃ party, (polled.site party).distribution = some payload) ∧
      ∀ version, ∃ n ∈ since ++ [polled], ∃ party,
        FromSite score (n.site party) version (met.answers version)
  | .restart .. => True

variable {files : Files} {path : Str}

theorem nodup_releases {p : Catalogue} {origin : OriginServer}
    (h : p.Sound files path origin) : (p.releases.map Release.version).Nodup := by
  obtain ⟨numbers, hreturned, hincreasing, -⟩ := h.numbered.increasing
  have hinjective : Function.Injective versionName := by
    intro m n hmn
    have hkey := congrArg versionKey hmn
    rwa [versionKey_versionName, versionKey_versionName] at hkey
  have hnames : p.releases.map Release.version = numbers.map versionName := hreturned
  rw [hnames]
  exact (hincreasing.imp fun hlt => Nat.ne_of_lt hlt).map versionName fun _ _ => hinjective.ne

theorem origin_truthful {p : Catalogue} {origin : OriginServer} (h : p.Sound files path origin) :
    Truthful p.releases (originSite p.origin) where
  listed := by
    intro line hline
    rw [originSite, h.listings] at hline
    refine ⟨?_, h.refines.tidy.oneLine line hline⟩
    apply h.published
    have hget := OrderedDict.get?_eq_some_iff.mpr hline
    rw [OrderedDict.get?_mapValues] at hget
    rw [← Option.isSome_map, hget]
    rfl
  keeps := fun r hr hregular => h.keeps hr hregular.1 hregular.2

/-- The origin is as it should be, and so is every middle. -/
structure Network.Sound (files : Files) (path : Str) (n : Network) : Prop where
  origin : ∃ origin, n.catalogue.Sound files path origin
  middles : ∀ i, Faithful n.catalogue.releases (n.middles i)

variable {n : Network}

theorem Network.Sound.truthful (h : n.Sound files path) (party : Party) :
    Truthful n.catalogue.releases (n.site party) := by
  obtain ⟨origin, horigin⟩ := h.origin
  cases party with
  | origin => exact origin_truthful horigin
  | middle i => exact (h.middles i).truthful fun r hr => horigin.named hr

theorem Network.Sound.unique (h : n.Sound files path) {r r' : Release}
    (hr : r ∈ n.catalogue.releases) (hr' : r' ∈ n.catalogue.releases)
    (hname : r.version = r'.version) : r = r' := by
  obtain ⟨origin, horigin⟩ := h.origin
  exact List.inj_on_of_nodup_map (nodup_releases horigin) hr hr' hname

/-- New releases are new to the middles. -/
theorem Faithful.grow {extra : List Release} (h : Faithful releases s)
    (hnodup : ((releases ++ extra).map Release.version).Nodup) :
    Faithful (releases ++ extra) s := by
  have hknown {name : Str} (hold : ∃ r ∈ releases, r.version = name) :
      ∃ r ∈ releases ++ extra, r.version = name := by
    obtain ⟨r, hr, hname⟩ := hold
    exact ⟨r, List.mem_append_left _ hr, hname⟩
  have hfresh {r : Release} (hr : r ∈ extra) (hold : ∃ r' ∈ releases, r'.version = r.version) :
      False := by
    obtain ⟨r', hr', hname⟩ := hold
    rw [List.map_append] at hnodup
    exact (List.disjoint_of_nodup_append hnodup) (List.mem_map.mpr ⟨r', hr', hname⟩)
      (List.mem_map_of_mem hr)
  constructor
  · exact fun line hline => ⟨hknown (h.listed line hline).1, (h.listed line hline).2⟩
  · exact fun name v hv => hknown (h.stored name v hv)
  · exact fun name directory hthere => hknown (h.filed name directory hthere)
  · intro r hr hregular
    rcases List.mem_append.mp hr with hr | hr
    · exact h.copied r hr hregular
    · constructor
      · intro info hinfo
        exact (hfresh hr (h.listed _ (OrderedDict.get?_eq_some_iff.mp hinfo)).1).elim
      · intro v hv
        exact (hfresh hr (h.stored _ v hv)).elim
      · intro directory hthere
        exact (hfresh hr (h.filed _ directory hthere)).elim

/-- What is downloaded of a release from a site that keeps it. -/
theorem yields_of_site {site : Site} {r : Release} (hkeeps : site.Keeps r) (hregular : Regular r)
    {answers : Answers} (hanswers : FromSite score site r.version answers) : Yields r answers where
  whole := by
    intro data hdata
    obtain ⟨client, nestingLimit, versionAnswers, hone, hanswered, hhttp, hdownload⟩ :=
      hanswers.whole data hdata
    rw [download_kept score hkeeps hregular.1 hregular.2 hone nestingLimit hanswered hhttp]
      at hdownload
    split_ifs at hdownload
    · exact (Option.some.inj (Except.ok.inj hdownload)).symm
    · cases hdownload
  files := by
    obtain ⟨size, hsize, hcount, hshards⟩ := hkeeps.shards
    refine ⟨size, ⟨hsize, hcount⟩, ?_⟩
    intro index hindex shard hshard
    exact hshards index hindex shard (hanswers.files index shard hshard)

/-- The releases of a network are those of its past and newer ones. -/
def Grown (newer older : Network) : Prop :=
  ∀ r ∈ older.catalogue.releases, r ∈ newer.catalogue.releases

omit [Library] in
theorem Grown.refl (n : Network) : Grown n n := fun _ hr => hr

/-- What a middle meets in a pass is of what was published. -/
theorem reliable_pass {past : List Network} (hsound : ∀ m ∈ n :: past, m.Sound files path)
    (hgrown : (n :: past).Pairwise Grown) {i : Nat} {met : Pass}
    (hlegal : (Event.pass i met).Legal score (n :: past)) :
    Reliable n.catalogue.releases (listAvailableVersions met.payload) met.answers := by
  obtain ⟨since, polled, before, hpast, hpayload, hanswers⟩ := hlegal
  have hpolled : polled ∈ n :: past := by
    rw [hpast]
    exact List.mem_append_right _ List.mem_cons_self
  have hearlier : Grown n polled := by
    rcases List.mem_cons.mp hpolled with rfl | hmem
    · exact .refl polled
    · exact (List.pairwise_cons.mp hgrown).1 polled hmem
  have hlater : ∀ m ∈ since ++ [polled], Grown m polled := by
    intro m hm
    rcases List.mem_append.mp hm with hm | hm
    · rw [hpast] at hgrown
      exact (List.pairwise_append.mp hgrown).2.2 m hm polled List.mem_cons_self
    · obtain rfl := List.mem_singleton.mp hm
      exact .refl m
  have hnow := hsound n List.mem_cons_self
  cases hmet : met.payload with
  | none =>
    constructor
    · intro line hline
      cases hline
    · intro r _ _ info hinfo
      cases hinfo
  | some payload =>
    obtain ⟨party, hsite⟩ := hpayload payload hmet
    have htruthful := (hsound polled hpolled).truthful party
    rw [← hsite]
    constructor
    · intro line hline
      obtain ⟨⟨r, hr, hname⟩, honeLine⟩ := htruthful.listed line hline
      exact ⟨⟨r, hearlier r hr, hname⟩, honeLine⟩
    · intro r hr hregular info hinfo
      obtain ⟨⟨r', hr', hname⟩, -⟩ :=
        htruthful.listed _ (OrderedDict.get?_eq_some_iff.mp hinfo)
      obtain rfl := hnow.unique (hearlier r' hr') hr hname
      refine ⟨(htruthful.keeps r' hr' hregular).line info hinfo, ?_⟩
      obtain ⟨m, hm, source, hfrom⟩ := hanswers r'.version
      have hmember : m ∈ n :: past := by
        rw [hpast, List.append_cons]
        exact List.mem_append_left _ hm
      have hkeeps := ((hsound m hmember).truthful source).keeps r' (hlater m hm r' hr') hregular
      exact yields_of_site score hkeeps hregular hfrom

theorem releases_step (p : Catalogue) (event : DiskOrigin.Event) :
    ∃ extra, (p.step event).releases = p.releases ++ extra := by
  rw [Catalogue.step]
  split
  · exact ⟨_, rfl⟩
  · exact ⟨[], (List.append_nil _).symm⟩

variable {config : Nat → Config}

theorem Network.Sound.middle (h : n.Sound files path) {i : Nat}
    (hs : Faithful n.catalogue.releases s) : (n.setMiddle i s).Sound files path where
  origin := h.origin
  middles := by
    intro j
    rw [Network.setMiddle]
    by_cases hj : j = i
    · subst hj
      simpa using hs
    · simpa [Function.update_of_ne hj] using h.middles j

/-- One step of the network. -/
theorem step_sound (hlower : ∀ data, lower (hexdigest data) = hexdigest data)
    (hnode : ∀ i, (config i).node = none) {past : List Network}
    (hsound : ∀ m ∈ n :: past, m.Sound files path) (hgrown : (n :: past).Pairwise Grown)
    {event : Event} (hlegal : event.Legal score (n :: past)) :
    (n.step score config event).Sound files path ∧ Grown (n.step score config event) n := by
  have hnow := hsound n List.mem_cons_self
  cases event with
  | origin event =>
    obtain ⟨origin, horigin⟩ := hnow.origin
    obtain ⟨later, hlater⟩ := horigin.step hlower hlegal
    obtain ⟨extra, hextra⟩ := releases_step n.catalogue event
    have hnodup := nodup_releases hlater
    rw [hextra] at hnodup
    refine ⟨⟨⟨later, hlater⟩, ?_⟩, ?_⟩
    · intro i
      rw [Network.step, hextra]
      exact (hnow.middles i).grow hnodup
    · intro r hr
      rw [Network.step, hextra]
      exact List.mem_append_left _ hr
  | pass i met =>
    have hreliable := reliable_pass score hsound hgrown hlegal
    exact ⟨hnow.middle ((hnow.middles i).pass score (hnode i) hreliable), fun r hr => hr⟩
  | restart i capacity =>
    refine ⟨hnow.middle ?_, fun r hr => hr⟩
    refine (hnow.middles i).of_less rfl ?_ fun _ _ hthere => hthere
    intro name v hv
    cases hv

/-- A network before anything is published. -/
def Network.new (maxDistributionFolders : Nat) (diskMirror : Bool) (ramCacheBytes : Nat)
    (path : Str) (files : Files) (capacity : Nat → Nat) : Network where
  catalogue :=
    { origin := .start maxDistributionFolders diskMirror ramCacheBytes path files .empty }
  middles := fun i => started (capacity i) .empty .empty

end

end Litecast.Relay
