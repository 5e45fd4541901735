import Litecast.Exchange
import Litecast.OriginFiles
import Litecast.Releases
import Litecast.VersionBuffer

/-! What a client downloads over HTTP of what an origin has published. -/

namespace Litecast.Downloads

open Releases

/-! ## A client on HTTP -/

/-- What an HTTP server has to answer with. -/
structure Site where
  store : CheckpointStore
  directories : OrderedDict Str VersionDirectory
  distribution : Option Bytes

section
variable [Library]

namespace Site

/-- What a `GET` of a shard file gets. -/
def shard (site : Site) (version : Str) (index : Nat) : Option Bytes :=
  match serveStore site.store (.ofChar '/' :: shardPath version index) with
  | some (.ok body) => some body
  | some (.error _ _) => none
  | none => (site.directories.get? version).bind fun directory => directory.shards.get? index

/-- What a client can get of the distribution file. -/
def listing (site : Site) : Option Bytes :=
  site.distribution.filter fun data => data.length ≤ maxDistributionBytes

/-- A client finds the version in the list. -/
def Listed (site : Site) (version : Str) : Prop :=
  ((listAvailableVersions site.listing).get? version).isSome = true

/-- All of its shards are served. -/
def Served (site : Site) (r : Release) : Prop :=
  ∀ index < r.shardCount, (site.shard r.version index).isSome = true

instance (site : Site) (version : Str) : Decidable (site.Listed version) :=
  inferInstanceAs (Decidable (_ = true))

instance (site : Site) (r : Release) : Decidable (site.Served r) :=
  inferInstanceAs (Decidable (∀ index < r.shardCount, _ = true))

/-- What there is of a release joins to its payload. -/
structure Keeps (site : Site) (r : Release) : Prop where
  line : ∀ info, (listAvailableVersions site.distribution).get? r.version = some info →
    info = Listing.info ⟨hexdigest r.payload, r.shardCount⟩
  shards : ∃ size, 0 < size ∧ shardCountOf r.payload.length size = r.shardCount ∧
    ∀ index < r.shardCount, ∀ shard, site.shard r.version index = some shard →
      shard = Pieces.piece size r.payload index

end Site

/-- Any attempts that fail, and one that gets the whole shard. -/
inductive Whole (shard : Bytes) : List HttpGet → Prop where
  | got (length : Option Int) (later : List HttpGet) (same : ∀ n ∈ length, n = shard.length) :
      Whole shard (.response length shard :: later)
  | retry (answer : HttpGet) (later : List HttpGet)
      (fails : ∀ target : Bytes, target.length = shard.length →
        (downloadIntoFrom target answer).1 = false)
      (rest : Whole shard later) : Whole shard (answer :: later)

/-- Each attempt fails or gets the file, and one gets it if it is there. -/
structure Fetches (file : Option Bytes) (attempts : List HttpGet) : Prop where
  each : ∀ answer ∈ attempts, (∃ written, answer = .failed written) ∨
    ∃ data ∈ file, ∃ length : Option Int, answer = .response length data ∧
      ∀ n ∈ length, n = data.length
  once : ∀ data ∈ file, ∃ length : Option Int, .response length data ∈ attempts

/-- The server answers with what it has. -/
structure AnsweredBy (site : Site) (version : Str) (answers : VersionAnswers) : Prop where
  distribution : ∃ attempts, Fetches site.distribution attempts ∧
    answers.distribution = downloadBytes (some maxDistributionBytes) attempts
  size : ∀ index, answers.size index = (site.shard version index).map List.length
  attempts : ∀ index shard, site.shard version index = some shard →
    Whole shard (answers.attempts index)

omit [Library] in
theorem exceeds_iff {most : Nat} {length : Option Int} {data : Bytes}
    (hsame : ∀ n ∈ length, n = data.length) :
    exceeds most length data = true ↔ most < data.length := by
  cases length with
  | none => simp [exceeds]
  | some n => simp [exceeds, hsame n rfl]

omit [Library] in
/-- A file is got whole, unless it is too large. -/
theorem Fetches.downloadBytes {file : Option Bytes} {attempts : List HttpGet}
    (h : Fetches file attempts) (most : Nat) :
    Litecast.downloadBytes (some most) attempts = file.filter fun data => data.length ≤ most := by
  obtain ⟨heach, honce⟩ := h
  -- only a file that is not too large has to be among the attempts still made
  replace honce : ∀ data ∈ file, data.length ≤ most →
      ∃ length : Option Int, .response length data ∈ attempts := fun data hdata _ => honce data hdata
  induction attempts with
  | nil =>
    rw [Litecast.downloadBytes, eq_comm, Option.filter_eq_none_iff]
    intro data hdata hfits
    obtain ⟨_, hmem⟩ := honce data hdata (by simpa using hfits)
    cases hmem
  | cons answer rest ih =>
    have hrest := fun answer hmem => heach answer (List.mem_cons_of_mem _ hmem)
    rcases heach answer List.mem_cons_self with ⟨written, rfl⟩ | ⟨data, hdata, length, rfl, hsame⟩
    · rw [Litecast.downloadBytes]
      apply ih hrest
      intro data hdata hfits
      obtain ⟨length, hmem⟩ := honce data hdata hfits
      exact ⟨length, (List.mem_cons.mp hmem).resolve_left (by simp)⟩
    · obtain rfl : file = some data := hdata
      rw [Litecast.downloadBytes, Option.any_some]
      by_cases hlarge : most < data.length
      · rw [if_pos ((exceeds_iff hsame).mpr hlarge)]
        apply ih hrest
        intro other hother hfits
        obtain rfl := Option.some.inj hother
        exact absurd hfits (Nat.not_le.mpr hlarge)
      · rw [if_neg (mt (exceeds_iff hsame).mp hlarge), Option.filter_some,
          if_pos (decide_eq_true (Nat.not_lt.mp hlarge))]

theorem AnsweredBy.listing {site : Site} {version : Str} {answers : VersionAnswers}
    (h : AnsweredBy site version answers) : answers.distribution = site.listing := by
  obtain ⟨attempts, hfetches, hanswer⟩ := h.distribution
  rw [hanswer, hfetches.downloadBytes, Site.listing]

/-- What is listed to a client is in the file. -/
theorem Keeps.listed {site : Site} {r : Release} (h : site.Keeps r) {info : Str}
    (hinfo : (listAvailableVersions site.listing).get? r.version = some info) :
    info = Listing.info ⟨hexdigest r.payload, r.shardCount⟩ := by
  apply h.line
  cases hfile : site.listing with
  | none =>
    rw [hfile] at hinfo
    cases hinfo
  | some data =>
    rw [hfile] at hinfo
    rwa [(Option.filter_eq_some_iff.mp hfile).1]

omit [Library] in
theorem Whole.downloadInto {shard : Bytes} {attempts : List HttpGet} (h : Whole shard attempts)
    {target : Bytes} (hlength : target.length = shard.length) :
    downloadInto target attempts = (true, shard) := by
  induction h generalizing target with
  | got length later same =>
    have hsame : ¬ (length.any (· ≠ (target.length : Int))) = true := by
      cases length with
      | none => simp
      | some n => simp [same n rfl, hlength]
    have hwhole : overwrite target shard = shard := by
      simp [overwrite, Pieces.write, hlength]
    rw [Litecast.downloadInto, downloadIntoFrom, if_neg hsame, hwhole, decide_eq_true hlength.symm]
  | retry answer later fails rest ih =>
    have hfails := fails target hlength
    have hkept := length_downloadIntoFrom target answer
    rw [Litecast.downloadInto]
    generalize downloadIntoFrom target answer = attempt at hfails hkept ⊢
    obtain ⟨success, after⟩ := attempt
    simp only at hfails hkept
    subst hfails
    exact ih (hkept.trans hlength)

omit [Library] in
theorem mapM_some {f : Nat → Option Nat} {g : Nat → Nat} {indices : List Nat}
    (h : ∀ index ∈ indices, f index = some (g index)) :
    indices.mapM f = some (indices.map g) := by
  induction indices with
  | nil => rfl
  | cons index rest ih =>
    rw [List.mapM_cons, h index List.mem_cons_self,
      ih fun other hother => h other (List.mem_cons_of_mem index hother)]
    rfl

omit [Library] in
theorem mapM_none {f : Nat → Option Nat} {indices : List Nat} {index : Nat}
    (hmem : index ∈ indices) (h : f index = none) : indices.mapM f = none := by
  induction indices with
  | nil => cases hmem
  | cons first rest ih =>
    rw [List.mapM_cons]
    cases hfirst : f first with
    | none => rfl
    | some n =>
      rcases List.mem_cons.mp hmem with rfl | hrest
      · rw [h] at hfirst
        cases hfirst
      · rw [ih hrest]
        rfl

omit [Library] in
theorem zipIdx_map_range {α β : Type} (n : Nat) (f : Nat → α) (g : α × Nat → β) :
    ((List.range n).map f).zipIdx.map g = (List.range n).map fun index => g (f index, index) := by
  apply List.ext_getElem
  · simp
  · intro i hleft hright
    simp

/-- With all shards served a client that has room gets the payload. -/
theorem downloadListed_served {client : ClientNode} {site : Site} {r : Release} {size : Nat}
    {answers : VersionAnswers} (hanswered : AnsweredBy site r.version answers) (hsize : 0 < size)
    (hcount : shardCountOf r.payload.length size = r.shardCount)
    (hserved : ∀ index < r.shardCount,
      site.shard r.version index = some (Pieces.piece size r.payload index)) :
    client.downloadListed (hexdigest r.payload) r.shardCount answers =
      if r.payload.length ≤ client.maxVersionBytes then some r.payload else none := by
  have hsizes : (List.range r.shardCount).mapM answers.size =
      some ((List.range r.shardCount).map fun index =>
        (Pieces.piece size r.payload index).length) := by
    apply mapM_some
    intro index hindex
    rw [hanswered.size, hserved index (List.mem_range.mp hindex)]
    rfl
  have hslices : ((List.range r.shardCount).map fun index =>
      downloadInto (List.replicate (Pieces.piece size r.payload index).length 0)
        (answers.attempts index)) =
      (List.range r.shardCount).map fun index => (true, Pieces.piece size r.payload index) := by
    apply List.map_congr_left
    intro index hindex
    have hshard := hserved index (List.mem_range.mp hindex)
    exact (hanswered.attempts index _ hshard).downloadInto List.length_replicate
  rw [shardCountOf_eq_ceilDiv] at hcount
  have hsum : ((List.range r.shardCount).map fun index =>
      (Pieces.piece size r.payload index).length).sum = r.payload.length := by
    rw [← hcount, Pieces.sum_length_pieces hsize]
  have hjoined : (List.range r.shardCount).flatMap (fun index =>
      Pieces.piece size r.payload index) = r.payload := by
    have hflat := Pieces.flatten_slices (Pieces.consecutive_spans hsize r.payload.length)
      (l := r.payload) le_rfl
    rw [Pieces.slice_all, Pieces.spans, List.map_map, hcount] at hflat
    rw [List.flatMap_def]
    exact hflat
  simp only [ClientNode.downloadListed, hsizes, Option.bind_eq_bind, Option.bind_some, hsum,
    zipIdx_map_range, hslices]
  by_cases hfits : r.payload.length ≤ client.maxVersionBytes
  · rw [if_neg (Nat.not_lt.mpr hfits), if_pos hfits]
    simp [List.flatMap_map, hjoined]
  · rw [if_pos (Nat.lt_of_not_le hfits), if_neg hfits]

/-- With a shard missing it gets nothing. -/
theorem downloadListed_missing {client : ClientNode} {site : Site} {version checksum : Str}
    {answers : VersionAnswers} (hanswered : AnsweredBy site version answers) {index count : Nat}
    (hindex : index < count) (hmissing : site.shard version index = none) :
    client.downloadListed checksum count answers = none := by
  have hsizes : (List.range count).mapM answers.size = none := by
    apply mapM_none (List.mem_range.mpr hindex)
    rw [hanswered.size, hmissing]
    rfl
  simp only [ClientNode.downloadListed, hsizes, Option.bind_eq_bind, Option.bind_none]

/-- Over HTTP a release is whole or not there. -/
theorem over_http {client : ClientNode} {site : Site} {r : Release} {answers : VersionAnswers}
    (hkeeps : site.Keeps r) (hanswered : AnsweredBy site r.version answers) :
    client.downloadListed (hexdigest r.payload) r.shardCount answers =
      if site.Served r ∧ r.payload.length ≤ client.maxVersionBytes then some r.payload
      else none := by
  obtain ⟨size, hsize, hcount, hpiece⟩ := hkeeps.shards
  by_cases hall : site.Served r
  · have hpieces : ∀ index < r.shardCount,
        site.shard r.version index = some (Pieces.piece size r.payload index) := by
      intro index hindex
      obtain ⟨shard, hshard⟩ := Option.isSome_iff_exists.mp (hall index hindex)
      rw [hshard, hpiece index hindex shard hshard]
    rw [downloadListed_served hanswered hsize hcount hpieces]
    simp only [hall, true_and]
  · have hnot : ¬ (site.Served r ∧ r.payload.length ≤ client.maxVersionBytes) :=
      fun hboth => hall hboth.1
    simp only [Site.Served] at hall
    push Not at hall
    obtain ⟨index, hindex, hmissing⟩ := hall
    rw [downloadListed_missing hanswered hindex (by simpa using hmissing), if_neg hnot]

/-- The line of a release, as a client reads it. -/
theorem info_release (r : Release) :
    let info := Listing.info ⟨hexdigest r.payload, r.shardCount⟩
    .ofChar '|' ∈ info ∧ (partition (.ofChar '|') info).1 = hexdigest r.payload ∧
      intOf? (partition (.ofChar '|') info).2 = some (r.shardCount : Int) := by
  intro info
  have hinfo : info = hexdigest r.payload ++ .ofChar '|' :: decimal r.shardCount := by
    simp only [info, Listing.info, List.append_assoc]
    rfl
  have hbar : CodePoint.ofChar '|' ∉ hexdigest r.payload := by
    intro hmem
    have := hex_isHexDigit _ _ hmem
    exact absurd this (by decide)
  rw [hinfo, Utils.partition_middle hbar]
  exact ⟨by simp, rfl, intOf?_decimal r.shardCount⟩

/-- What a client with one server makes of the line. -/
theorem by_line {S : Type} [LinearOrder S] (score : Str → Nat → Str → MemberProfile → S)
    {site : Site} {r : Release} (hkeeps : site.Keeps r) {client : ClientNode}
    (hone : client.servers.length < 2) (nestingLimit : Nat) {answers : VersionAnswers}
    (hanswered : AnsweredBy site r.version answers) :
    client.downloadVersionBuffer score nestingLimit r.version answers =
      if site.Listed r.version then
        client.downloadUnstreamed r.version (hexdigest r.payload) r.shardCount answers
      else .ok none := by
  by_cases hlisted : site.Listed r.version
  · obtain ⟨info, hline⟩ := Option.isSome_iff_exists.mp hlisted
    obtain rfl := Keeps.listed hkeeps hline
    obtain ⟨hbar, hchecksum, hnumber⟩ := info_release r
    have hmatches : Ucxx.matchesChecksum (partition (.ofChar '|')
        (Listing.info ⟨hexdigest r.payload, r.shardCount⟩)).1 = true := by
      rw [hchecksum]
      exact Ucxx.matchesChecksum_hexdigest r.payload
    rw [ClientNode.downloadVersionBuffer_of_line (hanswered.listing ▸ hline) hbar hmatches
      hnumber, hchecksum, ClientNode.downloadCounted_of_one hone, if_pos hlisted]
  · have hline : (listAvailableVersions answers.distribution).get? r.version = none := by
      rw [hanswered.listing]
      simpa [Site.Listed] using hlisted
    simp only [ClientNode.downloadVersionBuffer, hline, if_neg hlisted]

omit [Library] in
/-- No shard is empty. -/
theorem shardCount_le {r : Release} (hsize : 0 < r.shardSize) :
    r.shardCount ≤ r.payload.length := by
  rw [Release.shardCount, shardCountOf_eq_ceilDiv, ceilDiv_le_iff_le_mul hsize]
  exact Nat.le_mul_of_pos_left _ hsize

omit [Library] in
/-- Where there is memory for the version there is for its list of shards. -/
theorem enough_memory {client : ClientNode} {r : Release} (hsize : 0 < r.shardSize) (c : Prop)
    [Decidable c] :
    (if client.maxVersionBytes < r.shardCount then none
      else if c ∧ r.payload.length ≤ client.maxVersionBytes then some r.payload else none) =
      if c ∧ r.payload.length ≤ client.maxVersionBytes then some r.payload else none := by
  split_ifs with hmany hfits
  · have := shardCount_le hsize
    omega
  · rfl
  · rfl
  · rfl

/-- A client that is not told of UCXX, or may not use it. -/
def UsesHttp (client : ClientNode) (answers : VersionAnswers) : Prop :=
  client.transport = .http ∨ client.transport = .auto ∧
    ¬ (answers.endpoint.any fun e => e.ucxx && e.verifiedRdma) = true

instance (client : ClientNode) (answers : VersionAnswers) : Decidable (UsesHttp client answers) :=
  inferInstanceAs (Decidable (_ ∨ _))

/-- Without a UCXX endpoint the shards are asked for over HTTP. -/
theorem downloadUnstreamed_http {client : ClientNode} {version checksum : Str} {count : Nat}
    (hcount : count ≤ 99999) {answers : VersionAnswers} (hhttp : UsesHttp client answers) :
    client.downloadUnstreamed version checksum count answers =
      .ok (if client.maxVersionBytes < count then none
        else client.downloadListed checksum count answers) := by
  have hlimits : ((count : Int) < 0 ∨ maxListedShards < (count : Int) ∨
      (client.maxVersionBytes : Int) < count) ↔ client.maxVersionBytes < count := by
    rw [maxListedShards]
    omega
  have hadvertised : ¬ (client.transport ≠ .http ∧
      (answers.endpoint.any fun e => e.ucxx && e.verifiedRdma) = true) := by
    rintro ⟨hmode, hthere⟩
    rcases hhttp with hhttp | ⟨-, hnone⟩
    · exact hmode hhttp
    · exact hnone hthere
  have hmode : client.transport ≠ .ucxx := by
    rcases hhttp with hhttp | ⟨hauto, -⟩
    · simp [hhttp]
    · simp [hauto]
  rw [ClientNode.downloadUnstreamed]
  simp only [hlimits, hadvertised, hmode, false_and, if_false, Int.toNat_natCast]
  split_ifs <;> rfl

/-- A client on HTTP gets a release that a server keeps, or nothing. -/
theorem download_kept {S : Type} [LinearOrder S] (score : Str → Nat → Str → MemberProfile → S)
    {site : Site} {r : Release} (hkeeps : site.Keeps r) (hsize : 0 < r.shardSize)
    (hcount : r.shardCount ≤ 99999) {client : ClientNode} (hone : client.servers.length < 2)
    (nestingLimit : Nat) {answers : VersionAnswers}
    (hanswered : AnsweredBy site r.version answers) (hhttp : UsesHttp client answers) :
    client.downloadVersionBuffer score nestingLimit r.version answers =
      .ok (if (site.Listed r.version ∧ site.Served r) ∧
          r.payload.length ≤ client.maxVersionBytes then some r.payload else none) := by
  rw [by_line score hkeeps hone nestingLimit hanswered]
  by_cases hlisted : site.Listed r.version
  · have hunstreamed : client.downloadUnstreamed r.version (hexdigest r.payload) r.shardCount
        answers = _ := downloadUnstreamed_http hcount hhttp
    rw [if_pos hlisted, hunstreamed, over_http hkeeps hanswered, enough_memory hsize]
    simp only [hlisted, true_and]
  · simp only [hlisted, false_and, if_false]

/-! ## The releases of an origin -/

/-- An origin, and what its calls have published. -/
structure Catalogue where
  origin : DiskOrigin
  releases : List Release := []

namespace Catalogue

/-- What a call publishes when it returns. -/
def released (version : Str) : DiskOrigin.Event → List Release
  | .call c => [⟨version, c.payload, c.shardSize.toNat⟩]
  | .restart .. => []

def step (p : Catalogue) (event : DiskOrigin.Event) : Catalogue :=
  match p.origin.step event with
  | (some (.ok version), origin) => { origin, releases := p.releases ++ released version event }
  | (_, origin) => { p with origin }

/-- The origin refines one that keeps its lines in a dictionary, and what is
there of each release is what was published. -/
structure Sound (files : Files) (path : Str) (p : Catalogue) (s : OriginServer) : Prop where
  refines : DiskOrigin.Refines files path p.origin s
  numbered : OriginServer.Numbered ⟨s, p.releases.map Release.version⟩
  intact : ∀ r ∈ p.releases, 0 < r.shardSize → Intact s r
  certified : s.store.Every Certified
  published : ∀ name, (s.distribution.get? name).isSome = true → ∃ r ∈ p.releases, r.version = name

/-- No release has the number of the next version. -/
theorem Sound.fresh {files : Files} {path : Str} {p : Catalogue} {s : OriginServer}
    (h : Sound files path p s) {r : Release} (hr : r ∈ p.releases) :
    r.version ≠ s.nextVersion := by
  obtain ⟨numbers, hreturned, -, hreserved⟩ := h.numbered.increasing
  have hmem : r.version ∈ numbers.map versionName := hreturned ▸ List.mem_map_of_mem hr
  obtain ⟨n, hn, hname⟩ := List.mem_map.mp hmem
  intro heq
  have hkey := congrArg versionKey (hname.trans heq)
  rw [OriginServer.nextVersion, versionKey_versionName, versionKey_versionName] at hkey
  have hlt : n < s.nextNumber := (hreserved n hn).lt
  omega

variable {files : Files} {path : Str} {p : Catalogue} {s : OriginServer}
  (hlower : ∀ data, lower (hexdigest data) = hexdigest data)
include hlower

theorem Sound.call (h : Sound files path p s) (c : OriginServer.Call) :
    Sound files path (p.step (.call c)) (s.call c) := by
  have hs := h.numbered.orderly
  obtain ⟨hreturned, hrefines⟩ := h.refines.call hlower hs c
  have hnumbered := h.numbered.call c {}
  have hkept : ∀ r ∈ p.releases, 0 < r.shardSize → Intact (s.call c) r := by
    intro r hr hsize
    exact (h.intact r hr hsize).call hs (h.fresh hr) c
  have hpublished : ∀ version, (c.run s).1 = .ok version → 0 < c.shardSize →
      Intact (s.call c) ⟨version, c.payload, c.shardSize.toNat⟩ := fun version hrun hsize =>
    call_intact hlower hs hrun hsize
  have hcertified := certified_call hlower h.certified c
  have hlisted : ∀ name, ((s.call c).distribution.get? name).isSome = true →
      (s.distribution.get? name).isSome = true ∨ (c.run s).1 = .ok name :=
    fun _ => listed_call hs c
  simp only [OriginServer.Publications.step, OriginServer.runWith_none] at hnumbered
  simp only [step, DiskOrigin.step]
  unfold OriginServer.call at hrefines hkept hpublished hcertified hlisted ⊢
  generalize p.origin.call c = returned at hreturned hrefines ⊢
  generalize c.run s = outcome at hreturned hrefines hkept hpublished hnumbered hcertified hlisted ⊢
  obtain ⟨result, t⟩ := outcome
  obtain ⟨result', origin⟩ := returned
  simp only at hreturned
  subst hreturned
  cases result' with
  | error e =>
    refine ⟨hrefines, hnumbered, hkept, hcertified, ?_⟩
    intro name hname
    rcases hlisted name hname with hbefore | hraised
    · exact h.published name hbefore
    · cases hraised
  | ok version =>
    refine ⟨hrefines, ?_, ?_, hcertified, ?_⟩
    · simpa [released] using hnumbered
    · intro r hr hsize
      rcases List.mem_append.mp hr with hr | hr
      · exact hkept r hr hsize
      · obtain rfl := List.mem_singleton.mp hr
        exact hpublished version rfl (Int.lt_toNat.mp (by simpa using hsize))
    · intro name hname
      rcases hlisted name hname with hbefore | hreturned
      · obtain ⟨r, hr, hnamed⟩ := h.published name hbefore
        exact ⟨r, List.mem_append_left _ hr, hnamed⟩
      · obtain rfl := Except.ok.inj hreturned
        exact ⟨_, List.mem_append_right _ (List.mem_singleton.mpr rfl), rfl⟩

theorem Sound.step (h : Sound files path p s) {event : DiskOrigin.Event} (hlegal : event.Legal) :
    ∃ t, Sound files path (p.step event) t := by
  cases event with
  | call c => exact ⟨_, h.call hlower c⟩
  | restart maxDistributionFolders diskMirror ramCacheBytes =>
    refine ⟨s.restart maxDistributionFolders diskMirror ramCacheBytes, h.refines.restart _ _ _,
      ?_, ?_, CheckpointStore.every_new _, h.published⟩
    · have hs := h.numbered.orderly
      exact ⟨⟨CheckpointStore.ledger_new _, CheckpointStore.every_new _, hs.inOrder, hlegal⟩,
        h.numbered.increasing⟩
    · intro r hr hsize
      exact (h.intact r hr hsize).restart _ _ _

end Catalogue

/-! ## At any time -/

omit [Library] in
theorem versionName_plain (n : Nat) : versionName n ≠ [] ∧
    .ofChar '/' ∉ versionName n ∧ .ofChar '?' ∉ versionName n := by
  have hdigits : ∀ c ∈ decimal n, c ≠ .ofChar '/' ∧ c ≠ .ofChar '?' := by
    intro c hc
    have hbounds := Utils.isDigit_bounds (JsonText.isDigit_decimal n c hc)
    constructor
    · rintro rfl
      exact absurd hbounds (by decide)
    · rintro rfl
      exact absurd hbounds (by decide)
  refine ⟨List.cons_ne_nil _ _, ?_, ?_⟩
  · intro hmem
    rcases List.mem_append.mp hmem with hmem | hmem
    · exact absurd (List.mem_singleton.mp hmem) (by decide)
    · exact (hdigits _ hmem).1 rfl
  · intro hmem
    rcases List.mem_append.mp hmem with hmem | hmem
    · exact absurd (List.mem_singleton.mp hmem) (by decide)
    · exact (hdigits _ hmem).2 rfl

theorem Site.shard_eq {site : Site} {version : Str} (hname : ∃ n, version = versionName n)
    {index : Nat} (hindex : index < 99999) :
    site.shard version index = servedShard site.store site.directories version index := by
  obtain ⟨n, rfl⟩ := hname
  obtain ⟨hne, hslash, hquery⟩ := versionName_plain n
  rw [servedShard_eq_answer site.store site.directories hne hslash hquery hindex]
  rfl

/-- The HTTP server of an origin. -/
def originSite (t : DiskOrigin) : Site := ⟨t.store, t.directories, t.files t.path⟩

namespace Catalogue

variable {files : Files} {path : Str} {p : Catalogue} {s : OriginServer} {r : Release}

theorem Sound.listings (h : p.Sound files path s) :
    listAvailableVersions (p.origin.files p.origin.path) =
      s.distribution.mapValues Listing.info := by
  obtain ⟨data, hdata, hfiles⟩ := h.refines.holds
  have hfile : p.origin.files p.origin.path = some data := by
    rw [hfiles, h.refines.located, Function.update_self]
  rw [hfile]
  exact (h.refines.tidy.read hdata).2

theorem Sound.named (h : p.Sound files path s) (hr : r ∈ p.releases) :
    ∃ n, r.version = versionName n := by
  obtain ⟨numbers, hreturned, -⟩ := h.numbered.increasing
  have hmem : r.version ∈ numbers.map versionName := hreturned ▸ List.mem_map_of_mem hr
  obtain ⟨n, -, hn⟩ := List.mem_map.mp hmem
  exact ⟨n, hn.symm⟩

theorem Sound.keeps (h : p.Sound files path s) (hr : r ∈ p.releases) (hsize : 0 < r.shardSize)
    (hcount : r.shardCount ≤ 99999) : (originSite p.origin).Keeps r where
  line := by
    intro info hinfo
    rw [originSite, h.listings, OrderedDict.get?_mapValues] at hinfo
    obtain ⟨listing, hlisted, rfl⟩ := Option.map_eq_some_iff.mp hinfo
    rw [(h.intact r hr hsize).line listing hlisted]
  shards := by
    refine ⟨r.shardSize, hsize, rfl, ?_⟩
    intro index hindex shard hshard
    rw [Site.shard_eq (h.named hr) (by omega), originSite, h.refines.store,
      h.refines.directories] at hshard
    exact served_piece (h.intact r hr hsize) hindex hshard

end Catalogue

end

end Litecast.Downloads
