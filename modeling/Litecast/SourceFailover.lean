import Litecast.Bundles
import Litecast.Exchange
import Litecast.Fetching
import Litecast.VersionBuffer

/-! When a group of sources that fails only leads to the next. -/

namespace Litecast

/-! ## What is caught -/

/-- Whatever this raises is caught. -/
def Guarded {α : Type} (result : Except Exc α) : Prop := ∀ e, result = .error e → caught e = true

section
variable {α β : Type}

theorem guarded_ok (a : α) : Guarded (.ok a : Except Exc α) := by
  intro e h
  cases h

theorem guarded_error {e : Exc} (h : caught e = true) : Guarded (.error e : Except Exc α) := by
  rintro _ ⟨rfl⟩
  exact h

theorem Guarded.bind {result : Except Exc α} {f : α → Except Exc β} (h : Guarded result)
    (hf : ∀ a, result = .ok a → Guarded (f a)) : Guarded (result >>= f) := by
  cases result with
  | error e => exact guarded_error (h e rfl)
  | ok a => exact hf a rfl

theorem Guarded.map {result : Except Exc α} (h : Guarded result) (f : α → β) :
    Guarded (f <$> result) := by
  cases result with
  | error e => exact guarded_error (h e rfl)
  | ok a => exact guarded_ok (f a)

/-- This raises what is not caught. -/
def Escapes (result : Except Exc α) : Prop := ∃ e, result = .error e ∧ caught e = false

theorem Guarded.not_escapes {result : Except Exc α} (h : Guarded result) : ¬ Escapes result := by
  rintro ⟨e, he, huncaught⟩
  rw [h e he] at huncaught
  cases huncaught

theorem not_escapes_ok (a : α) : ¬ Escapes (.ok a : Except Exc α) := (guarded_ok a).not_escapes

theorem escapes_bind {result : Except Exc α} {f : α → Except Exc β} :
    Escapes (result >>= f) ↔ Escapes result ∨ ∃ a, result = .ok a ∧ Escapes (f a) := by
  cases result with
  | error e =>
    constructor
    · rintro ⟨_, ⟨rfl⟩, h⟩
      exact Or.inl ⟨e, rfl, h⟩
    · rintro (⟨_, ⟨rfl⟩, h⟩ | ⟨a, ha, -⟩)
      · exact ⟨e, rfl, h⟩
      · cases ha
  | ok a =>
    constructor
    · exact fun h => Or.inr ⟨a, rfl, h⟩
    · rintro (h | ⟨_, ⟨rfl⟩, h⟩)
      · exact absurd h (not_escapes_ok a)
      · exact h

end

/-! ## Streaming -/

theorem canonicalMembers_guarded (members : List Str) : Guarded (canonicalMembers members) := by
  rw [canonicalMembers]
  split
  · exact guarded_error rfl
  · exact guarded_ok _

namespace ClientNode

theorem checkMembership_guarded (client : ClientNode) (m : ShardManifest) :
    Guarded (client.checkMembership m) := by
  rw [checkMembership]
  split
  · exact guarded_ok _
  · apply (canonicalMembers_guarded client.servers).bind
    intro servers _
    split
    · exact guarded_error rfl
    · exact guarded_ok _

theorem membership_guarded (client : ClientNode) (m : ShardManifest) :
    Guarded (client.membership m) := by
  rw [membership]
  split
  · exact (canonicalMembers_guarded client.servers).bind fun _ _ => guarded_ok _
  · exact guarded_ok _

section
variable [Library] {S : Type} [LinearOrder S] {score : Str → Nat → Str → MemberProfile → S}

/-- Once there is a membership every shard has an owner. -/
theorem askedOwners_nonempty {client : ClientNode} {m : ShardManifest} (hm : m.Consistent)
    {among : List Str × Nat} (h : client.membership m = .ok among) (index : Nat) :
    ∃ owner rest, client.askedOwners score m index = .ok (owner :: rest) := by
  have howners : ∃ owners, client.owners score m index = .ok owners ∧ owners ≠ [] := by
    rw [ClientNode.owners, h]
    by_cases hmembers : m.members = []
    · rw [membership, if_pos hmembers] at h
      obtain ⟨servers, hservers, h⟩ := bind_eq_ok.mp h
      obtain rfl := Except.ok.inj h
      have hempty : m.profiles = .obj [] := by
        have hnone := hm.profiles
        rw [hmembers, List.map_eq_nil_iff] at hnone
        rw [ShardManifest.profiles, hnone]
        rfl
      have hcanonical := canonicalMembers_idem hservers
      have hpos := List.length_pos_iff.mpr (canonicalMembers_eq_ok.mp hcanonical).2.1
      obtain ⟨owners, howners, hlength, -⟩ := shardOwners_of_profiles score hcanonical
        (canonicalMemberProfiles_empty hcanonical) hpos le_rfl m.name index
      refine ⟨owners, hempty ▸ howners, ?_⟩
      rintro rfl
      exact absurd hpos (by simp [← hlength])
    · rw [membership, if_neg hmembers] at h
      obtain rfl := Except.ok.inj h
      obtain ⟨owners, howners, hlength, -⟩ := shardOwners_spec score
        (hm.members_canonical.resolve_left hmembers) hm.profiles hm.factor_pos
        (hm.factor_le.resolve_left hmembers) m.name index
      refine ⟨owners, howners, ?_⟩
      rintro rfl
      exact absurd hm.factor_pos (by simp [← hlength])
  obtain ⟨owners, howners, hne⟩ := howners
  have hperm := orderOwnersForClient_perm owners m.profiles client.clientLocality
  rw [askedOwners, howners]
  cases hasked : orderOwnersForClient owners m.profiles client.clientLocality with
  | nil =>
    rw [hasked] at hperm
    exact absurd hperm.symm.eq_nil hne
  | cons owner rest => exact ⟨owner, rest, congrArg Except.ok hasked⟩

theorem receive_guarded {client : ClientNode} {m : ShardManifest} {index : Nat}
    (howners : ∃ owner rest, client.askedOwners score m index = .ok (owner :: rest))
    (rounds : List Round) (target : Bytes) :
    Guarded (client.receive score m index rounds target).1 := by
  obtain ⟨owner, rest, howners⟩ := howners
  rw [receive, howners]
  simp only
  induction rounds generalizing target with
  | nil => exact guarded_error rfl
  | cons round later ih =>
    rw [askRounds]
    split
    · exact guarded_ok index
    · exact ih _

theorem receiveAll_guarded {client : ClientNode} {m : ShardManifest}
    (howners : ∀ index, ∃ owner rest, client.askedOwners score m index = .ok (owner :: rest))
    (rounds : Nat → List Round) (indices : List Nat) (s : Selection) :
    Guarded (client.receiveAll score m rounds indices s).1 := by
  induction indices generalizing s with
  | nil => exact guarded_ok []
  | cons index rest ih =>
    have hfirst := receive_guarded (howners index) (rounds index) (s.target m index)
    rw [receiveAll]
    split
    next e bytes hreceive =>
      rw [hreceive] at hfirst
      exact guarded_error (hfirst e rfl)
    · exact (ih _).map _

theorem receiveBatch_guarded {client : ClientNode} {m : ShardManifest}
    (howners : ∀ index, ∃ owner rest, client.askedOwners score m index = .ok (owner :: rest))
    (batch : Batch) (answers : BatchAnswers) (s : Selection) :
    Guarded (client.receiveBatch score m batch answers s).1 := by
  simp only [receiveBatch]
  split
  · exact receiveAll_guarded howners answers.rounds batch.indices s
  split
  · exact receiveAll_guarded howners answers.rounds batch.indices _
  · exact (receiveAll_guarded howners answers.rounds _ _).map _

theorem asCompleted_guarded {client : ClientNode} {m : ShardManifest}
    (howners : ∀ index, ∃ owner rest, client.askedOwners score m index = .ok (owner :: rest))
    (turns : List Turn) (p : Progress) : Guarded (client.asCompleted score m turns p) := by
  induction turns generalizing p with
  | nil => exact guarded_ok p
  | cons turn rest ih =>
    simp only [asCompleted]
    split
    next e s hbatch =>
      have hfirst := receiveBatch_guarded howners turn.batch turn.answers
        (writeMeanwhile m ((turn :: rest).flatMap fun turn => turn.batch.indices) turn.meanwhile
          p.selection)
      rw [hbatch] at hfirst
      exact guarded_error (hfirst e rfl)
    · exact ih _

theorem batches_guarded {client : ClientNode} {m : ShardManifest}
    (howners : ∀ index, ∃ owner rest, client.askedOwners score m index = .ok (owner :: rest))
    (selected : List Nat) : Guarded (client.batches score m selected) := by
  have hgroups (groups : OrderedDict Str (List Nat)) : Guarded (selected.foldlM (fun groups index => do
      let owner ← client.preferredOwner score m index
      return groups.insert owner ((groups.get? owner).getD [] ++ [index])) groups) := by
    induction selected generalizing groups with
    | nil => exact guarded_ok groups
    | cons index rest ih =>
      obtain ⟨owner, others, hasked⟩ := howners index
      have hpreferred : client.preferredOwner score m index = .ok owner := by
        rw [preferredOwner, hasked]
        rfl
      rw [List.foldlM_cons, hpreferred]
      exact ih _
  exact (hgroups .empty).bind fun _ _ => guarded_ok _

theorem downloadStreaming_guarded (client : ClientNode) {m : ShardManifest} (hm : m.Consistent)
    (targets : Option Ucxx.Targets) (schedule : Schedule) :
    Guarded (client.downloadStreaming score m targets schedule) := by
  have haccepted (p : Progress) : Guarded (accepted m p) := by
    rw [accepted]
    split
    · exact guarded_ok _
    next root _ hroot =>
      have hcurrent : m.schema.eqInt 2 = true := by
        by_contra hlegacy
        rw [(hm.legacy (Bool.eq_false_iff.mpr hlegacy)).1] at hroot
        cases hroot
      obtain ⟨root', -, -, hmerkle⟩ := hm.current hcurrent
      rw [hmerkle]
      exact guarded_ok _
    · exact guarded_ok _
  rw [downloadStreaming]
  split
  · exact guarded_ok none
  apply (client.checkMembership_guarded m).bind
  intro _ _
  apply (client.membership_guarded m).bind
  intro among hamong
  have howners : ∀ index, ∃ owner rest, client.askedOwners score m index = .ok (owner :: rest) :=
    askedOwners_nonempty hm hamong
  split
  next e hrun =>
    let s : Selection := targets.elim (.whole (List.replicate m.totalSize 0)) Selection.targets
    have hguarded := (batches_guarded howners (s.indices m)).bind fun batches _ =>
      asCompleted_guarded howners (schedule.turns batches) { selection := s }
    split
    · exact guarded_error (hguarded e hrun)
    · exact guarded_ok none
  · apply (haccepted _).bind
    intro accept _
    cases accept with
    | true => exact guarded_ok _
    | false => exact guarded_ok _

theorem streamVersion_guarded (client : ClientNode) {m : ShardManifest} (hm : m.Consistent)
    (schedule : Schedule) : Guarded (client.streamVersion score m schedule) := by
  apply (client.downloadStreaming_guarded hm none schedule).bind
  intro progress _
  split
  · exact guarded_ok _
  · exact guarded_ok _

/-! ## The three paths -/

/-- The line of the version names a checksum and a number of shards. -/
def Listed (version : Str) (answers : VersionAnswers) (checksum : Str) (shardCount : Int) : Prop :=
  ∃ info, (listAvailableVersions answers.distribution).get? version = some info ∧
    .ofChar '|' ∈ info ∧ (partition (.ofChar '|') info).1 = checksum ∧
    Ucxx.matchesChecksum checksum = true ∧ intOf? (partition (.ofChar '|') info).2 = some shardCount

def ReadsManifests (client : ClientNode) (version : Str) (answers : VersionAnswers) : Prop :=
  client.transport = .http ∨
    2 ≤ client.servers.length ∧ ∃ checksum shardCount, Listed version answers checksum shardCount

/-- In `ucxx` mode there is no manifest to stream from, and a middle to fetch the
whole version from. -/
def LeftToUcxx (client : ClientNode) (nestingLimit : Nat) (version : Str)
    (answers : VersionAnswers) : Prop :=
  client.transport = .ucxx ∧ (answers.endpoint.any fun e => e.ucxx && e.verifiedRdma) = true ∧
    client.streamingManifest nestingLimit version answers = .ok none ∧
    ∃ checksum shardCount, Listed version answers checksum shardCount ∧ 0 ≤ shardCount ∧
      shardCount ≤ maxListedShards ∧ shardCount ≤ client.maxVersionBytes

/-- The answers make the client read a manifest that raises what is not caught, or
fetch over UCXX what raises so. -/
def Unguarded (client : ClientNode) (nestingLimit : Nat) (version : Str)
    (answers : VersionAnswers) : Prop :=
  (client.ReadsManifests version answers ∧
      Escapes (loadShardManifest nestingLimit version answers.manifests)) ∨
    (client.LeftToUcxx nestingLimit version answers ∧
      Escapes (Ucxx.fetchVersion answers.peer version client.maxVersionBytes))

theorem fetchListed_escapes_iff {client : ClientNode} {version checksum : Str} {shardCount : Int}
    {peer : Ucxx.Peer} :
    Escapes (client.fetchListed version checksum shardCount peer) ↔
      Escapes (Ucxx.fetchVersion peer version client.maxVersionBytes) := by
  rw [fetchListed, escapes_bind]
  apply or_iff_left
  rintro ⟨result, -, hescapes⟩
  split at hescapes
  · exact (guarded_error rfl).not_escapes hescapes
  · exact not_escapes_ok _ hescapes

theorem downloadUnstreamed_escapes_iff {client : ClientNode} {version checksum : Str}
    {shardCount : Int} {answers : VersionAnswers} :
    Escapes (client.downloadUnstreamed version checksum shardCount answers) ↔
      (0 ≤ shardCount ∧ shardCount ≤ maxListedShards ∧ shardCount ≤ client.maxVersionBytes) ∧
        client.transport = .ucxx ∧ (answers.endpoint.any fun e => e.ucxx && e.verifiedRdma) = true ∧
        Escapes (Ucxx.fetchVersion answers.peer version client.maxVersionBytes) := by
  have hfetch : Escapes (client.fetchListed version checksum shardCount answers.peer) ↔
      Escapes (Ucxx.fetchVersion answers.peer version client.maxVersionBytes) :=
    fetchListed_escapes_iff
  rw [← hfetch]
  constructor
  · intro hescapes
    simp only [downloadUnstreamed] at hescapes
    split at hescapes
    · exact absurd hescapes (not_escapes_ok none)
    split at hescapes
    · exact absurd hescapes (guarded_error rfl).not_escapes
    split at hescapes
    next hadvertised =>
      split at hescapes
      · exact absurd hescapes (not_escapes_ok _)
      · split at hescapes
        next hrange _ e hfetched hmode =>
          refine ⟨by omega, hmode, hadvertised.2, ?_⟩
          obtain ⟨_, ⟨rfl⟩, huncaught⟩ := hescapes
          exact ⟨e, hfetched, huncaught⟩
        · exact absurd hescapes (not_escapes_ok _)
    · exact absurd hescapes (not_escapes_ok _)
  · rintro ⟨hrange, hmode, hadvertised, hescapes⟩
    have hin : ¬ (shardCount < 0 ∨ (maxListedShards : Int) < shardCount ∨
        (client.maxVersionBytes : Int) < shardCount) := by omega
    have hothers : client.transport ≠ .http ∧
        (answers.endpoint.any fun e => e.ucxx && e.verifiedRdma) = true := by
      rw [hmode]
      exact ⟨by decide, hadvertised⟩
    obtain ⟨e, hfetched, huncaught⟩ := hescapes
    simp only [downloadUnstreamed, if_neg hin, hothers, hmode, hfetched]
    exact ⟨e, rfl, huncaught⟩

theorem streamListed_guarded (client : ClientNode) {manifest : Option ShardManifest}
    (hmanifest : ∀ m ∈ manifest, m.Consistent) (checksum : Str) (shardCount : Int)
    (schedule : Schedule) :
    Guarded (client.streamListed score checksum shardCount schedule manifest) := by
  cases manifest with
  | none => exact guarded_ok none
  | some m =>
    rw [streamListed]
    split
    · exact guarded_error rfl
    · exact client.streamVersion_guarded (hmanifest m rfl) schedule

theorem streamingManifest_consistent {client : ClientNode} {nestingLimit : Nat} {version : Str}
    {answers : VersionAnswers} {manifest : Option ShardManifest}
    (h : client.streamingManifest nestingLimit version answers = .ok manifest) :
    ∀ m ∈ manifest, m.Consistent := by
  rintro m rfl
  rw [streamingManifest] at h
  split at h
  · obtain ⟨-, payload, -, hread⟩ := loadShardManifest_eq_some h
    exact ShardManifest.fromBytes_consistent hread
  · cases h

theorem downloadCounted_escapes_iff {client : ClientNode} {nestingLimit : Nat}
    {version checksum : Str} {shardCount : Int} {answers : VersionAnswers} :
    Escapes (client.downloadCounted score nestingLimit version checksum shardCount answers) ↔
      Escapes (client.streamingManifest nestingLimit version answers) ∨
      client.streamingManifest nestingLimit version answers = .ok none ∧
        Escapes (client.downloadUnstreamed version checksum shardCount answers) := by
  rw [downloadCounted, escapes_bind]
  apply or_congr_right
  constructor
  · rintro ⟨manifest, hmanifest, hescapes⟩
    rw [escapes_bind] at hescapes
    obtain ⟨streamed, -, hunstreamed⟩ := hescapes.resolve_left
      (client.streamListed_guarded (streamingManifest_consistent hmanifest) checksum shardCount
        answers.schedule).not_escapes
    split at hunstreamed
    · exact absurd hunstreamed (not_escapes_ok _)
    next hgone =>
      rw [not_or, not_and] at hgone
      have hmode := (downloadUnstreamed_escapes_iff.mp hunstreamed).2.1
      cases manifest with
      | none => exact ⟨hmanifest, hunstreamed⟩
      | some m => exact absurd hmode (hgone.2 rfl)
  · rintro ⟨hmanifest, hescapes⟩
    refine ⟨none, hmanifest, ?_⟩
    rw [escapes_bind]
    exact Or.inr ⟨none, rfl, hescapes⟩

theorem downloadVersionBuffer_escapes_iff {client : ClientNode} {nestingLimit : Nat}
    {version : Str} {answers : VersionAnswers} :
    Escapes (client.downloadVersionBuffer score nestingLimit version answers) ↔
      ∃ checksum shardCount, Listed version answers checksum shardCount ∧
        Escapes (client.downloadCounted score nestingLimit version checksum shardCount answers) := by
  constructor
  · intro hescapes
    rw [downloadVersionBuffer] at hescapes
    split at hescapes
    · exact absurd hescapes (not_escapes_ok _)
    next info hinfo =>
      simp only at hescapes
      split at hescapes
      · exact absurd hescapes (not_escapes_ok _)
      next hlisted =>
        rw [not_or, not_not, Bool.not_eq_false] at hlisted
        split at hescapes
        · exact absurd hescapes (not_escapes_ok _)
        next shardCount hcount =>
          exact ⟨_, shardCount, ⟨info, hinfo, hlisted.1, rfl, hlisted.2, hcount⟩, hescapes⟩
  · rintro ⟨checksum, shardCount, ⟨info, hinfo, hbar, rfl, hmatches, hcount⟩, hescapes⟩
    rw [downloadVersionBuffer_of_line hinfo hbar hmatches hcount]
    exact hescapes

theorem downloadCached_guarded (client : ClientNode) (version : Str) (answers : VersionAnswers) :
    Guarded (client.downloadCached version answers) := by
  simp only [downloadCached]
  repeat' split
  all_goals first | exact guarded_error rfl | exact guarded_ok _

/-- **When a download raises what is not caught.** -/
theorem downloadMeasured_escapes_iff {client : ClientNode} {nestingLimit : Nat} {version : Str}
    {answers : VersionAnswers} :
    Escapes (client.downloadMeasured score nestingLimit version answers) ↔
      client.Unguarded nestingLimit version answers := by
  by_cases hmode : client.transport = .http
  · have hleft : ¬ client.LeftToUcxx nestingLimit version answers := by
      rintro ⟨hucxx, -⟩
      rw [hmode] at hucxx
      cases hucxx
    have hreads : client.ReadsManifests version answers := Or.inl hmode
    have hunguarded : client.Unguarded nestingLimit version answers ↔
        Escapes (loadShardManifest nestingLimit version answers.manifests) := by
      rw [Unguarded, and_iff_right hreads]
      exact or_iff_left fun h => hleft h.1
    rw [hunguarded, downloadMeasured, if_neg (not_not.mpr hmode), escapes_bind]
    apply or_iff_left
    rintro ⟨manifest, hload, hescapes⟩
    cases manifest with
    | none => exact ((client.downloadCached_guarded version answers).map _).not_escapes hescapes
    | some m =>
      obtain ⟨-, payload, -, hread⟩ := loadShardManifest_eq_some hload
      exact (client.streamVersion_guarded (ShardManifest.fromBytes_consistent hread)
        answers.schedule).not_escapes hescapes
  · rw [downloadMeasured, if_pos hmode, downloadVersionBuffer_escapes_iff]
    constructor
    · rintro ⟨checksum, shardCount, hlisted, hescapes⟩
      rcases downloadCounted_escapes_iff.mp hescapes with hload | ⟨hnone, hunstreamed⟩
      · left
        rw [streamingManifest] at hload
        split at hload
        next hservers => exact ⟨Or.inr ⟨hservers, checksum, shardCount, hlisted⟩, hload⟩
        · exact absurd hload (not_escapes_ok _)
      · obtain ⟨hrange, hucxx, hadvertised, hfetch⟩ := downloadUnstreamed_escapes_iff.mp hunstreamed
        exact Or.inr ⟨⟨hucxx, hadvertised, hnone, checksum, shardCount, hlisted, hrange⟩, hfetch⟩
    · rintro (⟨hhttp | ⟨hservers, checksum, shardCount, hlisted⟩, hload⟩ |
        ⟨⟨hucxx, hadvertised, hnone, checksum, shardCount, hlisted, hrange⟩, hfetch⟩)
      · exact absurd hhttp hmode
      · refine ⟨checksum, shardCount, hlisted, downloadCounted_escapes_iff.mpr (Or.inl ?_)⟩
        rw [streamingManifest, if_pos hservers]
        exact hload
      · refine ⟨checksum, shardCount, hlisted, downloadCounted_escapes_iff.mpr (Or.inr ⟨hnone, ?_⟩)⟩
        exact downloadUnstreamed_escapes_iff.mpr ⟨hrange, hucxx, hadvertised, hfetch⟩

end

end ClientNode

/-- Over UCXX that is a peer that breaks off or answers with an error frame. -/
theorem fetchVersion_escapes_iff [Library] {peer : Ucxx.Peer} {version : Str} {maximum : Nat} :
    Escapes (Ucxx.fetchVersion peer version maximum) ↔
      ∃ e, Ucxx.fetchVersion peer version maximum = .error e ∧
        (e.cls = .ucxxUnavailableError ∨ e.cls = .versionUnavailableError) := by
  have hname : Guarded (Ucxx.validateVersion version) := by
    have hfits : Guarded (fitsVersionName version) := by
      rw [fitsVersionName]
      split
      · exact guarded_ok false
      rw [encodeText?]
      cases encodeUtf8 version with
      | none => exact guarded_error rfl
      | some payload => exact guarded_ok _
    rw [Ucxx.validateVersion]
    split
    next e hname => exact guarded_error (hfits e hname)
    · split
      · exact guarded_error rfl
      · exact guarded_ok ()
  constructor
  · rintro ⟨e, he, huncaught⟩
    refine ⟨e, he, ?_⟩
    rw [Ucxx.fetchVersion] at he
    cases hvalid : Ucxx.validateVersion version with
    | error invalid =>
      rw [hvalid] at he
      obtain rfl := Except.error.inj he
      rw [hname _ hvalid] at huncaught
      cases huncaught
    | ok _ =>
      rw [hvalid] at he
      replace he : (Ucxx.exchangeVersion peer version maximum).result.mapError
        (Ucxx.asUnavailable (str "UCXX transfer failed")) = .error e := he
      cases hresult : (Ucxx.exchangeVersion peer version maximum).result with
      | ok result =>
        rw [hresult] at he
        cases he
      | error cause =>
        rw [hresult] at he
        obtain rfl := Except.error.inj he
        rw [Ucxx.asUnavailable] at huncaught ⊢
        split at huncaught <;> rename_i hcls
        · rw [caught, hcls] at huncaught
          cases huncaught
        · rw [caught, hcls] at huncaught
          cases huncaught
        · exact Or.inr hcls
        · exact Or.inl rfl
  · rintro ⟨e, he, hcls⟩
    refine ⟨e, he, ?_⟩
    rcases hcls with hcls | hcls <;> rw [caught, hcls] <;> rfl

/-! ## Failover -/

theorem splitAdapter_guarded [Library] [BundleLibrary] (nestingLimit : Nat) (payload : Bytes) :
    Guarded (splitAdapter nestingLimit payload) := by
  have hloads (data : Bytes) : Guarded (loadsBytes nestingLimit data) := by
    simp only [loadsBytes]
    repeat' split
    all_goals first | exact guarded_error rfl | exact guarded_ok _
  simp only [splitAdapter]
  split
  · exact guarded_error rfl
  split
  · exact guarded_error rfl
  split
  next e hconfig => exact guarded_error (hloads _ e hconfig)
  · split
    · exact guarded_error rfl
    · exact guarded_ok _

theorem verify_guarded [Library] [BundleLibrary] (nestingLimit : Nat) (publication : Publication)
    (payload : Bytes) : Guarded (publication.verify nestingLimit payload) := by
  rw [Publication.verify]
  split
  · exact guarded_error rfl
  · exact (splitAdapter_guarded nestingLimit payload).map _

section
variable [Library] [BundleLibrary] {S : Type} [LinearOrder S]
  (score : Str → Nat → Str → MemberProfile → S)

/-- The group would deliver bytes that verify. -/
def Delivers (config : FetchConfig) (publication : Publication)
    (answers : SourceGroup → VersionAnswers) (group : SourceGroup) (payload : Bytes) : Prop :=
  (config.client publication group).downloadMeasured score config.nestingLimit group.version
      (answers group) = .ok (some payload) ∧
    publication.verify config.nestingLimit payload = .ok ()

/-- What is promised of a search among groups: it returns verified bytes if a
group has them, and raises only after it has tried all. -/
structure FailsOver (config : FetchConfig) (publication : Publication)
    (answers : SourceGroup → VersionAnswers) (groups : List SourceGroup)
    (outcome : Except Exc Bytes × List SourceGroup) : Prop where
  returns : (∃ group ∈ groups, ∃ payload, Delivers score config publication answers group payload) →
    ∃ payload, outcome.1 = .ok payload
  verified : ∀ payload, outcome.1 = .ok payload →
    publication.verify config.nestingLimit payload = .ok ()
  exhausts : ∀ e, outcome.1 = .error e → outcome.2 = groups

variable {score} {config : FetchConfig} {publication : Publication}
  {answers : SourceGroup → VersionAnswers}

theorem tryGroup_delivered_iff {group : SourceGroup} {payload : Bytes} :
    tryGroup score config publication answers group = .delivered payload ↔
      Delivers score config publication answers group payload := by
  have hpayload : groupPayload score config publication answers group = .ok payload ↔
      Delivers score config publication answers group payload := by
    rw [groupPayload, bind_eq_ok, Delivers]
    constructor
    · rintro ⟨_ | data, hdata, h⟩
      · cases h
      · obtain ⟨_, hverify, h⟩ := bind_eq_ok.mp h
        obtain rfl := Except.ok.inj h
        exact ⟨hdata, hverify⟩
    · rintro ⟨hdata, hverify⟩
      refine ⟨some payload, hdata, ?_⟩
      simp only [hverify]
      rfl
  rw [← hpayload, tryGroup]
  cases groupPayload score config publication answers group with
  | ok data => simp only [TryEach.Outcome.delivered.injEq, Except.ok.injEq]
  | error e =>
    simp only [reduceCtorEq, iff_false]
    split <;> rintro ⟨⟩

theorem tryGroup_escaped_iff {group : SourceGroup} :
    (∃ e, tryGroup score config publication answers group = .escaped e) ↔
      (config.client publication group).Unguarded config.nestingLimit group.version
        (answers group) := by
  have hpayload : Escapes (groupPayload score config publication answers group) ↔
      (config.client publication group).Unguarded config.nestingLimit group.version
        (answers group) := by
    have hmeasured : Escapes ((config.client publication group).downloadMeasured score
        config.nestingLimit group.version (answers group)) ↔
          (config.client publication group).Unguarded config.nestingLimit group.version
            (answers group) := ClientNode.downloadMeasured_escapes_iff
    rw [← hmeasured, groupPayload, escapes_bind]
    apply or_iff_left
    rintro ⟨_ | data, -, h⟩
    · exact (guarded_error rfl).not_escapes h
    · exact ((verify_guarded _ publication data).bind fun _ _ => guarded_ok data).not_escapes h
  rw [← hpayload, tryGroup]
  cases groupPayload score config publication answers group with
  | ok data =>
    constructor
    · rintro ⟨e, ⟨⟩⟩
    · exact fun h => absurd h (not_escapes_ok data)
  | error e =>
    simp only
    split
    next hcaught =>
      constructor
      · rintro ⟨e', ⟨⟩⟩
      · exact fun h => absurd h (guarded_error hcaught).not_escapes
    next huncaught =>
      exact ⟨fun _ => ⟨e, rfl, Bool.eq_false_iff.mpr huncaught⟩, fun _ => ⟨e, rfl⟩⟩

variable (score config publication answers) in
theorem fetchPublication_search (sourceRole : Option Str) (shuffle : Shuffle) (first : Models)
    (later : List Models) :
    let search := TryEach.search (tryGroup score config publication answers)
      (candidates publication sourceRole shuffle first later)
    let outcome := fetchPublication score config publication sourceRole shuffle first later answers
    (∀ payload, outcome.1 = .ok payload ↔ search.1 = .delivered payload) ∧ outcome.2 = search.2 := by
  simp only [fetchPublication]
  cases (TryEach.search (tryGroup score config publication answers)
      (candidates publication sourceRole shuffle first later)).1 with
  | delivered data => simp only [Except.ok.injEq, TryEach.Outcome.delivered.injEq, and_true,
      implies_true]
  | failed => simp only [reduceCtorEq, and_true, implies_true]
  | escaped e => simp only [reduceCtorEq, and_true, implies_true]

/-- **A failing group leads to the next** just if no group but the last, none having
delivered before it, makes the client read a manifest that raises neither a value
nor a run-time error, or, in `ucxx` mode, breaks off the transfer of the version. -/
theorem fails_over_iff_guarded (config : FetchConfig) (publication : Publication)
    (answers : SourceGroup → VersionAnswers) (sourceRole : Option Str) (shuffle : Shuffle)
    (first : Models) (later : List Models) :
    let groups := candidates publication sourceRole shuffle first later
    FailsOver score config publication answers groups
        (fetchPublication score config publication sourceRole shuffle first later answers) ↔
      ∀ before group next after, groups = before ++ group :: next :: after →
        (∀ g ∈ before, ∀ payload, ¬ Delivers score config publication answers g payload) →
        ¬ (config.client publication group).Unguarded config.nestingLimit group.version
          (answers group) := by
  intro groups
  obtain ⟨hok, htried⟩ := fetchPublication_search score config publication answers sourceRole shuffle
    first later
  have hclear : TryEach.Clear (tryGroup score config publication answers) groups ↔
      ∀ before group next after, groups = before ++ group :: next :: after →
        (∀ g ∈ before, ∀ payload, ¬ Delivers score config publication answers g payload) →
        ¬ (config.client publication group).Unguarded config.nestingLimit group.version
          (answers group) := by
    simp only [TryEach.Clear, ne_eq, tryGroup_delivered_iff, ← not_exists, tryGroup_escaped_iff]
  rw [← hclear, ← TryEach.exhaustive_iff]
  constructor
  · rintro ⟨hreturns, -, hexhausts⟩
    constructor
    · rintro ⟨group, hgroup, payload, hdelivered⟩
      obtain ⟨data, hdata⟩ := hreturns ⟨group, hgroup, payload, tryGroup_delivered_iff.mp hdelivered⟩
      exact ⟨data, (hok data).mp hdata⟩
    · intro hnone
      rw [← htried]
      cases hresult : (fetchPublication score config publication sourceRole shuffle first later
        answers).1 with
      | ok data => exact absurd ((hok data).mp hresult) (hnone data)
      | error e => exact hexhausts e hresult
  · rintro ⟨hdelivers, hall⟩
    constructor
    · rintro ⟨group, hgroup, payload, hpayload⟩
      obtain ⟨data, hdata⟩ := hdelivers ⟨group, hgroup, payload, tryGroup_delivered_iff.mpr hpayload⟩
      exact ⟨data, (hok data).mpr hdata⟩
    · intro payload hpayload
      obtain ⟨group, -, hdelivered⟩ := TryEach.mem_of_delivered ((hok payload).mp hpayload)
      exact (tryGroup_delivered_iff.mp hdelivered).2
    · intro e he
      rw [htried]
      apply hall
      intro payload hdelivered
      rw [(hok payload).mpr hdelivered] at he
      cases he

end

/-! ## A middle that breaks off -/

def bundlePublication : Publication where
  runId := str "run"
  baseModel := .str (str "base")
  step := 0
  digest := bundleDigest
  size := 38
  runId_valid := by decide
  size_valid := by decide
  digest_valid := by decide
  baseModel_given := by decide

def bundleMetadata : VersionMetadata := ⟨str "v1", 38, 64, 1, hex (bundle.take 32)⟩

def bundleServer : Ucxx.Server where
  store :=
    { capacity := 64, size := 38
      versions := OrderedDict.empty.insert (str "v1") { metadata := bundleMetadata, data := some bundle } }
  maxTotalSize := 64
  announced := fun _ => false

def ucxxConfig : FetchConfig where
  transport := .ucxx
  replicationFactor := 2
  shardBatchSize := 16
  nestingLimit := 1000
  batch_pos := localClient.batch_pos
  batch_le := localClient.batch_le

def middleSource : SourceRecord := ⟨some (str "http://a"), some (str "middle"), some (str "v1")⟩
def originSource : SourceRecord := ⟨some (str "http://o"), some (str "origin"), some (str "v1")⟩

def bundleModels : Models :=
  OrderedDict.empty.insert (peerService (str "run") bundleDigest) [originSource, middleSource]

def unshuffled : Shuffle := ⟨id, fun _ => List.Perm.refl _⟩

/-- The middle's endpoint breaks off, the origin serves. -/
def bundleAnswers [Library] (group : SourceGroup) : VersionAnswers :=
  { oneByteAnswered (singleLine (bundle.take 32)) [] with
    endpoint := some ⟨true, true, []⟩
    peer := if group.role = str "origin" then Ucxx.handleRequest bundleServer false else fun _ => [] }

theorem bundle_exchanged :
    let _ := asciiLibrary
    Ucxx.fetchVersion (Ucxx.handleRequest bundleServer false) (str "v1") 38 =
      .ok ⟨bundle, bundleMetadata⟩ := by
  intro _
  have honly (name : Str) (v : StoredVersion)
      (hv : bundleServer.store.versions.get? name = some v) :
      name = str "v1" ∧ v = { metadata := bundleMetadata, data := some bundle } := by
    simp only [bundleServer, OrderedDict.get?_insert] at hv
    split at hv
    next hname => exact ⟨hname, (Option.some.inj hv).symm⟩
    · cases hv
  have hshaped : bundleServer.store.AllShaped := by
    intro name v hv
    obtain ⟨rfl, rfl⟩ := honly name v hv
    refine ⟨rfl, Or.inl rfl, ?_⟩
    intro data hdata
    obtain rfl := Option.some.inj hdata
    decide +kernel
  have hdigested : CheckpointStore.Digested bundleServer.store := by
    constructor
    · intro name v data hv hdata
      obtain ⟨-, rfl⟩ := honly name v hv
      obtain rfl := Option.some.inj hdata
      decide +kernel
    · intro name v index shard checksum hv _ hchecksum
      obtain ⟨-, rfl⟩ := honly name v hv
      cases hchecksum
  have hreply : Ucxx.FitsControlUnicode (.obj (Ucxx.metadataMessage bundleMetadata)) := by
    have hlength : (dumpsUnicode (.obj (Ucxx.metadataMessage bundleMetadata))).all
        (·.length ≤ Ucxx.maxMetadataSize) = true := by decide +kernel
    intro text htext
    simpa [htext] using hlength
  have hversion : Ucxx.validateVersion (str "v1") = .ok () := by decide
  have hexchange : Ucxx.exchangeVersion _ (str "v1") 38 = ⟨.ok ⟨bundle, bundleMetadata⟩, (), []⟩ :=
    Ucxx.exchangeVersion_held hshaped hdigested false hversion rfl rfl (by decide) (by decide)
      (by decide) hreply
  simp only [Ucxx.fetchVersion, hversion, hexchange, bind, Except.bind, Except.mapError]

/-- The middle's client raises `UCXXUnavailableError`, and the origin, which has the
bundle, is not asked. -/
theorem broken_middle_ends_search :
    let _ := asciiLibrary
    let _ := bundleLibrary
    ¬ ∀ (config : FetchConfig) (publication : Publication) (answers : SourceGroup → VersionAnswers)
        (sourceRole : Option Str) (shuffle : Shuffle) (first : Models) (later : List Models),
      FailsOver eachItsOwner config publication answers
        (candidates publication sourceRole shuffle first later)
        (fetchPublication eachItsOwner config publication sourceRole shuffle first later answers) := by
  intro _ _ hall
  let middle : SourceGroup := ⟨str "middle", str "v1", [str "http://a"]⟩
  let origin : SourceGroup := ⟨str "origin", str "v1", [str "http://o"]⟩
  have hgroups : candidates bundlePublication none unshuffled bundleModels [] = [middle, origin] := rfl
  have hline (group : SourceGroup) :
      (listAvailableVersions (bundleAnswers group).distribution).get? (str "v1") =
        some (hex (bundle.take 32) ++ str "|1") := by
    have hdistribution : (bundleAnswers group).distribution =
        encodeUtf8 (singleLine (bundle.take 32)) := rfl
    rw [hdistribution, listAvailableVersions_encoded (by decide +kernel)]
    decide +kernel
  have hcounted (group : SourceGroup) :
      (ucxxConfig.client bundlePublication group).downloadMeasured eachItsOwner 1000 (str "v1")
          (bundleAnswers group) =
        (ucxxConfig.client bundlePublication group).downloadCounted eachItsOwner 1000 (str "v1")
          (hex (bundle.take 32)) 1 (bundleAnswers group) := by
    rw [ClientNode.downloadMeasured, if_pos (by rintro ⟨⟩), ClientNode.downloadVersionBuffer_of_line
      (hline group) (by decide +kernel) (by decide +kernel) (show _ = some 1 by decide +kernel)]
    rfl
  have hbroken : groupPayload eachItsOwner ucxxConfig bundlePublication bundleAnswers middle =
      .error ⟨.ucxxUnavailableError, str "UCXX transfer failed"⟩ := by
    have hraised : (ucxxConfig.client bundlePublication middle).downloadCounted eachItsOwner 1000
        (str "v1") (hex (bundle.take 32)) 1 (bundleAnswers middle) =
          .error ⟨.ucxxUnavailableError, str "UCXX transfer failed"⟩ := by decide +kernel
    rw [groupPayload]
    simp only [ucxxConfig] at hcounted hraised ⊢
    rw [hcounted middle, hraised]
    rfl
  have hdelivers : Delivers eachItsOwner ucxxConfig bundlePublication bundleAnswers origin bundle := by
    have hfetched : (ucxxConfig.client bundlePublication origin).fetchListed (str "v1")
        (hex (bundle.take 32)) 1 (bundleAnswers origin).peer = .ok bundle := by
      have hexchanged : Ucxx.fetchVersion (bundleAnswers origin).peer (str "v1")
          (ucxxConfig.client bundlePublication origin).maxVersionBytes =
            .ok ⟨bundle, bundleMetadata⟩ := bundle_exchanged
      rw [ClientNode.fetchListed, hexchanged]
      rfl
    have hunstreamed : (ucxxConfig.client bundlePublication origin).downloadUnstreamed (str "v1")
        (hex (bundle.take 32)) 1 (bundleAnswers origin) = .ok (some bundle) := by
      simp only [ClientNode.downloadUnstreamed, hfetched]
      rfl
    refine ⟨(hcounted origin).trans ?_, by decide +kernel⟩
    rw [ClientNode.downloadCounted_of_one (by decide), hunstreamed]
  obtain ⟨payload, hpayload⟩ := (hall ucxxConfig bundlePublication bundleAnswers none unshuffled
    bundleModels []).returns ⟨origin, hgroups ▸ List.mem_cons_of_mem _ List.mem_cons_self, bundle,
      hdelivers⟩
  have hended : (fetchPublication eachItsOwner ucxxConfig bundlePublication none unshuffled bundleModels
      [] bundleAnswers).1 = .error ⟨.ucxxUnavailableError, str "UCXX transfer failed"⟩ := by
    rw [fetchPublication, hgroups, TryEach.search, tryGroup, hbroken]
    rfl
  rw [hended] at hpayload
  cases hpayload

end Litecast
