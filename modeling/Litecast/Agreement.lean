import Litecast.Client
import Litecast.ManifestRoundTrip
import Litecast.Placement

/-! Middles and clients place every shard alike without exchanging a message. -/

namespace Litecast

/-- A membership with one middle for each member, all given the same profiles
and replication factor. -/
structure Deployment where
  members : List Str
  profiles : List (Str × MemberProfile)
  replicationFactor : Nat
  /-- Where each middle fetches its primaries. -/
  upstream : Str → Str
  canonical : canonicalMembers members = .ok members
  profiled : profiles.map Prod.fst = members
  factor_pos : 1 ≤ replicationFactor
  factor_le : replicationFactor ≤ members.length

abbrev Deployment.Member (d : Deployment) : Type := {member : Str // member ∈ d.members}

def Deployment.middle (d : Deployment) (member : d.Member) : MiddleNode where
  upstream := d.upstream member
  middleServers := d.members
  middleId := member
  replicationFactor := d.replicationFactor
  memberProfiles := d.profiles
  canonical := d.canonical
  profiled := d.profiled
  named := member.2

/-- The manifest every middle of the deployment publishes for an upstream one. -/
def Deployment.republish (d : Deployment) (m : ShardManifest) : ShardManifest :=
  { m with members := d.members, replicationFactor := d.replicationFactor
           memberProfiles := d.profiles }

theorem Deployment.republish_eq (d : Deployment) (member : d.Member) (m : ShardManifest) :
    (d.middle member).republish m = d.republish m := rfl

section
variable [Library] {S : Type} [LinearOrder S] (score : Str → Nat → Str → MemberProfile → S)

/-- The middle takes on the shard in that role, from that source. -/
def MiddleNode.Takes (node : MiddleNode) (m : ShardManifest) (a : Assignment) : Prop :=
  ∃ all, node.assignments score m = .ok all ∧ a ∈ all

variable {score}

/-- Once every shard has owners, a middle takes on what its place among them says. -/
theorem takes_iff {node : MiddleNode} {m : ShardManifest} {ownersOf : Nat → List Str}
    (howners : ∀ index < m.shardCount, node.owners score m index = .ok (ownersOf index))
    (a : Assignment) :
    node.Takes score m a ↔
      a.index < m.shardCount ∧ node.assignmentOf a.index (ownersOf a.index) = some a := by
  have hfound : (List.range m.shardCount).mapM (fun index => do
      return node.assignmentOf index (← node.owners score m index)) =
      .ok ((List.range m.shardCount).map fun index => node.assignmentOf index (ownersOf index)) := by
    rw [mapM_eq_ok, List.forall₂_map_right_iff, List.forall₂_same]
    intro index hindex
    simp only [howners index (List.mem_range.mp hindex), bind, Except.bind, pure, Except.pure]
  have hindex {i : Nat} {os : List Str} (h : node.assignmentOf i os = some a) : i = a.index := by
    cases os with
    | nil => cases h
    | cons primary replicas =>
      simp only [MiddleNode.assignmentOf] at h
      split_ifs at h <;> exact congrArg Assignment.index (Option.some.inj h)
  have hrole : a.role = .primary ∨ a.role = .replica := by cases a.role <;> simp
  have hassignments : node.assignments score m = .ok (
      let taken := ((List.range m.shardCount).map fun i => node.assignmentOf i (ownersOf i)).filterMap id
      taken.filter (·.role = .primary) ++ taken.filter (·.role = .replica)) := by
    rw [MiddleNode.assignments, hfound]
    rfl
  simp only [MiddleNode.Takes, hassignments, Except.ok.injEq, exists_eq_left', List.mem_append,
    List.mem_filter, List.mem_filterMap, List.mem_map, List.mem_range, decide_eq_true_eq,
    ← and_or_left, hrole, and_true, id_eq]
  constructor
  · rintro ⟨found, ⟨i, hi, rfl⟩, hsome⟩
    obtain rfl := hindex hsome
    exact ⟨hi, hsome⟩
  · rintro ⟨hi, hsome⟩
    exact ⟨_, ⟨a.index, hi, rfl⟩, hsome⟩

/-- The deployment places a shard: its owners are as many distinct members as
the replication factor, the first takes the shard as primary from its upstream,
the others as replicas from the first, and no other middle takes it. -/
structure Deployment.Places (d : Deployment) (score : Str → Nat → Str → MemberProfile → S)
    (m : ShardManifest) (index : Nat) (primary : Str) (replicas : List Str) : Prop where
  distinct : (primary :: replicas).Nodup
  length : replicas.length + 1 = d.replicationFactor
  are_members : ∀ owner ∈ primary :: replicas, owner ∈ d.members
  agreed : ∀ member : d.Member,
    (d.middle member).owners score ((d.middle member).republish m) index = .ok (primary :: replicas)
  takes_primary : ∀ (member : d.Member) (source : Str),
    (d.middle member).Takes score ((d.middle member).republish m) ⟨index, source, .primary⟩ ↔
      member = primary ∧ source = d.upstream member
  takes_replica : ∀ (member : d.Member) (source : Str),
    (d.middle member).Takes score ((d.middle member).republish m) ⟨index, source, .replica⟩ ↔
      member.1 ∈ replicas ∧ source = primary

/-- Every middle computes the owners from the same data. -/
theorem Deployment.places (d : Deployment) (score : Str → Nat → Str → MemberProfile → S)
    (m : ShardManifest) {index : Nat} (hindex : index < m.shardCount) :
    ∃ primary replicas, d.Places score m index primary replicas := by
  choose ownersOf howners hlength hnodup hsub using
    shardOwners_spec score d.canonical d.profiled d.factor_pos d.factor_le m.name
  obtain ⟨primary, replicas, hcons⟩ : ∃ primary replicas, ownersOf index = primary :: replicas := by
    apply List.exists_cons_of_length_pos
    rw [hlength]
    exact d.factor_pos
  have hdistinct := hcons ▸ hnodup index
  have hagreed (member : d.Member) (i : Nat) (_ : i < m.shardCount) :
      (d.middle member).owners score ((d.middle member).republish m) i = .ok (ownersOf i) := howners i
  have htakes (member : d.Member) (source : Str) (role : ShardRole) :
      (d.middle member).Takes score ((d.middle member).republish m) ⟨index, source, role⟩ ↔
        (d.middle member).assignmentOf index (primary :: replicas) =
          some ⟨index, source, role⟩ := by
    rw [takes_iff (m := (d.middle member).republish m) (hagreed member), hcons]
    exact and_iff_right hindex
  refine ⟨primary, replicas, {
    distinct := hdistinct
    length := by rw [← hlength index, hcons, List.length_cons]
    are_members := hcons ▸ hsub index
    agreed := fun member => hcons ▸ howners index
    takes_primary := ?_
    takes_replica := ?_ }⟩
  · intro member source
    rw [htakes, MiddleNode.assignmentOf]
    split_ifs with hprimary hreplica
    · simp [Deployment.middle] at hprimary ⊢
      simp [hprimary, eq_comm]
    · simp only [Deployment.middle] at hprimary
      simp [Ne.symm hprimary]
    · simp only [Deployment.middle] at hprimary
      simp [Ne.symm hprimary]
  · intro member source
    rw [htakes, MiddleNode.assignmentOf]
    split_ifs with hprimary hreplica
    · simp only [Deployment.middle] at hprimary
      have hnot : member.1 ∉ replicas := hprimary ▸ (List.nodup_cons.mp hdistinct).1
      simp [hnot]
    · simp only [Deployment.middle] at hreplica
      simp [hreplica, eq_comm]
    · simp only [Deployment.middle] at hreplica
      simp [hreplica]

/-- **Placement needs no agreement protocol.** A client that reads the manifest
a middle of the deployment publishes computes, for every shard, the owners all
middles computed, and whatever its locality it asks them and no others, one by
one or in a batch. -/
theorem placement_agrees (score : Str → Nat → Str → MemberProfile → S) (d : Deployment)
    (publisher : d.Member) (client : ClientNode)
    {upstream raw : Bytes} {m received : ShardManifest}
    (hm : ShardManifest.fromBytes upstream = .ok m) (hschema : m.schema.eqInt 2 = true)
    (htrips : RoundTrips ((d.middle publisher).republish m).toDict)
    (hraw : ((d.middle publisher).republish m).toBytes = .ok raw)
    (hreceived : ShardManifest.fromBytes raw = .ok received) (index : Nat)
    (hindex : index < received.shardCount) :
    ∃ primary replicas, d.Places score m index primary replicas ∧
      client.owners score received index = .ok (primary :: replicas) ∧
      (∃ asked, client.askedOwners score received index = .ok asked ∧
        asked.Perm (primary :: replicas)) ∧
      ∀ selected batches, client.batches score received selected = .ok batches →
        ∀ batch ∈ batches, index ∈ batch.indices → batch.owner ∈ primary :: replicas := by
  have hconsistent : ((d.middle publisher).republish m).Consistent :=
    (ShardManifest.republish_consistent_iff (ShardManifest.fromBytes_consistent hm)
      (d.middle publisher) d.factor_pos).mpr ⟨d.factor_le, Or.inl hschema⟩
  obtain ⟨rfl, hsize⟩ := ShardManifest.toBytes_eq_ok hraw
  rw [ShardManifest.fromBytes_dumps hconsistent hsize htrips] at hreceived
  obtain rfl := Except.ok.inj hreceived
  obtain ⟨primary, replicas, hplaces⟩ := d.places score m hindex
  have howners : client.owners score ((d.middle publisher).republish m) index =
      .ok (primary :: replicas) := by
    have hne : d.members ≠ [] := (canonicalMembers_eq_ok.mp d.canonical).2.1
    have hmembership : client.membership ((d.middle publisher).republish m) =
        .ok (d.members, d.replicationFactor) := if_neg hne
    rw [← hplaces.agreed publisher, ClientNode.owners, hmembership]
    rfl
  have hasked : client.askedOwners score ((d.middle publisher).republish m) index =
      .ok (orderOwnersForClient (primary :: replicas)
        ((d.middle publisher).republish m).profiles client.clientLocality) := by
    simp only [ClientNode.askedOwners, howners, bind, Except.bind, pure, Except.pure]
  have hperm := orderOwnersForClient_perm (primary :: replicas)
    ((d.middle publisher).republish m).profiles client.clientLocality
  refine ⟨primary, replicas, hplaces, howners, ⟨_, hasked, hperm⟩, ?_⟩
  intro selected batches hbatches batch hbatch hmem
  obtain ⟨asked, hpreferred, howner⟩ :=
    ClientNode.preferredOwner_mem ((ClientNode.batches_spec hbatches).2 batch hbatch index hmem)
  rw [hasked] at hpreferred
  obtain rfl := Except.ok.inj hpreferred
  exact hperm.subset howner

end

/-! ## Two middles -/

/-- The manifest `build_manifest` writes for one byte, and the two middles that
re-publish it. -/
def oneByteManifest : ShardManifest where
  name := str "v1"
  totalSize := 1
  shardSize := 4
  shardCount := 1
  checksum := hex (97 :: List.replicate 31 0)
  shardChecksums := [hex (97 :: List.replicate 31 0)]
  merkleRoot := some (hex (asciiBytes "litecast-leaf\x00a" ++ List.replicate 17 0))

def twoMiddles : Deployment where
  members := [str "http://a", str "http://b"]
  profiles := [(str "http://a", .default (str "http://a")), (str "http://b", .default (str "http://b"))]
  replicationFactor := 2
  upstream := fun _ => str "http://origin"
  canonical := by decide
  profiled := rfl
  factor_pos := by decide
  factor_le := by decide

def twoMiddles.first : twoMiddles.Member := ⟨str "http://a", by simp [twoMiddles]⟩

def localClient : ClientNode where
  servers := twoMiddles.members
  transport := .auto
  maxVersionBytes := 1024
  replicationFactor := 2
  shardBatchSize := 16
  clientLocality := str "rack"
  batch_pos := by decide
  batch_le := by decide

theorem oneByteManifest_legible :
    let _ := asciiLibrary
    oneByteManifest.Legible := by
  intro _
  exact {
    schema := .int 2, rejoined_schema := by rfl, name := by decide, checksum := by decide
    shardChecksums := by decide, members := by decide, merkleRoot := by decide
    profiled := by decide, texts := by decide
    floats := by simp [oneByteManifest] }

theorem twoMiddles_legible :
    let _ := asciiLibrary
    (twoMiddles.republish oneByteManifest).Legible := by
  intro _
  have hone := JsonText.floatReads_natCast 1
  have hzero := JsonText.floatReads_natCast 0
  have hlegible := oneByteManifest_legible
  exact { hlegible with
    members := (by decide : ∀ member ∈ twoMiddles.members, JsonText.IsText member)
    profiled := (by decide : (twoMiddles.profiles.map Prod.fst).Nodup)
    texts := (by decide : ∀ entry ∈ twoMiddles.profiles,
      JsonText.IsText entry.1 ∧ JsonText.IsText entry.2.failureDomain ∧
        JsonText.IsText entry.2.locality)
    floats := by
      simpa [Deployment.republish, twoMiddles, MemberProfile.default] using ⟨hone, hzero⟩ }

theorem placement_agrees_two_middles :
    let _ := asciiLibrary
    let score (_ : Str) (index : Nat) (member : Str) (_ : MemberProfile) := index + member.length
    ∃ primary replicas, twoMiddles.Places score oneByteManifest 0 primary replicas ∧
      localClient.owners score (twoMiddles.republish oneByteManifest) 0 =
        .ok (primary :: replicas) := by
  intro _ score
  have hbuilt : buildManifest (str "v1") [97] 4 = .ok oneByteManifest := rfl
  have hm : ShardManifest.fromBytes (dumps oneByteManifest.toDict) = .ok oneByteManifest :=
    ShardManifest.fromBytes_dumps (ShardManifest.buildManifest_consistent hbuilt)
      (by decide +kernel) oneByteManifest_legible.roundTrips
  have htrips := twoMiddles_legible.roundTrips
  have hsize : (dumps (twoMiddles.republish oneByteManifest).toDict).length ≤ maxManifestBytes := by
    decide +kernel
  have hreceived : ShardManifest.fromBytes (dumps (twoMiddles.republish oneByteManifest).toDict) =
      .ok (twoMiddles.republish oneByteManifest) := by
    refine ShardManifest.fromBytes_dumps ?_ hsize htrips
    exact (ShardManifest.republish_consistent_iff (ShardManifest.fromBytes_consistent hm)
      (twoMiddles.middle twoMiddles.first) (by decide)).mpr ⟨by decide, Or.inl rfl⟩
  have hraw := ShardManifest.toBytes_of_le hsize
  rw [← Deployment.republish_eq twoMiddles twoMiddles.first] at htrips hraw
  obtain ⟨primary, replicas, hplaces, howners, -⟩ :=
    placement_agrees score twoMiddles twoMiddles.first localClient hm rfl htrips hraw hreceived 0
      (by decide)
  exact ⟨primary, replicas, hplaces, howners⟩

end Litecast
