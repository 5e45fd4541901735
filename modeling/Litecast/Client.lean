import Litecast.Lib.OrderedDict
import Litecast.Manifest

/-! `client_node.py`: how a client is configured and which middles it asks for
a shard. -/

namespace Litecast

inductive TransportMode where
  | auto | http | ucxx
  deriving DecidableEq

structure ClientNode where
  servers : List Str
  transport : TransportMode
  maxVersionBytes : Nat
  replicationFactor : Int
  shardBatchSize : Nat
  clientLocality : Str
  /-- The constructor's `1 <= shard_batch_size <= 256`. -/
  batch_pos : 1 ≤ shardBatchSize
  batch_le : shardBatchSize ≤ 256

namespace ClientNode

/-- A manifest with members must name the client's own servers and factor. -/
def checkMembership (client : ClientNode) (manifest : ShardManifest) : Except Exc Unit :=
  if manifest.members = [] then .ok ()
  else do
    let servers ← canonicalMembers client.servers
    if manifest.members ≠ servers ∨ (manifest.replicationFactor : Int) ≠ client.replicationFactor then
      valueError (str "client membership does not match shard manifest")
    else .ok ()

/-- `members` and `replication_factor` in `_download_streaming`. -/
def membership (client : ClientNode) (manifest : ShardManifest) : Except Exc (List Str × Nat) :=
  if manifest.members = [] then do
    let servers ← canonicalMembers client.servers
    return (servers, servers.length)
  else .ok (manifest.members, manifest.replicationFactor)

section
variable [Library] {S : Type} [LinearOrder S] (score : Str → Nat → Str → MemberProfile → S)

def owners (client : ClientNode) (manifest : ShardManifest) (index : Nat) :
    Except Exc (List Str) := do
  let (members, replicationFactor) ← client.membership manifest
  shardOwners score manifest.name index members replicationFactor manifest.profiles

/-- The servers asked for a shard, in the order they are asked. -/
def askedOwners (client : ClientNode) (manifest : ShardManifest) (index : Nat) :
    Except Exc (List Str) := do
  return orderOwnersForClient (← client.owners score manifest index) manifest.profiles
    client.clientLocality

/-! ## Batches -/

/-- A `receive_batch` task. Its lane is its place among the tasks. -/
structure Batch where
  owner : Str
  indices : List Nat

/-- The owner a shard is first asked from. -/
def preferredOwner (client : ClientNode) (manifest : ShardManifest) (index : Nat) :
    Except Exc Str := do
  match ← client.askedOwners score manifest index with
  | [] => .error ⟨.indexError, str "tuple index out of range"⟩
  | owner :: _ => .ok owner

/-- `groups`: the selected shards under the owner each prefers. -/
def groups (client : ClientNode) (manifest : ShardManifest) (selected : List Nat) :
    Except Exc (OrderedDict Str (List Nat)) :=
  selected.foldlM (fun groups index => do
    let owner ← client.preferredOwner score manifest index
    return groups.insert owner ((groups.get? owner).getD [] ++ [index])) .empty

def batches (client : ClientNode) (manifest : ShardManifest) (selected : List Nat) :
    Except Exc (List Batch) := do
  let groups ← client.groups score manifest selected
  return groups.entries.flatMap fun (owner, indices) =>
    (Pieces.spans client.shardBatchSize indices.length).map fun (start, stop) =>
      ⟨owner, Pieces.slice indices start stop⟩

variable {score}

/-- The groups hold the shards met so far, each under the owner it prefers. -/
theorem groups_spec {client : ClientNode} {manifest : ShardManifest} {selected : List Nat}
    {groups : OrderedDict Str (List Nat)} (h : client.groups score manifest selected = .ok groups) :
    (groups.entries.flatMap Prod.snd).Perm selected ∧
      ∀ group ∈ groups.entries, ∀ index ∈ group.2,
        client.preferredOwner score manifest index = .ok group.1 := by
  induction selected using List.reverseRecOn generalizing groups with
  | nil =>
    obtain rfl := Except.ok.inj h
    exact ⟨.nil, by simp [OrderedDict.empty]⟩
  | append_singleton selected index ih =>
    rw [ClientNode.groups, List.foldlM_append] at h
    obtain ⟨before, hbefore, hstep⟩ := bind_eq_ok.mp h
    obtain ⟨hperm, hprefer⟩ := ih hbefore
    simp only [List.foldlM_cons, List.foldlM_nil, bind_pure] at hstep
    obtain ⟨owner, howner, hinsert⟩ := bind_eq_ok.mp hstep
    obtain rfl := Except.ok.inj hinsert
    cases hget : before.get? owner with
    | none =>
      rw [OrderedDict.entries_insert_of_absent _ hget]
      constructor
      · simpa using hperm.append_right [index]
      · intro group hgroup
        rcases List.mem_append.mp hgroup with hold | hnew
        · exact hprefer group hold
        · obtain rfl := List.mem_singleton.mp hnew
          intro i hi
          obtain rfl : i = index := by simpa using hi
          exact howner
    | some indices =>
      obtain ⟨front, back, hentries, hinserted⟩ := OrderedDict.entries_insert_of_present hget
      rw [Option.getD_some, hinserted]
      rw [hentries] at hperm hprefer
      constructor
      · have hmove : (front.flatMap Prod.snd ++ ((indices ++ [index]) ++ back.flatMap Prod.snd)).Perm
            ((front.flatMap Prod.snd ++ (indices ++ back.flatMap Prod.snd)) ++ [index]) := by
          rw [List.append_assoc indices, List.append_assoc, List.append_assoc]
          exact (List.perm_append_comm.append_left indices).append_left _
        simp only [List.flatMap_append, List.flatMap_cons] at hperm ⊢
        exact hmove.trans (hperm.append_right [index])
      · intro group hgroup i hi
        rcases List.mem_append.mp hgroup with hfront | htail
        · exact hprefer group (List.mem_append_left _ hfront) i hi
        · rcases List.mem_cons.mp htail with rfl | hback
          · rcases List.mem_append.mp hi with hold | hnew
            · exact hprefer (owner, indices) (by simp) i hold
            · obtain rfl := List.mem_singleton.mp hnew
              exact howner
          · exact hprefer group (by simp [hback]) i hi

/-- **Every selected shard is in one batch**, sent to the owner it prefers. -/
theorem batches_spec {client : ClientNode} {manifest : ShardManifest} {selected : List Nat}
    {batches : List Batch} (h : client.batches score manifest selected = .ok batches) :
    (batches.flatMap Batch.indices).Perm selected ∧
      ∀ batch ∈ batches, ∀ index ∈ batch.indices,
        client.preferredOwner score manifest index = .ok batch.owner := by
  obtain ⟨groups, hgroups, hbatches⟩ := bind_eq_ok.mp h
  obtain ⟨hperm, hprefer⟩ := groups_spec hgroups
  obtain rfl := Except.ok.inj hbatches
  constructor
  · have hcut (group : Str × List Nat) :
        (Pieces.spans client.shardBatchSize group.2.length).flatMap
          (fun span => Pieces.slice group.2 span.1 span.2) = group.2 := by
      rw [List.flatMap_def,
        Pieces.flatten_slices (Pieces.consecutive_spans client.batch_pos _) (Nat.le_refl _),
        Pieces.slice_all]
    simpa only [List.flatMap_assoc, List.flatMap_map, hcut] using hperm
  · intro batch hbatch index hindex
    obtain ⟨group, hgroup, hspan⟩ := List.mem_flatMap.mp hbatch
    obtain ⟨span, -, rfl⟩ := List.mem_map.mp hspan
    exact hprefer group hgroup index (List.mem_of_mem_take (List.mem_of_mem_drop hindex))

theorem preferredOwner_mem {client : ClientNode} {manifest : ShardManifest} {index : Nat}
    {owner : Str} (h : client.preferredOwner score manifest index = .ok owner) :
    ∃ asked, client.askedOwners score manifest index = .ok asked ∧ owner ∈ asked := by
  obtain ⟨asked, hasked, hfirst⟩ := bind_eq_ok.mp h
  cases asked with
  | nil => cases hfirst
  | cons first rest =>
    obtain rfl := Except.ok.inj hfirst
    exact ⟨_, hasked, by simp⟩

end

end ClientNode

end Litecast
