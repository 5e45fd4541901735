import Litecast.Manifest

/-! `middle_node.py`: a middle of a replicated membership, the manifest it
publishes and the shards it takes on. -/

namespace Litecast

/-- What the constructor of a `MiddleNode` derives from a non-empty
`middle_servers`. -/
structure MiddleNode where
  /-- `upstream_servers[0]` -/
  upstream : Str
  middleServers : List Str
  middleId : Str
  replicationFactor : Nat
  memberProfiles : List (Str × MemberProfile)
  canonical : canonicalMembers middleServers = .ok middleServers
  profiled : memberProfiles.map Prod.fst = middleServers
  named : middleId ∈ middleServers

inductive ShardRole where
  | primary | replica
  deriving DecidableEq

/-- A shard the middle fetches, and where from. -/
structure Assignment where
  index : Nat
  source : Str
  role : ShardRole
  deriving DecidableEq

namespace MiddleNode

/-- `__init__`, with the mapping of member profiles it is given. -/
def new [Library] (upstream : Str) (middleServers : List Str) (middleId : Str)
    (replicationFactor : Nat) (memberProfiles : Json) : Except Exc MiddleNode :=
  match hservers : canonicalMembers middleServers with
  | .error e => .error e
  | .ok canonical =>
    match hprofiles : canonicalMemberProfiles canonical memberProfiles with
    | .error e => .error e
    | .ok profiles =>
      let middleId := Str.rstrip (.ofChar '/') middleId
      if hnamed : middleId ∈ canonical then
        .ok {
          upstream, middleServers := canonical, middleId, replicationFactor
          memberProfiles := profiles
          canonical := canonicalMembers_idem hservers
          profiled := by
            have h := (canonicalMemberProfiles_eq_ok hprofiles).1
            rw [canonicalMembers_idem hservers] at h
            exact (Except.ok.inj h).symm
          named := hnamed }
      else valueError (str "middle_id must be present in middle_servers")

/-- The manifest `_process_version` publishes in place of the upstream's. -/
def republish (node : MiddleNode) (manifest : ShardManifest) : ShardManifest :=
  { manifest with members := node.middleServers, replicationFactor := node.replicationFactor
                  memberProfiles := node.memberProfiles }

/-! ## Assignments -/

section
variable [Library] {S : Type} [LinearOrder S] (score : Str → Nat → Str → MemberProfile → S)

def owners (node : MiddleNode) (manifest : ShardManifest) (index : Nat) : Except Exc (List Str) :=
  shardOwners score manifest.name index node.middleServers node.replicationFactor
    (profilesObject node.memberProfiles)

/-- The part of the middle in one shard, given the shard's owners. -/
def assignmentOf (node : MiddleNode) (index : Nat) : List Str → Option Assignment
  | [] => none
  | primary :: replicas =>
    if primary = node.middleId then some ⟨index, node.upstream, .primary⟩
    else if node.middleId ∈ replicas then some ⟨index, primary, .replica⟩
    else none

/-- `primaries + replicas` in `_process_streaming_version`. -/
def assignments (node : MiddleNode) (manifest : ShardManifest) :
    Except Exc (List Assignment) := do
  let found ← (List.range manifest.shardCount).mapM fun index => do
    return node.assignmentOf index (← node.owners score manifest index)
  let taken := found.filterMap id
  return taken.filter (·.role = .primary) ++ taken.filter (·.role = .replica)

end

end MiddleNode

end Litecast
