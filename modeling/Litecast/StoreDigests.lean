import Litecast.StoreShape

/-! When a shard comes out of the store with the digest of its bytes. -/

namespace Litecast

/-- The bytes of a shard, wherever the version keeps them. -/
def StoredVersion.shard? (v : StoredVersion) (index : Nat) : Option Bytes :=
  if index < v.metadata.shardCount then
    match v.data with
    | some data =>
      some (Pieces.slice data (CheckpointStore.shardSpan v.metadata index).1
        (CheckpointStore.shardSpan v.metadata index).2)
    | none => v.shards.get? index
  else none

namespace CheckpointStore

theorem getShard_eq_ok {s : CheckpointStore} {name : Str} {index : Int} {shard : Bytes} :
    s.getShard name index = .ok shard ↔
      0 ≤ index ∧ ∃ v, s.versions.get? name = some v ∧ v.shard? index.toNat = some shard := by
  rw [getShard]
  cases hv : s.versions.get? name with
  | none => simp
  | some v =>
    simp only [StoredVersion.shard?, Option.some.injEq, exists_eq_left']
    by_cases hindex : index < 0 ∨ (v.metadata.shardCount : Int) ≤ index
    · rw [if_pos hindex, iff_false_left (by simp)]
      rintro ⟨hpos, hshard⟩
      rw [if_neg (by omega)] at hshard
      cases hshard
    · rw [if_neg hindex, if_pos (by omega)]
      have hpos : 0 ≤ index := by omega
      cases v.data with
      | some data => simp [hpos]
      | none =>
        cases hshard : v.shards.get? index.toNat with
        | none => simp
        | some held => simp [hpos]

theorem name_ne_of_validated {name : Str} {shardSize : Int}
    (h : (validateName name).or (validateShardSize shardSize) = none) : name ≠ [] := by
  rintro rfl
  cases h

theorem validated_of_pos {name : Str} {shardSize : Nat} (hname : name ≠ []) (hsize : 0 < shardSize) :
    (validateName name).or (validateShardSize shardSize) = none := by
  have hsize' : ¬ (shardSize : Int) ≤ 0 := by omega
  rw [validateName, if_neg hname, Option.none_or, validateShardSize, if_neg hsize']

/-- Whole versions without shard checksums, begun versions and rehashed shards. -/
def StoreOp.Rehashed : StoreOp → Prop
  | .put _ _ _ _ shardChecksums => shardChecksums = []
  | .putVerified .. => False
  | .putVerifiedShard .. => False
  | _ => True

section
variable [Library]

/-- Every shard the store gives with a checksum hashes to it. -/
def Coherent (s : CheckpointStore) : Prop :=
  ∀ (name : Str) (index : Int) (shard : Bytes) (checksum : Str),
    s.getShardWithChecksum name index = .ok (shard, checksum) → checksum = hexdigest shard

/-- The operation attaches checksums to a version held as one buffer, and one
of them is not the digest of its shard. -/
def Mislabels (s : CheckpointStore) : StoreOp → Prop
  | .beginVersion metadata shardChecksums =>
    shardChecksums.length = metadata.shardCount ∧
      ∃ v, s.versions.get? metadata.name = some v ∧ v.data.isSome ∧ v.metadata = metadata ∧
        v.shardChecksums = [] ∧ ∃ index shard, v.shard? index = some shard ∧
          shardChecksums[index]? ≠ some (hexdigest shard)
  | _ => False

/-- The checksums of a version are those of its shards; only a whole version
goes without. -/
structure Labelled (name : Str) (v : StoredVersion) : Prop where
  named : name ≠ [] ∧ v.metadata.name = name
  digests : v.shardChecksums ≠ [] → ∀ index shard, v.shard? index = some shard →
    v.shardChecksums[index]? = some (hexdigest shard)
  partly : v.data = none → v.shardChecksums.length = v.metadata.shardCount
  whole : v.data.isSome → 0 < v.metadata.shardSize

theorem Labelled.coherent {s : CheckpointStore} (hs : s.Every Labelled) : s.Coherent := by
  intro name index shard checksum h
  rw [getShardWithChecksum] at h
  cases hshard : s.getShard name index with
  | error e => simp [hshard] at h
  | ok held =>
    obtain ⟨hpos, v, hv, hheld⟩ := getShard_eq_ok.mp hshard
    simp only [hshard, hv, Option.elim] at h
    split_ifs at h with hnil
    · obtain ⟨rfl, rfl⟩ := Prod.mk.inj (Except.ok.inj h)
      rfl
    · rw [(hs _ _ hv).digests hnil _ _ hheld] at h
      obtain ⟨rfl, rfl⟩ := Prod.mk.inj (Except.ok.inj h)
      rfl

/-! ## One operation -/

theorem labelled_of_put {name : Str} {data : Bytes} {shardSize : Int} {checksum : Str}
    (h : (validateName name).or (validateShardSize shardSize) = none) :
    Labelled name { metadata := ⟨name, data.length, shardSize.toNat,
      shardCountOf data.length shardSize.toNat, checksum⟩, data := some data } where
  named := ⟨name_ne_of_validated h, rfl⟩
  digests := fun hne => absurd rfl hne
  partly := by simp
  whole := fun _ => shardSize_toNat_pos h

/-- A shard is taken into a begun version under its own checksum. -/
theorem Labelled.putShard {name : Str} {v : StoredVersion} (hv : Labelled name v) {index : Int}
    {retained : Bytes} (haccepted : shardRejection v index retained none = none) :
    Labelled name { v with shards := v.shards.insert index.toNat retained } := by
  refine { hv with digests := ?_ }
  intro hne other shard hshard
  cases hdata : v.data with
  | some data =>
    refine hv.digests hne other shard ?_
    simpa [StoredVersion.shard?, hdata] using hshard
  | none =>
    simp only [StoredVersion.shard?, hdata, OrderedDict.get?_insert] at hshard
    split_ifs at hshard with hcount hsame
    · obtain rfl := Option.some.inj hshard
      subst hsame
      -- the check of the shard against its checksum
      have hne' : v.shardChecksums ≠ [] := hne
      unfold shardRejection at haccepted
      split_ifs at haccepted
      cases hget : v.shardChecksums[index.toNat]? with
      | none => simp [hget] at haccepted
      | some expected =>
        simp only [hget, Option.getD_none, ite_eq_right_iff, reduceCtorEq, imp_false, not_not]
          at haccepted
        rw [haccepted]
    · refine hv.digests hne other shard ?_
      simpa [StoredVersion.shard?, hdata, hcount] using hshard

theorem Labelled.apply {s : CheckpointStore} (hs : s.Every Labelled) (op : StoreOp)
    (hop : op.Rehashed) (hok : ¬ s.Mislabels op) : (s.apply op).Every Labelled := by
  cases op with
  | put name data shardSize checksum shardChecksums =>
    obtain rfl : shardChecksums = [] := hop
    exact Every.put hs name data shardSize checksum [] fun hsize _ => labelled_of_put hsize
  | putVerified => exact absurd hop id
  | beginVersion metadata shardChecksums =>
    refine Every.beginVersion hs metadata shardChecksums ?_ ?_
    · intro hvalid hlength
      exact {
        named := ⟨name_ne_of_validated hvalid, rfl⟩
        digests := by
          intro _ index shard hshard
          simp [StoredVersion.shard?] at hshard
        partly := fun _ => hlength
        whole := by simp }
    · intro v hv hsame hnil hlength
      have hlabelled := hs _ _ hv
      refine { hlabelled with digests := ?_, partly := fun _ => hsame ▸ hlength }
      intro _ index shard hshard
      cases hdata : v.data with
      | none =>
        -- a begun version without checksums has no shards
        have hcount := hlabelled.partly hdata
        rw [hnil] at hcount
        simp [StoredVersion.shard?, ← hcount] at hshard
      | some data =>
        by_contra hwrong
        exact hok ⟨hlength, v, hv, by rw [hdata]; rfl, hsame, hnil, index, shard, hshard, hwrong⟩
  | putShard name index data =>
    exact Every.putShardCore hs name index data none fun v hv haccepted =>
      (hs _ _ hv).putShard haccepted
  | putVerifiedShard => exact absurd hop id
  | remove name => exact Every.remove hs name
  | clear => exact every_new s.capacity

/-- Whoever reads the mislabelled shard is given a checksum it does not have. -/
theorem mislabelling_breaks {s : CheckpointStore} (hs : s.Every Labelled) (op : StoreOp)
    (h : s.Mislabels op) : ¬ (s.apply op).Coherent := by
  cases op with
  | beginVersion metadata shardChecksums =>
    obtain ⟨hlength, v, hv, hwhole, hsame, hnil, index, shard, hshard, hwrong⟩ := h
    have hlabelled := hs _ _ hv
    have hvalid := validated_of_pos hlabelled.named.1 (hsame ▸ hlabelled.whole hwhole)
    have hafter : (s.apply (.beginVersion metadata shardChecksums)).versions.get? metadata.name =
        some { v with shardChecksums } := by
      simp [CheckpointStore.apply, CheckpointStore.beginVersion, hvalid, hlength, hv, hsame, hnil]
    have hcount : index < shardChecksums.length := by
      simp only [StoredVersion.shard?, hsame] at hshard
      split_ifs at hshard with hlt
      omega
    have hget : shardChecksums[index]? = some shardChecksums[index] :=
      List.getElem?_eq_getElem hcount
    have hgiven : (s.apply (.beginVersion metadata shardChecksums)).getShardWithChecksum
        metadata.name index = .ok (shard, shardChecksums[index]) := by
      have hread := getShard_eq_ok.mpr
        ⟨Int.natCast_nonneg index, { v with shardChecksums }, hafter, hshard⟩
      have hne : shardChecksums ≠ [] := List.ne_nil_of_length_pos (by omega)
      simp [getShardWithChecksum, hread, hafter, hne, hget]
    intro hcoherent
    exact hwrong (hcoherent _ _ _ _ hgiven ▸ hget)
  | _ => exact absurd h id

/-- **A shard comes with its digest unless a version was mislabelled.** In a
run of whole puts without shard checksums, begun versions, rehashed shards,
removals and clearings, every checksum the store hands out after any operation
is the digest of the shard it hands out exactly when no `begin_version`
attaches other checksums to a version held as one buffer. -/
theorem coherent_iff_never_mislabelled (capacity : Nat) (ops : List StoreOp)
    (hops : ∀ op ∈ ops, op.Rehashed) :
    Runs.Always apply Coherent (new capacity) ops ↔
      Runs.EveryStep apply (fun s op => ¬ s.Mislabels op) (new capacity) ops :=
  Runs.always_iff_everyStep (Every Labelled)
    (fun _ op hs hop hok => Labelled.apply hs op hop hok)
    (fun _ hs => Labelled.coherent hs)
    (fun _ op hs _ hnot => mislabelling_breaks hs op (Classical.not_not.mp hnot))
    (every_new capacity) hops

end

theorem coherent_iff_never_mislabelled_two_versions :
    letI := asciiLibrary
    let ops : List StoreOp :=
      [.put (str "v1") [1, 2, 3] 2 none [], .beginVersion ⟨str "v2", 1, 2, 1, []⟩ [hexdigest [3]],
        .putShard (str "v2") 0 [3]]
    Runs.Always apply Coherent (new 8) ops ↔
      Runs.EveryStep apply (fun s op => ¬ s.Mislabels op) (new 8) ops :=
  letI := asciiLibrary
  coherent_iff_never_mislabelled 8 _ (by simp [StoreOp.Rehashed])

/-- Four bytes put whole, and a checksum of zeros attached to them. -/
theorem attached_checksum_unverified :
    letI := asciiLibrary
    ¬ ∀ (capacity : Nat) (ops : List StoreOp), (∀ op ∈ ops, op.Rehashed) →
      Runs.Always apply Coherent (new capacity) ops := by
  intro claim
  let _ := asciiLibrary
  have h := claim 8 [.put (str "v1") [97, 98, 99, 100] 4 none [],
    .beginVersion ⟨str "v1", 4, 4, 1, hexdigest [97, 98, 99, 100]⟩ [List.replicate 64 (.ofChar '0')]]
    (by simp [StoreOp.Rehashed])
  have hwrong := Runs.always_foldl h (str "v1") 0 [97, 98, 99, 100] (List.replicate 64 (.ofChar '0')) rfl
  exact absurd hwrong (by decide)

end CheckpointStore

end Litecast
