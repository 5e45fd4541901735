import Litecast.StoreAccounting

/-! What every store operation keeps of the versions it holds, and what a
reader is given of them. -/

namespace Litecast.CheckpointStore

/-- A version under its own name, with a checksum for each shard or for none;
held as one buffer it has the geometry of the buffer. -/
structure Shaped (name : Str) (v : StoredVersion) : Prop where
  named : v.metadata.name = name
  checksums : v.shardChecksums = [] ∨ v.shardChecksums.length = v.metadata.shardCount
  whole : ∀ data, v.data = some data → 0 < v.metadata.shardSize ∧
    v.metadata.totalSize = data.length ∧
    v.metadata.shardCount = shardCountOf v.metadata.totalSize v.metadata.shardSize

def AllShaped (s : CheckpointStore) : Prop :=
  ∀ name v, s.versions.get? name = some v → Shaped name v

/-- `Q` holds of every version in the store. -/
def Every (Q : Str → StoredVersion → Prop) (s : CheckpointStore) : Prop :=
  ∀ name v, s.versions.get? name = some v → Q name v

section
variable {Q : Str → StoredVersion → Prop}

theorem every_new (capacity : Nat) : (new capacity).Every Q := by
  intro name v h
  simp [new] at h

/-- Evicting adds no version and changes none. -/
theorem get?_evictOldest {need : Int} {keep : Str → Bool} {fuel : Nat} {s : CheckpointStore}
    {name : Str} {v : StoredVersion}
    (h : (s.evictOldest need keep fuel).versions.get? name = some v) :
    s.versions.get? name = some v := by
  induction fuel generalizing s with
  | zero => exact h
  | succ fuel ih =>
    rw [evictOldest] at h
    split at h
    · exact h
    · split at h
      · exact OrderedDict.get?_of_drop (ih h)
      · exact h

theorem Every.evict {s : CheckpointStore} (hs : s.Every Q) (need : Int) (keep : Str → Bool) :
    (s.evict need keep).Every Q :=
  fun name v h => hs name v (get?_evictOldest h)

theorem Every.insert {s : CheckpointStore} (hs : s.Every Q) {name : Str} {v : StoredVersion}
    (hv : Q name v) (size : Int) :
    Every Q { s with versions := s.versions.insert name v, size } := by
  intro other w hw
  rw [OrderedDict.get?_insert] at hw
  split at hw
  · next heq =>
    obtain rfl := Option.some.inj hw
    exact heq ▸ hv
  · exact hs other w hw

theorem Every.erase {s : CheckpointStore} (hs : s.Every Q) (name : Str) (size : Int) :
    Every Q { s with versions := s.versions.erase name, size } := by
  intro other w hw
  rw [OrderedDict.get?_erase] at hw
  split at hw
  · cases hw
  · exact hs other w hw

theorem Every.storeComplete {s : CheckpointStore} (hs : s.Every Q) {metadata : VersionMetadata}
    {retained : Bytes} {shardChecksums : List Str}
    (hv : Q metadata.name { metadata, data := some retained, shardChecksums }) :
    (s.storeComplete metadata retained shardChecksums).Every Q := by
  rw [CheckpointStore.storeComplete]
  apply Every.insert _ hv
  apply Every.evict
  split
  · exact hs
  · exact hs.erase _ _

theorem Every.remove {s : CheckpointStore} (hs : s.Every Q) (name : Str) :
    (s.remove name).2.Every Q := by
  rw [CheckpointStore.remove]
  split
  · exact hs
  · exact hs.erase _ _

theorem get?_remove (s : CheckpointStore) (name other : Str) :
    (s.remove name).2.versions.get? other =
      if other = name then none else s.versions.get? other := by
  rw [CheckpointStore.remove]
  split
  · next hnone =>
    split_ifs with hname
    · rw [hname, hnone]
    · rfl
  · rw [OrderedDict.get?_erase]

theorem remove_capacity (s : CheckpointStore) (name : Str) :
    (s.remove name).2.capacity = s.capacity := by
  rw [CheckpointStore.remove]
  split <;> rfl

/-- A version is begun, or its checksums are attached to it. -/
theorem Every.beginVersion {s : CheckpointStore} (hs : s.Every Q) (metadata : VersionMetadata)
    (shardChecksums : List Str)
    (hbegun : (validateName metadata.name).or (validateShardSize metadata.shardSize) = none →
      shardChecksums.length = metadata.shardCount → Q metadata.name { metadata, shardChecksums })
    (hattached : ∀ v, s.versions.get? metadata.name = some v → v.metadata = metadata →
      v.shardChecksums = [] → shardChecksums.length = metadata.shardCount →
        Q metadata.name { v with shardChecksums }) :
    (s.beginVersion metadata shardChecksums).2.Every Q := by
  rw [CheckpointStore.beginVersion]
  split
  · exact hs
  · next hvalid =>
    split
    · exact hs
    · next hlength =>
      rw [not_not] at hlength
      split
      · next existing hget =>
        split
        · exact hs
        · next hsame =>
          simp only [not_or, not_not] at hsame
          split
          · next hnil => exact hs.insert (hattached existing hget hsame.1 hnil hlength) s.size
          · exact hs
      · exact hs.insert (hbegun hvalid hlength) s.size

end

/-! ## What eviction spares -/

theorem bytesFrom_le (s : CheckpointStore) (name : Str) : s.bytesFrom name ≤ s.heldBytes := by
  have hsplit := OrderedDict.total_append StoredVersion.storedBytes
    (s.versions.entries.takeWhile (fun e => e.1 ≠ name))
    (s.versions.entries.dropWhile (fun e => e.1 ≠ name))
  rw [List.takeWhile_append_dropWhile] at hsplit
  simp only [bytesFrom, heldBytes, OrderedDict.sum]
  omega

/-- The loop never comes to a version that fits beside the new bytes together
with all inserted after it. -/
theorem get?_evictOldest_of_fits {need : Int} (keep : Str → Bool) (fuel : Nat) {s : CheckpointStore}
    (hs : s.size = s.heldBytes) {name : Str} {v : StoredVersion}
    (hv : s.versions.get? name = some v) (hfits : s.bytesFrom name + need ≤ s.capacity) :
    (s.evictOldest need keep fuel).versions.get? name = some v := by
  induction fuel generalizing s with
  | zero => exact hv
  | succ fuel ih =>
    obtain ⟨⟨oldest, u⟩, rest, hent⟩ := List.exists_cons_of_ne_nil
      (List.ne_nil_of_mem (OrderedDict.get?_eq_some_iff.mp hv))
    have hdropped : (s.versions.drop 1).entries = rest := by
      simp only [OrderedDict.drop, hent, List.drop_one, List.tail_cons]
    rw [evictOldest]
    simp only [hent]
    split_ifs with hfull
    · have hheld := heldBytes_drop_one hent
      have hname : oldest ≠ name := by
        rintro rfl
        have hall : s.bytesFrom oldest = s.heldBytes := by
          simp [bytesFrom, heldBytes, OrderedDict.sum, hent]
        omega
      have hsame : bytesFrom { s with versions := s.versions.drop 1
                                      size := s.size - u.storedBytes } name =
          s.bytesFrom name := by
        simp [bytesFrom, hdropped, hent, hname]
      apply ih
      · simp only [heldBytes] at hheld hs ⊢
        omega
      · rw [OrderedDict.get?_eq_some_iff, hdropped]
        have hmem := OrderedDict.get?_eq_some_iff.mp hv
        rw [hent, List.mem_cons] at hmem
        rcases hmem with heq | hrest
        · exact absurd (Prod.mk.inj heq).1.symm hname
        · exact hrest
      · rw [hsame]
        exact hfits
    · exact hv

theorem bytesFrom_of_drop {s t : CheckpointStore} {n : Nat} (h : t.versions = s.versions.drop n)
    {name : Str} {v : StoredVersion} (hv : t.versions.get? name = some v) :
    t.bytesFrom name = s.bytesFrom name := by
  have hmem := OrderedDict.get?_eq_some_iff.mp hv
  rw [h] at hmem
  have hnodup := s.versions.nodup
  rw [← List.take_append_drop n s.versions.entries, List.map_append, List.nodup_append] at hnodup
  have hskip : ∀ e ∈ s.versions.entries.take n, (decide (e.1 ≠ name)) = true := by
    intro e he
    have hne := hnodup.2.2 e.1 (List.mem_map_of_mem he) name (List.mem_map.mpr ⟨_, hmem, rfl⟩)
    simpa using hne
  rw [bytesFrom, bytesFrom, h]
  conv_rhs => rw [← List.take_append_drop n s.versions.entries]
  rw [List.dropWhile_append_of_pos hskip]
  rfl

/-- The loop that keeps nothing on purpose spares those versions only. -/
theorem get?_evictOldest_iff (need : Nat) (fuel : Nat) (s : CheckpointStore)
    (hs : s.size = s.heldBytes) (hfuel : s.versions.entries.length ≤ fuel) {name : Str}
    {v : StoredVersion} (hv : s.versions.get? name = some v) :
    (s.evictOldest need (fun _ => false) fuel).versions.get? name = some v ↔
      s.bytesFrom name + need ≤ s.capacity := by
  constructor
  · intro hget
    obtain ⟨n, hevicted⟩ := evictOldest_spec need (fun _ => false) fuel s hs hfuel
    have hsame := bytesFrom_of_drop hevicted.versions hget
    have hle := bytesFrom_le (s.evictOldest need (fun _ => false) fuel) name
    have hcounted := hevicted.counted
    have hcapacity := hevicted.capacity
    rcases hevicted.stopped with hroom | hnil | ⟨e, rest, -, hkept⟩
    · omega
    · rw [OrderedDict.get?, hnil] at hget
      cases hget
    · cases hkept
  · intro hfits
    exact get?_evictOldest_of_fits _ fuel hs hv (by exact_mod_cast hfits)

/-- A new version goes in beside the versions eviction spares. -/
theorem get?_storeComplete_of_absent {s : CheckpointStore} (hs : s.size = s.heldBytes)
    {metadata : VersionMetadata} (habsent : s.versions.get? metadata.name = none)
    (retained : Bytes) (shardChecksums : List Str) (name : Str) :
    (s.storeComplete metadata retained shardChecksums).versions.get? name =
      if name = metadata.name then some { metadata, data := some retained, shardChecksums }
      else if s.bytesFrom name + retained.length ≤ s.capacity then s.versions.get? name
      else none := by
  have hpopped : s.popped metadata.name = s := by rw [popped, habsent]
  rw [storeComplete_eq, hpopped, OrderedDict.get?_insert]
  split_ifs with hname hfits
  · rfl
  · cases hv : s.versions.get? name with
    | none =>
      rw [Option.eq_none_iff_forall_not_mem]
      intro v hmem
      rw [get?_evictOldest hmem] at hv
      cases hv
    | some v => exact (get?_evictOldest_iff _ _ s hs (Nat.le_refl _) hv).mpr hfits
  · rw [Option.eq_none_iff_forall_not_mem]
    intro v hmem
    have hv := get?_evictOldest hmem
    exact hfits ((get?_evictOldest_iff _ _ s hs (Nat.le_refl _) hv).mp hmem)

theorem shaped_of_put {name : Str} {data : Bytes} {shardSize : Int} {checksum : Str}
    {shardChecksums : List Str}
    (hsize : (validateName name).or (validateShardSize shardSize) = none)
    (hchecksums : validateShardChecksums shardChecksums (shardCountOf data.length shardSize.toNat)
      = none) :
    Shaped name { metadata := ⟨name, data.length, shardSize.toNat,
      shardCountOf data.length shardSize.toNat, checksum⟩, data := some data, shardChecksums } where
  named := rfl
  checksums := by
    unfold validateShardChecksums at hchecksums
    split_ifs at hchecksums with hlength
    simp only [not_and, not_not] at hlength
    by_cases hnil : shardChecksums = []
    · exact Or.inl hnil
    · exact Or.inr (hlength hnil)
  whole := by
    intro retained hretained
    obtain rfl := Option.some.inj hretained
    exact ⟨shardSize_toNat_pos hsize, rfl, rfl⟩

theorem AllShaped.beginVersion {s : CheckpointStore} (hs : s.AllShaped)
    (metadata : VersionMetadata) (shardChecksums : List Str) :
    (s.beginVersion metadata shardChecksums).2.AllShaped := by
  refine Every.beginVersion hs metadata shardChecksums ?_ ?_
  · intro _ hlength
    exact ⟨rfl, Or.inr hlength, by intro data hdata; cases hdata⟩
  · intro v hget hsame hnil hlength
    have hshaped := hs _ _ hget
    exact { hshaped with checksums := Or.inr (hlength.trans (hsame ▸ rfl)) }

theorem lt_shardCount_of_getShard {s : CheckpointStore} {name : Str} {v : StoredVersion}
    {index : Nat} {shard : Bytes} (hv : s.versions.get? name = some v)
    (hshard : s.getShard name index = .ok shard) : index < v.metadata.shardCount := by
  rw [getShard, hv] at hshard
  simp only at hshard
  split at hshard
  · cases hshard
  · omega

section
variable [Library]

/-- An accepted shard changes the shard map of its version only. -/
theorem Every.putShardCore {Q : Str → StoredVersion → Prop} {s : CheckpointStore}
    (hs : s.Every Q) (name : Str) (index : Int) (retained : Bytes) (verifiedChecksum : Option Str)
    (hput : ∀ v, s.versions.get? name = some v →
      shardRejection v index retained verifiedChecksum = none →
        Q name { v with shards := v.shards.insert index.toNat retained }) :
    (s.putShardCore name index retained verifiedChecksum).2.Every Q := by
  rw [CheckpointStore.putShardCore]
  split
  · exact hs
  · next stored hget =>
    split
    · exact hs
    · next haccepted =>
      simp only
      split
      · exact hs.evict _ _
      · exact (hs.evict _ _).insert (hput stored hget haccepted) _

theorem AllShaped.putShardCore {s : CheckpointStore} (hs : s.AllShaped) (name : Str)
    (index : Int) (retained : Bytes) (verifiedChecksum : Option Str) :
    (s.putShardCore name index retained verifiedChecksum).2.AllShaped := by
  refine Every.putShardCore hs name index retained verifiedChecksum ?_
  intro v hget _
  have hshaped := hs _ _ hget
  exact ⟨hshaped.named, hshaped.checksums, hshaped.whole⟩

theorem Every.put {Q : Str → StoredVersion → Prop} {s : CheckpointStore} (hs : s.Every Q)
    (name : Str) (data : Bytes) (shardSize : Int) (checksum : Option Str)
    (shardChecksums : List Str)
    (hv : (validateName name).or (validateShardSize shardSize) = none →
      validateShardChecksums shardChecksums (shardCountOf data.length shardSize.toNat) = none →
        Q name { metadata := ⟨name, data.length, shardSize.toNat,
          shardCountOf data.length shardSize.toNat, hexdigest data⟩, data := some data, shardChecksums }) :
    (s.put name data shardSize checksum shardChecksums).2.Every Q := by
  rw [CheckpointStore.put]
  split
  · exact hs
  · next hsize =>
    split_ifs
    · exact hs
    · exact hs
    · simp only
      split
      · exact hs
      · next hchecksums => exact hs.storeComplete (hv hsize hchecksums)

theorem AllShaped.put {s : CheckpointStore} (hs : s.AllShaped) (name : Str) (data : Bytes)
    (shardSize : Int) (checksum : Option Str) (shardChecksums : List Str) :
    (s.put name data shardSize checksum shardChecksums).2.AllShaped :=
  Every.put hs name data shardSize checksum shardChecksums fun hsize hchecksums =>
    shaped_of_put hsize hchecksums

theorem Every.putVerified {Q : Str → StoredVersion → Prop} {s : CheckpointStore} (hs : s.Every Q)
    (name : Str) (data : Bytes) (shardSize : Int) (checksum : Str) (shardChecksums : List Str)
    (hv : (validateName name).or (validateShardSize shardSize) = none →
      validateShardChecksums shardChecksums (shardCountOf data.length shardSize.toNat) = none →
        Q name { metadata := ⟨name, data.length, shardSize.toNat,
          shardCountOf data.length shardSize.toNat, lower checksum⟩
                 data := some data, shardChecksums }) :
    (s.putVerified name data shardSize checksum shardChecksums).2.Every Q := by
  rw [CheckpointStore.putVerified]
  split
  · exact hs
  · next hsize =>
    split_ifs
    · exact hs
    · exact hs
    · simp only
      split
      · exact hs
      · next hchecksums => exact hs.storeComplete (hv hsize hchecksums)

theorem AllShaped.putVerified {s : CheckpointStore} (hs : s.AllShaped) (name : Str)
    (data : Bytes) (shardSize : Int) (checksum : Str) (shardChecksums : List Str) :
    (s.putVerified name data shardSize checksum shardChecksums).2.AllShaped :=
  Every.putVerified hs name data shardSize checksum shardChecksums fun hsize hchecksums =>
    shaped_of_put hsize hchecksums

theorem AllShaped.apply {s : CheckpointStore} (hs : s.AllShaped) (op : StoreOp) :
    (s.apply op).AllShaped := by
  cases op with
  | put name data shardSize checksum shardChecksums =>
    exact hs.put name data shardSize checksum shardChecksums
  | putVerified name data shardSize checksum shardChecksums =>
    exact hs.putVerified name data shardSize checksum shardChecksums
  | beginVersion metadata shardChecksums => exact hs.beginVersion metadata shardChecksums
  | putShard name index data => exact hs.putShardCore name index data none
  | putVerifiedShard name index data verifiedChecksum =>
    exact hs.putShardCore name index data (some (lower verifiedChecksum))
  | remove name => exact Every.remove hs name
  | clear => exact every_new s.capacity

/-- A store some run of operations has left. -/
def Reached (s : CheckpointStore) : Prop :=
  ∃ (capacity : Nat) (ops : List StoreOp), ops.foldl CheckpointStore.apply (new capacity) = s

theorem Reached.allShaped {s : CheckpointStore} (hs : s.Reached) : s.AllShaped := by
  obtain ⟨capacity, ops, rfl⟩ := hs
  exact Runs.foldl_keeps (fun s op (hs : s.AllShaped) => hs.apply op) (every_new capacity) ops

/-! ## Reading shards -/

/-- The checksums on record are the digests of what the store holds. -/
structure Digested (s : CheckpointStore) : Prop where
  version : ∀ name v data, s.versions.get? name = some v → v.data = some data →
    v.metadata.checksum = hexdigest data
  shard : ∀ name v (index : Nat) shard checksum, s.versions.get? name = some v →
    s.getShard name index = .ok shard → v.shardChecksums[index]? = some checksum →
      checksum = hexdigest shard

/-- A shard the store gives comes with its digest. -/
theorem getShardWithChecksum_of_ok {s : CheckpointStore} (hshaped : s.AllShaped)
    (hdigested : s.Digested) {name : Str} {index : Nat} {shard : Bytes}
    (hshard : s.getShard name index = .ok shard) :
    s.getShardWithChecksum name index = .ok (shard, hexdigest shard) := by
  cases hv : s.versions.get? name with
  | none => simp [getShard, hv] at hshard
  | some v =>
    by_cases hnil : v.shardChecksums = []
    · simp [getShardWithChecksum, hshard, hv, hnil]
    · have hindex := lt_shardCount_of_getShard hv hshard
      have hlength := (hshaped _ _ hv).checksums.resolve_left hnil
      have hget : v.shardChecksums[index]? = some v.shardChecksums[index] :=
        List.getElem?_eq_getElem (by omega)
      have hdigest := hdigested.shard _ _ _ _ _ hv hshard hget
      simp [getShardWithChecksum, hshard, hv, hnil, hget, hdigest]

theorem getShardWithChecksum_of_error {s : CheckpointStore} {name : Str} {index : Nat} {e : Exc}
    (hshard : s.getShard name index = .error e) :
    s.getShardWithChecksum name index = .error e := by
  rw [getShardWithChecksum, hshard]

end

end Litecast.CheckpointStore
