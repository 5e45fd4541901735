import Litecast.Lib.OldestFirst
import Litecast.Lib.Runs
import Litecast.Store

/-! The running counter of the store against the bytes its versions hold. -/

namespace Litecast.CheckpointStore

/-! ## Runs of store operations -/

inductive StoreOp where
  | put (name : Str) (data : Bytes) (shardSize : Int) (checksum : Option Str)
      (shardChecksums : List Str)
  | putVerified (name : Str) (data : Bytes) (shardSize : Int) (checksum : Str)
      (shardChecksums : List Str)
  | beginVersion (metadata : VersionMetadata) (shardChecksums : List Str)
  | putShard (name : Str) (index : Int) (data : Bytes)
  | putVerifiedShard (name : Str) (index : Int) (data : Bytes) (verifiedChecksum : Str)
  | remove (name : Str)
  | clear

/-- The store an operation leaves, whether it returned or raised. -/
def apply [Library] (s : CheckpointStore) : StoreOp → CheckpointStore
  | .put name data shardSize checksum shardChecksums =>
    (s.put name data shardSize checksum shardChecksums).2
  | .putVerified name data shardSize checksum shardChecksums =>
    (s.putVerified name data shardSize checksum shardChecksums).2
  | .beginVersion metadata shardChecksums => (s.beginVersion metadata shardChecksums).2
  | .putShard name index data => (s.putShard name index data).2
  | .putVerifiedShard name index data verifiedChecksum =>
    (s.putVerifiedShard name index data verifiedChecksum).2
  | .remove name => (s.remove name).2
  | .clear => s.clear

/-- `CheckpointStore(capacity_bytes)` -/
def new (capacity : Nat) : CheckpointStore := { capacity }

/-- `begin_version` is given metadata whose count is `ceil(total_size / shard_size)`. -/
def StoreOp.CountsShards : StoreOp → Prop
  | .beginVersion metadata _ =>
    metadata.shardCount = shardCountOf metadata.totalSize metadata.shardSize
  | _ => True

/-- `used_bytes` is what the versions hold, within the capacity. -/
def Accounted (s : CheckpointStore) : Prop :=
  s.size = s.heldBytes ∧ s.size ≤ s.capacity

/-! ## The operation that counts bytes twice -/

/-- What is held from `name` on in insertion order: evicting for `name` stops there. -/
def bytesFrom (s : CheckpointStore) (name : Str) : Nat :=
  OrderedDict.total StoredVersion.storedBytes (s.versions.entries.dropWhile (fun e => e.1 ≠ name))

/-- A shard that passes the checks and fits goes into a version already held
as one buffer, whose size does not depend on its shards. -/
def OvercountsShard [Library] (s : CheckpointStore) (name : Str) (index : Int) (data : Bytes)
    (verifiedChecksum : Option Str) : Prop :=
  ∃ stored, s.versions.get? name = some stored ∧ stored.data.isSome = true ∧
    shardRejection stored index data verifiedChecksum = none ∧
    s.bytesFrom name + data.length ≤ s.capacity

def Overcounts [Library] (s : CheckpointStore) : StoreOp → Prop
  | .putShard name index data => s.OvercountsShard name index data none
  | .putVerifiedShard name index data verifiedChecksum =>
    s.OvercountsShard name index data (some (lower verifiedChecksum))
  | _ => False

/-! ## The invariant -/

/-- A version's shard count is the ceiling its geometry gives, and a version
filled as one buffer has no shards besides. -/
structure SoundVersion (v : StoredVersion) : Prop where
  shardSize_pos : 0 < v.metadata.shardSize
  count : v.metadata.shardCount = shardCountOf v.metadata.totalSize v.metadata.shardSize
  whole : v.data.isSome = true → ∀ i, v.shards.get? i = none

structure Ledger (s : CheckpointStore) : Prop where
  counted : s.size = s.heldBytes
  bounded : s.size ≤ s.capacity
  sound : ∀ name v, s.versions.get? name = some v → SoundVersion v

theorem Ledger.accounted {s : CheckpointStore} (h : s.Ledger) : s.Accounted :=
  ⟨h.counted, h.bounded⟩

theorem ledger_new (capacity : Nat) : (new capacity).Ledger where
  counted := rfl
  bounded := by simp [new]
  sound := by intro name v h; simp [new] at h

theorem shardSize_toNat_pos {name : Str} {shardSize : Int}
    (h : (validateName name).or (validateShardSize shardSize) = none) : 0 < shardSize.toNat := by
  rw [Option.or_eq_none_iff] at h
  have := h.2
  unfold validateShardSize at this
  split at this
  · cases this
  · omega

/-! ## Eviction -/

/-- How many versions the loop pops. -/
def evictions (s : CheckpointStore) (need : Int) (keep : Str → Bool) : Nat :=
  OldestFirst.count (fun e => e.2.storedBytes) (fun e => keep e.1) (s.size + need - s.capacity)
    s.versions.entries

/-- The store without its `n` oldest versions. -/
def dropOldest (s : CheckpointStore) (n : Nat) : CheckpointStore :=
  { s with versions := s.versions.drop n
           size := s.size - OldestFirst.weightOf (fun e => e.2.storedBytes) n s.versions.entries }

theorem dropOldest_zero (s : CheckpointStore) : s.dropOldest 0 = s := by
  rw [dropOldest, OldestFirst.weightOf_zero]
  have hsame : s.versions.drop 0 = s.versions := by
    ext1
    rfl
  simp [hsame]

theorem evictOldest_eq (need : Int) (keep : Str → Bool) {fuel : Nat} {s : CheckpointStore}
    (hfuel : s.versions.entries.length ≤ fuel) :
    s.evictOldest need keep fuel = s.dropOldest (s.evictions need keep) := by
  induction fuel generalizing s with
  | zero =>
    have hnil : s.versions.entries = [] := List.length_eq_zero_iff.mp (by omega)
    rw [evictions, hnil]
    exact (dropOldest_zero s).symm
  | succ fuel ih =>
    rw [evictOldest, evictions]
    cases hent : s.versions.entries with
    | nil => exact (dropOldest_zero s).symm
    | cons e rest =>
      obtain ⟨oldest, v⟩ := e
      simp only [OldestFirst.count]
      by_cases hgo : s.size + need > s.capacity ∧ keep oldest = false
      · have hgo' : 0 < s.size + need - s.capacity ∧ keep oldest = false := ⟨by omega, hgo.2⟩
        have hrest : (s.versions.drop 1).entries = rest := by
          simp only [OrderedDict.drop, hent]
          rfl
        have hexcess : s.size - v.storedBytes + need - s.capacity =
            s.size + need - s.capacity - v.storedBytes := by omega
        rw [if_pos hgo, if_pos hgo', ih (by rw [hrest]; simpa [hent] using hfuel), evictions]
        simp only [dropOldest, hrest, hent, hexcess, OldestFirst.weightOf_succ]
        congr 1
        · omega
        · ext1
          simp only [OrderedDict.drop, hent]
          rfl
      · have hgo' : ¬ (0 < s.size + need - s.capacity ∧ keep oldest = false) := by
          rintro ⟨hexcess, hkeep⟩
          exact hgo ⟨by omega, hkeep⟩
        rw [if_neg hgo, if_neg hgo', dropOldest_zero]

theorem evict_eq (s : CheckpointStore) (need : Int) (keep : Str → Bool) :
    s.evict need keep = s.dropOldest (s.evictions need keep) :=
  evictOldest_eq need keep (Nat.le_refl _)

theorem evictions_stopped (s : CheckpointStore) (need : Int) (keep : Str → Bool) :
    (s.dropOldest (s.evictions need keep)).size + need ≤ s.capacity ∨
      ∀ e ∈ (s.dropOldest (s.evictions need keep)).versions.entries.head?, keep e.1 = true := by
  refine (OldestFirst.stopped (fun e => e.2.storedBytes) (fun e => keep e.1)
    (s.size + need - s.capacity) s.versions.entries).imp (fun hroom => ?_) id
  simp only [dropOldest, evictions]
  omega

theorem dropOldest_heldBytes (s : CheckpointStore) (n : Nat) :
    OldestFirst.weightOf (fun e => e.2.storedBytes) n s.versions.entries +
      (s.dropOldest n).heldBytes = s.heldBytes := by
  have hsplit := OrderedDict.total_append StoredVersion.storedBytes (s.versions.entries.take n)
    (s.versions.entries.drop n)
  rw [List.take_append_drop] at hsplit
  exact hsplit.symm

/-- What the loop leaves: a suffix of the versions, counted exactly, none of
the removed names kept on purpose, and a reason to have stopped. -/
structure Evicted (s t : CheckpointStore) (need : Int) (keep : Str → Bool) (n : Nat) : Prop where
  versions : t.versions = s.versions.drop n
  capacity : t.capacity = s.capacity
  counted : t.size = t.heldBytes
  shrinks : t.size ≤ s.size
  spared : ∀ e ∈ s.versions.entries.take n, keep e.1 = false
  stopped : t.size + need ≤ t.capacity ∨ t.versions.entries = [] ∨
    ∃ e rest, t.versions.entries = e :: rest ∧ keep e.1 = true

theorem heldBytes_drop_one {s : CheckpointStore} {oldest : Str} {v : StoredVersion}
    {rest : List (Str × StoredVersion)} (h : s.versions.entries = (oldest, v) :: rest) :
    (s.versions.drop 1).sum StoredVersion.storedBytes + v.storedBytes = s.heldBytes := by
  simp [heldBytes, OrderedDict.sum, OrderedDict.drop, h, Nat.add_comm]

theorem evictOldest_spec (need : Int) (keep : Str → Bool) (fuel : Nat) (s : CheckpointStore)
    (hs : s.size = s.heldBytes) (hfuel : s.versions.entries.length ≤ fuel) :
    ∃ n, Evicted s (s.evictOldest need keep fuel) need keep n := by
  refine ⟨s.evictions need keep, ?_⟩
  rw [evictOldest_eq need keep hfuel]
  have hheld := s.dropOldest_heldBytes (s.evictions need keep)
  refine ⟨rfl, rfl, ?_, ?_, fun e => OldestFirst.not_keep_of_mem_take, ?_⟩
  · simp only [dropOldest] at hheld ⊢
    omega
  · simp only [dropOldest]
    omega
  · refine (s.evictions_stopped need keep).imp id fun hkept => ?_
    cases hleft : (s.dropOldest (s.evictions need keep)).versions.entries with
    | nil => exact Or.inl rfl
    | cons e rest => exact Or.inr ⟨e, rest, rfl, hkept e (by rw [hleft]; rfl)⟩

theorem evict_spec {s : CheckpointStore} (hs : s.size = s.heldBytes) (need : Int)
    (keep : Str → Bool) : ∃ n, Evicted s (s.evict need keep) need keep n :=
  evictOldest_spec need keep _ s hs (Nat.le_refl _)

namespace Evicted

variable {s t : CheckpointStore} {need : Int} {keep : Str → Bool} {n : Nat}

theorem get?_of_get? (h : Evicted s t need keep n) {name : Str} {v : StoredVersion}
    (hv : t.versions.get? name = some v) : s.versions.get? name = some v := by
  rw [h.versions] at hv
  exact OrderedDict.get?_of_drop hv

theorem ledger (h : Evicted s t need keep n) (hs : s.Ledger) : t.Ledger where
  counted := h.counted
  bounded := by
    have h1 := h.shrinks
    have h2 := hs.bounded
    rw [h.capacity]
    omega
  sound := fun name v hv => hs.sound name v (h.get?_of_get? hv)

/-- A version the loop must keep is still there. -/
theorem get?_of_kept (h : Evicted s t need keep n) {name : Str} {v : StoredVersion}
    (hv : s.versions.get? name = some v) (hk : keep name = true) :
    t.versions.get? name = some v := by
  have hmem := OrderedDict.get?_eq_some_iff.mp hv
  rw [h.versions, OrderedDict.get?_eq_some_iff]
  rw [← List.take_append_drop n s.versions.entries, List.mem_append] at hmem
  rcases hmem with hm | hm
  · have := h.spared _ hm
    simp [hk] at this
  · exact hm

/-- Stopping for nothing but room, or at the end, leaves room for what fits at all. -/
theorem fits (h : Evicted s t need (fun _ => false) n) (hneed : need ≤ s.capacity) :
    t.size + need ≤ t.capacity := by
  rcases h.stopped with hroom | hnil | ⟨e, rest, _, hk⟩
  · exact hroom
  · have hzero : t.size = 0 := by
      rw [h.counted]
      simp [heldBytes, OrderedDict.sum, hnil]
    rw [hzero, h.capacity]
    omega
  · simp at hk

end Evicted

/-! ## Removal -/

theorem Ledger.removed {s : CheckpointStore} (hs : s.Ledger) {name : Str} {v : StoredVersion}
    (hv : s.versions.get? name = some v) :
    Ledger { s with versions := s.versions.erase name, size := s.size - v.storedBytes } where
  counted := by
    have herase := OrderedDict.sum_erase StoredVersion.storedBytes hv
    have hcount := hs.counted
    simp only [heldBytes] at hcount ⊢
    omega
  bounded := by
    have := hs.bounded
    simp only
    omega
  sound := by
    intro other w hw
    simp only [OrderedDict.get?_erase] at hw
    split at hw
    · cases hw
    · exact hs.sound other w hw

theorem Ledger.remove {s : CheckpointStore} (hs : s.Ledger) (name : Str) :
    (s.remove name).2.Ledger := by
  unfold CheckpointStore.remove
  split
  · exact hs
  · next v hv => exact hs.removed hv

theorem Ledger.clear {s : CheckpointStore} : s.clear.Ledger where
  counted := rfl
  bounded := by simp [CheckpointStore.clear]
  sound := by intro name v h; simp [CheckpointStore.clear] at h

/-! ## Complete versions -/

/-- `_store_complete` after its `pop`: a fresh name, made to fit by eviction. -/
theorem Ledger.stored {s : CheckpointStore} (hs : s.Ledger) (name : Str) (v : StoredVersion)
    (habsent : s.versions.get? name = none) (hsound : SoundVersion v)
    (hfits : s.size + v.storedBytes ≤ s.capacity) :
    Ledger { s with versions := s.versions.insert name v, size := s.size + v.storedBytes } where
  counted := by
    have hinsert := OrderedDict.sum_insert_of_absent StoredVersion.storedBytes v habsent
    have hcount := hs.counted
    simp only [heldBytes] at hcount ⊢
    omega
  bounded := hfits
  sound := by
    intro other w hw
    simp only [OrderedDict.get?_insert] at hw
    split at hw
    · cases hw; exact hsound
    · exact hs.sound other w hw

/-- `_store_complete` after popping the replaced version. -/
def popped (s : CheckpointStore) (name : Str) : CheckpointStore :=
  match s.versions.get? name with
  | none => s
  | some previous =>
    { s with versions := s.versions.erase name, size := s.size - previous.storedBytes }

theorem storeComplete_eq (s : CheckpointStore) (metadata : VersionMetadata) (retained : Bytes)
    (shardChecksums : List Str) :
    let t := (s.popped metadata.name).evict retained.length (fun _ => false)
    s.storeComplete metadata retained shardChecksums =
      { t with versions := t.versions.insert metadata.name
                 { metadata, data := some retained, shardChecksums }
               size := t.size + retained.length } := rfl

theorem get?_storeComplete (s : CheckpointStore) (metadata : VersionMetadata) (retained : Bytes)
    (shardChecksums : List Str) :
    (s.storeComplete metadata retained shardChecksums).versions.get? metadata.name =
      some { metadata, data := some retained, shardChecksums } := by
  rw [storeComplete_eq, OrderedDict.get?_insert, if_pos rfl]

@[simp] theorem popped_capacity (s : CheckpointStore) (name : Str) :
    (s.popped name).capacity = s.capacity := by
  unfold popped; split <;> rfl

theorem popped_absent (s : CheckpointStore) (name : Str) :
    (s.popped name).versions.get? name = none := by
  unfold popped
  split
  · next h => exact h
  · simp

theorem Ledger.popped {s : CheckpointStore} (hs : s.Ledger) (name : Str) :
    (s.popped name).Ledger := by
  unfold CheckpointStore.popped
  split
  · exact hs
  · next v hv => exact hs.removed hv

theorem Ledger.storeComplete {s : CheckpointStore} (hs : s.Ledger) {metadata : VersionMetadata}
    {retained : Bytes} (shardChecksums : List Str) (hpos : 0 < metadata.shardSize)
    (hcount : metadata.shardCount = shardCountOf metadata.totalSize metadata.shardSize)
    (hfits : retained.length ≤ s.capacity) :
    (s.storeComplete metadata retained shardChecksums).Ledger := by
  have hp := hs.popped metadata.name
  obtain ⟨n, ht⟩ := evict_spec hp.counted retained.length (fun _ => false)
  have habsent : ((s.popped metadata.name).evict retained.length fun _ => false).versions.get?
      metadata.name = none := by
    cases hget : ((s.popped metadata.name).evict retained.length fun _ => false).versions.get?
        metadata.name with
    | none => rfl
    | some v => simpa [popped_absent] using ht.get?_of_get? hget
  rw [storeComplete_eq]
  exact (ht.ledger hp).stored metadata.name { metadata, data := some retained, shardChecksums }
    habsent ⟨hpos, hcount, by simp⟩ (ht.fits (by simpa using hfits))

section
variable [Library]

theorem Ledger.put {s : CheckpointStore} (hs : s.Ledger) (name : Str) (data : Bytes)
    (shardSize : Int) (checksum : Option Str) (shardChecksums : List Str) :
    (s.put name data shardSize checksum shardChecksums).2.Ledger := by
  unfold CheckpointStore.put
  split
  · exact hs
  · next hargs =>
    split
    · exact hs
    · next hsize =>
      split
      · exact hs
      · dsimp only
        split
        · exact hs
        · exact hs.storeComplete shardChecksums (shardSize_toNat_pos hargs) rfl (by simpa using hsize)

theorem Ledger.putVerified {s : CheckpointStore} (hs : s.Ledger) (name : Str) (data : Bytes)
    (shardSize : Int) (checksum : Str) (shardChecksums : List Str) :
    (s.putVerified name data shardSize checksum shardChecksums).2.Ledger := by
  unfold CheckpointStore.putVerified
  split
  · exact hs
  · next hargs =>
    split
    · exact hs
    · split
      · exact hs
      · next hsize =>
        dsimp only
        split
        · exact hs
        · exact hs.storeComplete shardChecksums (shardSize_toNat_pos hargs) rfl (by simpa using hsize)

/-! ## Versions filled shard by shard -/

omit [Library] in
/-- A version replaced in place, the counter moved by `change`. -/
theorem Ledger.replaced {s : CheckpointStore} (hs : s.Ledger) {name : Str} {v : StoredVersion}
    (hv : s.versions.get? name = some v) (w : StoredVersion) (hsound : SoundVersion w)
    (change : Int) (hchange : (w.storedBytes : Int) = v.storedBytes + change)
    (hfits : s.size + change ≤ s.capacity) :
    Ledger { s with versions := s.versions.insert name w, size := s.size + change } where
  counted := by
    have hinsert := OrderedDict.sum_insert_of_present StoredVersion.storedBytes w hv
    have hcount := hs.counted
    simp only [heldBytes] at hcount ⊢
    omega
  bounded := hfits
  sound := by
    intro other u hu
    simp only [OrderedDict.get?_insert] at hu
    split at hu
    · cases hu; exact hsound
    · exact hs.sound other u hu

omit [Library] in
theorem Ledger.beginVersion {s : CheckpointStore} (hs : s.Ledger) {metadata : VersionMetadata}
    (shardChecksums : List Str)
    (hcount : metadata.shardCount = shardCountOf metadata.totalSize metadata.shardSize) :
    (s.beginVersion metadata shardChecksums).2.Ledger := by
  unfold CheckpointStore.beginVersion
  split
  · exact hs
  · next hargs =>
    split
    · exact hs
    · split
      · next existing hexisting =>
        split
        · exact hs
        · split
          · have hold := hs.sound _ _ hexisting
            have := hs.replaced hexisting { existing with shardChecksums }
              ⟨hold.shardSize_pos, hold.count, hold.whole⟩ 0 (by simp [StoredVersion.storedBytes])
              (by simpa using hs.bounded)
            simpa using this
          · exact hs
      · next habsent =>
        have hpos : 0 < metadata.shardSize := by simpa using shardSize_toNat_pos hargs
        have hzero : StoredVersion.storedBytes { metadata, shardChecksums } = 0 := rfl
        have := hs.stored metadata.name { metadata, shardChecksums } habsent
          ⟨hpos, hcount, by simp⟩ (by simpa [hzero] using hs.bounded)
        simpa [hzero] using this

omit [Library] in
/-- The loop of `_put_shard` pops nothing from the written version on. -/
theorem Evicted.bytesFrom_eq {s t : CheckpointStore} {need : Int} {name : Str} {n : Nat}
    (h : Evicted s t need (fun oldest => oldest = name) n) : t.bytesFrom name = s.bytesFrom name := by
  have hskip : ∀ e ∈ s.versions.entries.take n, (decide (e.1 ≠ name)) = true := by
    intro e he
    simpa using h.spared e he
  unfold bytesFrom
  rw [h.versions]
  conv_rhs => rw [← List.take_append_drop n s.versions.entries]
  rw [List.dropWhile_append_of_pos hskip]
  rfl

omit [Library] in
/-- Whether the loop of `_put_shard` makes room depends on the versions it may
not pop: those from the written one on. -/
theorem Evicted.fits_iff {s t : CheckpointStore} {need : Int} {name : Str} {n : Nat}
    (h : Evicted s t need (fun oldest => oldest = name) n) {v : StoredVersion}
    (hv : s.versions.get? name = some v) :
    t.size + need ≤ t.capacity ↔ s.bytesFrom name + need ≤ s.capacity := by
  have hsame := h.bytesFrom_eq
  have hle : (t.bytesFrom name : Int) ≤ t.size := by
    rw [h.counted]
    have := OrderedDict.total_append StoredVersion.storedBytes
      (t.versions.entries.takeWhile (fun e => e.1 ≠ name))
      (t.versions.entries.dropWhile (fun e => e.1 ≠ name))
    rw [List.takeWhile_append_dropWhile] at this
    simp only [heldBytes, bytesFrom, OrderedDict.sum]
    omega
  constructor
  · intro hroom
    rw [h.capacity] at hroom
    omega
  · intro hroom
    rcases h.stopped with hdone | hnil | ⟨e, rest, hent, hk⟩
    · exact hdone
    · -- the written version itself is never popped
      have := OrderedDict.get?_eq_some_iff.mp (h.get?_of_kept hv (by simp))
      simp [hnil] at this
    · have hall : t.bytesFrom name = t.heldBytes := by
        have hname : e.1 = name := by simpa using hk
        simp [bytesFrom, heldBytes, OrderedDict.sum, hent, hname]
      have hcount := h.counted
      rw [h.capacity]
      omega

omit [Library] in
theorem storedBytes_with_shard {v : StoredVersion} (hdata : v.data = none) (i : Nat)
    (retained : Bytes) :
    (StoredVersion.storedBytes { v with shards := v.shards.insert i retained } : Int) =
      v.storedBytes + additionalBytes v i retained := by
  simp only [StoredVersion.storedBytes, hdata, additionalBytes]
  cases hprev : v.shards.get? i with
  | none =>
    have := OrderedDict.sum_insert_of_absent List.length retained hprev
    simp only [Option.elim_none]
    omega
  | some previous =>
    have := OrderedDict.sum_insert_of_present List.length retained hprev
    simp only [Option.elim_some]
    omega

/-- `_put_shard` on a version held shard by shard, or one it refuses. -/
theorem Ledger.putShardCore {s : CheckpointStore} (hs : s.Ledger) {name : Str} {index : Int}
    {data : Bytes} {verifiedChecksum : Option Str}
    (hok : ¬ s.OvercountsShard name index data verifiedChecksum) :
    (s.putShardCore name index data verifiedChecksum).2.Ledger := by
  unfold CheckpointStore.putShardCore
  split
  · exact hs
  · next v hv =>
    split
    · exact hs
    · next haccept =>
      obtain ⟨n, ht⟩ := evict_spec hs.counted (additionalBytes v index.toNat data)
        (fun oldest => oldest = name)
      have hkept := ht.get?_of_kept hv (by simp)
      have hsound := hs.sound name v hv
      dsimp only
      split
      · exact ht.ledger hs
      · next hroom =>
        have hdata : v.data = none := by
          cases hdata : v.data with
          | none => rfl
          | some whole =>
            have hnone : v.shards.get? index.toNat = none := hsound.whole (by simp [hdata]) _
            have hfits := (ht.fits_iff hv).mp (by omega)
            simp only [additionalBytes, hnone, Option.elim_none] at hfits
            exact absurd ⟨v, hv, by simp [hdata], haccept, by omega⟩ hok
        exact (ht.ledger hs).replaced hkept
          { v with shards := v.shards.insert index.toNat data }
          ⟨hsound.shardSize_pos, hsound.count, by simp [hdata]⟩
          (additionalBytes v index.toNat data)
          (storedBytes_with_shard hdata index.toNat data) (by omega)

omit [Library] in
/-- Every index below the count of a sound version is that of a non-empty piece. -/
theorem expectedSize_pos {v : StoredVersion} (hv : SoundVersion v) (index : Int)
    (hlo : 0 ≤ index) (hhi : index < v.metadata.shardCount) : 0 < expectedSize v.metadata index := by
  obtain ⟨i, rfl⟩ := Int.eq_ofNat_of_zero_le hlo
  have hi : i < shardCountOf v.metadata.totalSize v.metadata.shardSize := by
    have := hv.count
    omega
  have hpos := hv.shardSize_pos
  have hlt : i * v.metadata.shardSize < v.metadata.totalSize := by
    unfold shardCountOf at hi
    split at hi
    · omega
    · have h1 : (i + 1) * v.metadata.shardSize ≤ v.metadata.totalSize + v.metadata.shardSize - 1 :=
        (Nat.le_div_iff_mul_le hpos).mp hi
      rw [Nat.add_mul, Nat.one_mul] at h1
      omega
  unfold expectedSize
  have : ((i * v.metadata.shardSize : Nat) : Int) < v.metadata.totalSize := by exact_mod_cast hlt
  push_cast at this
  omega

/-- A shard accepted into a version held whole is counted and not held. -/
theorem overcounted {s : CheckpointStore} (hs : s.Ledger) {name : Str} {index : Int}
    {data : Bytes} {verifiedChecksum : Option Str}
    (hover : s.OvercountsShard name index data verifiedChecksum) :
    ¬ (s.putShardCore name index data verifiedChecksum).2.Accounted := by
  obtain ⟨v, hv, hwhole, haccept, hfits⟩ := hover
  have hsound := hs.sound name v hv
  have hadd : additionalBytes v index.toNat data = data.length := by
    simp [additionalBytes, hsound.whole hwhole]
  obtain ⟨n, ht⟩ := evict_spec hs.counted (additionalBytes v index.toNat data)
    (fun oldest => oldest = name)
  have hroom := (ht.fits_iff hv).mpr (by rw [hadd]; omega)
  have hkept := ht.get?_of_kept hv (by simp)
  have hlen : 0 < data.length := by
    unfold shardRejection at haccept
    split at haccept
    · cases haccept
    · next hindex =>
      split at haccept
      · cases haccept
      · next hsize =>
        have := expectedSize_pos hsound index (by omega) (by omega)
        omega
  have hcount := ht.counted
  have hsame := OrderedDict.sum_insert_of_present StoredVersion.storedBytes
    { v with shards := v.shards.insert index.toNat data } hkept
  have hbytes : StoredVersion.storedBytes { v with shards := v.shards.insert index.toNat data } =
      v.storedBytes := by
    obtain ⟨whole, hdata⟩ := Option.isSome_iff_exists.mp hwhole
    simp [StoredVersion.storedBytes, hdata]
  rintro ⟨hacc, _⟩
  simp only [CheckpointStore.putShardCore, hv, haccept, hadd] at hacc hroom hcount hsame
  rw [if_neg (by omega)] at hacc
  simp only [heldBytes] at hacc hcount
  rw [hbytes] at hsame
  omega

/-! ## Whole runs -/

theorem Ledger.apply {s : CheckpointStore} (hs : s.Ledger) (op : StoreOp)
    (hop : op.CountsShards) (hok : ¬ s.Overcounts op) : (s.apply op).Ledger := by
  cases op with
  | put name data shardSize checksum shardChecksums => exact hs.put ..
  | putVerified name data shardSize checksum shardChecksums => exact hs.putVerified ..
  | beginVersion metadata shardChecksums => exact hs.beginVersion shardChecksums hop
  | putShard name index data => exact hs.putShardCore hok
  | putVerifiedShard name index data verifiedChecksum => exact hs.putShardCore hok
  | remove name => exact hs.remove name
  | clear => exact Ledger.clear

theorem overcounting_breaks {s : CheckpointStore} (hs : s.Ledger) (op : StoreOp)
    (hover : s.Overcounts op) : ¬ (s.apply op).Accounted := by
  cases op with
  | putShard name index data => exact overcounted hs hover
  | putVerifiedShard name index data verifiedChecksum => exact overcounted hs hover
  | _ => exact absurd hover id

/-- **The counter is exact unless a shard lands in a whole version.** In a run
of any operations, returning or raising, `used_bytes` equals the bytes held
and stays within the capacity after every one of them exactly when no
`put_shard` or `put_verified_shard` is accepted by a version held as one buffer. -/
theorem accounted_iff_no_shard_into_whole (capacity : Nat) (ops : List StoreOp)
    (hops : ∀ op ∈ ops, op.CountsShards) :
    Runs.Always apply Accounted (new capacity) ops ↔
      Runs.EveryStep apply (fun s op => ¬ s.Overcounts op) (new capacity) ops :=
  Runs.always_iff_everyStep Ledger
    (fun _ op hs hop hok => hs.apply op hop hok)
    (fun _ hs => hs.accounted)
    (fun _ op hs _ hnot => overcounting_breaks hs op (Classical.not_not.mp hnot))
    (ledger_new capacity) hops

end

theorem accounted_iff_no_shard_into_whole_mixed_run :
    letI := asciiLibrary
    let ops : List StoreOp :=
      [.put (str "v1") [1, 2, 3] 2 none [], .beginVersion ⟨str "v2", 3, 2, 2, []⟩ [[], []],
        .putShard (str "v2") 1 [3], .remove (str "v1")]
    Runs.Always apply Accounted (new 4) ops ↔
      Runs.EveryStep apply (fun s op => ¬ s.Overcounts op) (new 4) ops :=
  letI := asciiLibrary
  accounted_iff_no_shard_into_whole 4 _ (by simp [StoreOp.CountsShards]; decide)

instance (s : CheckpointStore) : Decidable s.Accounted :=
  inferInstanceAs (Decidable (s.size = s.heldBytes ∧ s.size ≤ s.capacity))

/-- Four bytes put whole and their only shard put again: the counter reads
eight while the store holds four. -/
theorem shard_into_whole_overcounts :
    letI := asciiLibrary
    ¬ ∀ (capacity : Nat) (ops : List StoreOp), (∀ op ∈ ops, op.CountsShards) →
      Runs.Always apply Accounted (new capacity) ops := by
  intro claim
  let _ := asciiLibrary
  have h := claim 8 [.put (str "v1") [97, 98, 99, 100] 4 none [],
    .putShard (str "v1") 0 [97, 98, 99, 100]] (by simp [StoreOp.CountsShards])
  exact absurd (Runs.always_foldl h) (by decide)

end Litecast.CheckpointStore
