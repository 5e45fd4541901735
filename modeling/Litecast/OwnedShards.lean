import Litecast.Monitor

/-! When the shard tasks of a streamed version all come to an end. -/

namespace Litecast

/-! ## Bytes from a version on -/

namespace CheckpointStore

/-- The versions before one that is there, and those after it. -/
theorem split_at_version {s : CheckpointStore} {name : Str} {u : StoredVersion}
    (hu : s.versions.get? name = some u) :
    ∃ front back, s.versions.entries = front ++ (name, u) :: back ∧
      (∀ v, (s.versions.insert name v).entries = front ++ (name, v) :: back) ∧
      ∀ e ∈ front, decide (e.1 ≠ name) = true := by
  obtain ⟨front, back, hentries, hinserted⟩ := OrderedDict.entries_insert_of_present hu
  refine ⟨front, back, hentries, hinserted, ?_⟩
  intro e he
  have hnodup := s.versions.nodup
  rw [hentries, List.map_append, List.nodup_append] at hnodup
  have hne : e.1 ≠ name := hnodup.2.2 e.1 (List.mem_map_of_mem he) name (by simp)
  simpa using hne

theorem bytesFrom_insert {s : CheckpointStore} {name : Str} {u : StoredVersion}
    (hu : s.versions.get? name = some u) (v : StoredVersion) (size : Int) :
    bytesFrom { s with versions := s.versions.insert name v, size } name + u.storedBytes =
      s.bytesFrom name + v.storedBytes := by
  obtain ⟨front, back, hentries, hinserted, hskip⟩ := split_at_version hu
  simp only [bytesFrom, hentries, hinserted]
  rw [List.dropWhile_append_of_pos hskip, List.dropWhile_append_of_pos hskip]
  simp only [ne_eq, not_true_eq_false, decide_false, Bool.false_eq_true, not_false_eq_true,
    List.dropWhile_cons_of_neg, OrderedDict.total_cons]
  omega

/-- The versions inserted before `name`, all of them while it is not there. -/
def olderThan (s : CheckpointStore) (name : Str) : List Str :=
  (s.versions.entries.takeWhile fun e => e.1 ≠ name).map Prod.fst

/-- A version begun, the last, adds nothing yet. -/
theorem bytesFrom_begin (s : CheckpointStore) {name : Str} (h : s.versions.get? name = none)
    {v : StoredVersion} (hv : v.storedBytes = 0) (other : Str) :
    bytesFrom { s with versions := s.versions.insert name v } other = s.bytesFrom other := by
  have hlast : ((([(name, v)] : List (Str × StoredVersion)).dropWhile
      fun e => e.1 ≠ other).map fun e => e.2.storedBytes).sum = 0 := by
    by_cases hname : name = other
    · simp [hname, hv]
    · simp [hname]
  simp only [bytesFrom, OrderedDict.total, OrderedDict.entries_insert_of_absent _ h]
  rw [List.dropWhile_append]
  split_ifs with hnone
  · rw [List.isEmpty_iff] at hnone
    rw [hlast, hnone]
    rfl
  · simp [hv]

theorem olderThan_begin (s : CheckpointStore) {name : Str} (h : s.versions.get? name = none)
    (v : StoredVersion) :
    olderThan { s with versions := s.versions.insert name v } name = s.olderThan name := by
  have hskip : ∀ e ∈ s.versions.entries, (decide (e.1 ≠ name)) = true := by
    intro e he
    have hne : e.1 ≠ name := by
      rintro rfl
      exact OrderedDict.get?_eq_none_iff.mp h (List.mem_map_of_mem he)
    simpa using hne
  rw [olderThan, olderThan, List.takeWhile_eq_self_iff.mpr hskip]
  simp only [OrderedDict.entries_insert_of_absent _ h]
  rw [List.takeWhile_append_of_pos hskip]
  simp

section
variable [Library] {s : CheckpointStore} {name : Str} {v : StoredVersion} {index : Int}
  {payload : Bytes} {verifiedChecksum : Option Str}

theorem length_of_accepted (h : shardRejection v index payload verifiedChecksum = none) :
    (payload.length : Int) = expectedSize v.metadata index := by
  rw [shardRejection] at h
  split_ifs at h with hrange hsize
  all_goals exact not_not.mp hsize

/-- A shard of a version held shard by shard, when there is room. -/
theorem putShardCore_fits (hs : s.Ledger) (hv : s.versions.get? name = some v)
    (hdata : v.data = none) (haccept : shardRejection v index payload verifiedChecksum = none)
    (hfits : s.bytesFrom name + additionalBytes v index.toNat payload ≤ s.capacity) :
    ∃ t, s.putShardCore name index payload verifiedChecksum = (.ok payload, t) ∧ t.Ledger ∧
      t.versions.get? name = some { v with shards := v.shards.insert index.toNat payload } ∧
      (t.bytesFrom name : Int) = s.bytesFrom name + additionalBytes v index.toNat payload ∧
      t.capacity = s.capacity := by
  have hledger : (s.putShardCore name index payload verifiedChecksum).2.Ledger := by
    apply hs.putShardCore
    rintro ⟨v', hv', hwhole, -⟩
    obtain rfl := Option.some.inj (hv.symm.trans hv')
    rw [hdata] at hwhole
    cases hwhole
  obtain ⟨n, ht⟩ := evict_spec hs.counted (additionalBytes v index.toNat payload)
    (fun oldest => oldest = name)
  have hkept := ht.get?_of_kept hv (by simp)
  have hroom := (ht.fits_iff hv).mpr hfits
  have hfull : ¬ (s.evict (additionalBytes v index.toNat payload) (fun oldest => oldest = name)).size +
      additionalBytes v index.toNat payload >
        (s.evict (additionalBytes v index.toNat payload) (fun oldest => oldest = name)).capacity := by
    omega
  simp only [putShardCore, hv, haccept, if_neg hfull] at hledger ⊢
  refine ⟨_, rfl, hledger, by rw [OrderedDict.get?_insert, if_pos rfl], ?_, ht.capacity⟩
  have hbytes := bytesFrom_insert hkept { v with shards := v.shards.insert index.toNat payload }
    ((s.evict (additionalBytes v index.toNat payload) fun oldest => oldest = name).size +
      additionalBytes v index.toNat payload)
  have hstored := storedBytes_with_shard hdata index.toNat payload
  rw [ht.bytesFrom_eq] at hbytes
  omega

/-- The same without room: only older versions are gone. -/
theorem putShardCore_full (hs : s.Ledger) (hv : s.versions.get? name = some v)
    (haccept : shardRejection v index payload verifiedChecksum = none)
    (hfull : s.capacity < s.bytesFrom name + additionalBytes v index.toNat payload) :
    ∃ e t, s.putShardCore name index payload verifiedChecksum = (.error e, t) ∧
      e.cls.isValueError = true ∧ t.Ledger ∧ t.versions.get? name = some v ∧
      t.bytesFrom name = s.bytesFrom name ∧ t.capacity = s.capacity := by
  obtain ⟨n, ht⟩ := evict_spec hs.counted (additionalBytes v index.toNat payload)
    (fun oldest => oldest = name)
  have hroom : (s.evict (additionalBytes v index.toNat payload) (fun oldest => oldest = name)).size +
      additionalBytes v index.toNat payload >
        (s.evict (additionalBytes v index.toNat payload) (fun oldest => oldest = name)).capacity := by
    have hnot := mt (ht.fits_iff hv).mp (not_le.mpr hfull)
    omega
  simp only [putShardCore, hv, haccept, if_pos hroom]
  exact ⟨_, _, rfl, rfl, ht.ledger hs, ht.get?_of_kept hv (by simp), ht.bytesFrom_eq, ht.capacity⟩

end

end CheckpointStore

/-! ## The tasks of a version -/

namespace Monitor

/-- The store takes the payload as the shard the manifest describes. -/
def Accepts [Library] (metadata : VersionMetadata) (shardChecksums : List Str) (a : Arrival) :
    Prop :=
  CheckpointStore.shardRejection { metadata, shardChecksums } a.index a.payload
    (a.verifiedChecksum.map lower) = none

/-- What those shards add that are not held yet. -/
def missingBytes (metadata : VersionMetadata) (shards : OrderedDict Nat Bytes)
    (indices : List Nat) : Nat :=
  (indices.map fun index =>
    (shards.get? index).elim (CheckpointStore.expectedSize metadata index).toNat fun _ => 0).sum

/-- The version is held shard by shard, all of the length they should have. -/
structure Held (store : CheckpointStore) (name : Str) (metadata : VersionMetadata)
    (shardChecksums : List Str) (shards : OrderedDict Nat Bytes) : Prop where
  get : store.versions.get? name = some { metadata, shards, shardChecksums }
  sized : ∀ index shard, shards.get? index = some shard →
    (shard.length : Int) = CheckpointStore.expectedSize metadata index

/-- The tasks at work, `total` being what the version would need in the end. -/
structure Underway (name : Str) (metadata : VersionMetadata) (shardChecksums : List Str)
    (total : Nat) (f : Fetching) : Prop where
  ledger : f.store.Ledger
  held : ∃ shards, Held f.store name metadata shardChecksums shards ∧
    f.store.bytesFrom name + missingBytes metadata shards f.pending = total
  nodup : f.pending.Nodup
  within : ∀ index ∈ f.pending, index < metadata.shardCount
  clean : f.failed = []

theorem missingBytes_erase (metadata : VersionMetadata) (shards : OrderedDict Nat Bytes)
    {indices : List Nat} (hnodup : indices.Nodup) {index : Nat} (hindex : index ∈ indices)
    (payload : Bytes) :
    (shards.get? index).elim (CheckpointStore.expectedSize metadata index).toNat (fun _ => 0) +
        missingBytes metadata (shards.insert index payload) (indices.erase index) =
      missingBytes metadata shards indices := by
  have hsame : missingBytes metadata (shards.insert index payload) (indices.erase index) =
      missingBytes metadata shards (indices.erase index) := by
    refine congrArg List.sum (List.map_congr_left fun other hother => ?_)
    have hne : other ≠ index := ((hnodup.mem_erase_iff).mp hother).1
    rw [OrderedDict.get?_insert, if_neg hne]
  rw [hsame, missingBytes, missingBytes]
  exact List.sum_map_erase (fun index : Nat =>
    (shards.get? index).elim (CheckpointStore.expectedSize metadata index).toNat fun _ => 0) hindex

section
variable [Library] {name : Str} {metadata : VersionMetadata} {shardChecksums : List Str}
  {total : Nat} {f : Fetching}

/-- A payload for a task at work is taken, or refused and asked for again. -/
inductive ArrivalCase (metadata : VersionMetadata) (shardChecksums : List Str) (total : Nat)
    (f : Fetching) (a : Arrival) (g : Fetching) : Prop where
  | ignored (same : g.pending = f.pending)
      (why : a.index ∈ f.pending → Accepts metadata shardChecksums a → f.store.capacity < total)
  | taken (waited : a.index ∈ f.pending) (accepts : Accepts metadata shardChecksums a)
      (rest : g.pending = f.pending.erase a.index)

theorem putArrival_eq (store : CheckpointStore) (name : Str) (a : Arrival) :
    putArrival store name a =
      store.putShardCore name a.index a.payload (a.verifiedChecksum.map lower) := by
  rw [putArrival]
  cases a.verifiedChecksum <;> rfl

/-- All that can be wrong with a shard of an index in range is a `ValueError`. -/
theorem rejection_isValueError {v : StoredVersion} {index : Nat} {payload : Bytes}
    {verifiedChecksum : Option Str} {e : Exc} (hindex : index < v.metadata.shardCount)
    (hlength : v.shardChecksums.length = v.metadata.shardCount)
    (h : CheckpointStore.shardRejection v index payload verifiedChecksum = some e) :
    e.cls.isValueError = true := by
  have hrange : ¬ ((index : Int) < 0 ∨ (v.metadata.shardCount : Int) ≤ index) := by omega
  rw [CheckpointStore.shardRejection, if_neg hrange] at h
  split_ifs at h with hsize hnone
  · obtain rfl := Option.some.inj h
    rfl
  · obtain ⟨checksum, hchecksum⟩ : ∃ checksum, v.shardChecksums[index]? = some checksum :=
      ⟨_, List.getElem?_eq_getElem (by omega)⟩
    simp only [Int.toNat_natCast, hchecksum] at h
    split_ifs at h
    obtain rfl := Option.some.inj h
    rfl

omit [Library] in
theorem missingBytes_pending_le (metadata : VersionMetadata) (shards : OrderedDict Nat Bytes)
    {indices : List Nat} (hnodup : indices.Nodup) {index : Nat} (hindex : index ∈ indices) :
    (shards.get? index).elim (CheckpointStore.expectedSize metadata index).toNat (fun _ => 0) ≤
      missingBytes metadata shards indices := by
  rw [← missingBytes_erase metadata shards hnodup hindex []]
  exact Nat.le_add_right _ _

variable (shardChecksums) in
omit [Library] in
/-- A shard adds its length while it is missing, and nothing over one held. -/
theorem additionalBytes_eq {shards : OrderedDict Nat Bytes}
    (hsized : ∀ index shard, shards.get? index = some shard →
      (shard.length : Int) = CheckpointStore.expectedSize metadata index) {a : Arrival}
    (hpayload : (a.payload.length : Int) = CheckpointStore.expectedSize metadata a.index) :
    CheckpointStore.additionalBytes { metadata, shards, shardChecksums } a.index a.payload =
      ((shards.get? a.index).elim (CheckpointStore.expectedSize metadata a.index).toNat
        (fun _ => 0) : Nat) := by
  rw [CheckpointStore.additionalBytes]
  cases hget : shards.get? a.index with
  | none =>
    simp only [Option.elim_none]
    omega
  | some previous =>
    have hprevious := hsized _ _ hget
    simp only [Option.elim_some]
    omega

theorem arrive_case (hf : Underway name metadata shardChecksums total f)
    (hlength : shardChecksums.length = metadata.shardCount) (diskMirror : Bool) (a : Arrival) :
    Underway name metadata shardChecksums total (f.arrive name diskMirror a) ∧
      (f.arrive name diskMirror a).store.capacity = f.store.capacity ∧
      ArrivalCase metadata shardChecksums total f a (f.arrive name diskMirror a) := by
  obtain ⟨shards, hheld, htotal⟩ := hf.held
  rw [Fetching.arrive]
  by_cases hwaited : a.index ∈ f.pending
  swap
  · rw [if_neg hwaited]
    exact ⟨hf, rfl, .ignored rfl fun h => absurd h hwaited⟩
  rw [if_pos hwaited]
  simp only [putArrival_eq]
  cases hreject : CheckpointStore.shardRejection { metadata, shards, shardChecksums } a.index
      a.payload (a.verifiedChecksum.map lower) with
  | some e =>
    have hvalue : e.cls.isValueError = true :=
      rejection_isValueError (hf.within _ hwaited) hlength hreject
    simp only [CheckpointStore.putShardCore, hheld.get, hreject, hvalue, if_true]
    refine ⟨hf, trivial, .ignored rfl fun _ haccepts => ?_⟩
    exact absurd (hreject.symm.trans haccepts) (by simp)
  | none =>
    have hpayload : (a.payload.length : Int) = CheckpointStore.expectedSize metadata a.index :=
      CheckpointStore.length_of_accepted hreject
    have hadditional := additionalBytes_eq shardChecksums hheld.sized hpayload
    have hle := missingBytes_pending_le metadata shards hf.nodup hwaited
    have herase := missingBytes_erase metadata shards hf.nodup hwaited a.payload
    by_cases hfits : f.store.bytesFrom name +
        CheckpointStore.additionalBytes { metadata, shards, shardChecksums } a.index a.payload ≤
          f.store.capacity
    · obtain ⟨t, hput, hledger, hget, hbytes, hcapacity⟩ :=
        CheckpointStore.putShardCore_fits hf.ledger hheld.get rfl hreject hfits
      simp only [hput]
      refine ⟨?_, hcapacity, .taken hwaited hreject rfl⟩
      refine ⟨hledger, ⟨shards.insert a.index a.payload, ⟨hget, ?_⟩, ?_⟩, hf.nodup.erase _, ?_,
        hf.clean⟩
      · intro index shard hshard
        rw [OrderedDict.get?_insert] at hshard
        split_ifs at hshard with hindex
        · obtain rfl := Option.some.inj hshard
          rw [hindex]
          exact hpayload
        · exact hheld.sized _ _ hshard
      · simp only [Int.toNat_natCast] at hbytes ⊢
        omega
      · exact fun index hindex => hf.within index (List.mem_of_mem_erase hindex)
    · obtain ⟨e, t, hput, hvalue, hledger, hget, hbytes, hcapacity⟩ :=
        CheckpointStore.putShardCore_full hf.ledger hheld.get hreject (not_le.mp hfits)
      simp only [hput, hvalue, if_true]
      refine ⟨⟨hledger, ⟨shards, ⟨hget, hheld.sized⟩, by rw [hbytes]; exact htotal⟩, hf.nodup,
        hf.within, hf.clean⟩, hcapacity, .ignored rfl fun _ _ => ?_⟩
      omega

/-- The tasks from `f` to `g`: what is no longer pending was taken, and where
there is room for all, what is pending was never offered. -/
structure Ran (name : Str) (metadata : VersionMetadata) (shardChecksums : List Str) (total : Nat)
    (arrivals : List Arrival) (f g : Fetching) : Prop where
  underway : Underway name metadata shardChecksums total g
  capacity : g.store.capacity = f.store.capacity
  fewer : ∀ index ∈ g.pending, index ∈ f.pending
  taken : ∀ index ∈ f.pending, index ∉ g.pending →
    ∃ a ∈ arrivals, a.index = index ∧ Accepts metadata shardChecksums a
  left : total ≤ f.store.capacity → ∀ index ∈ g.pending, ∀ a ∈ arrivals, a.index = index →
    ¬ Accepts metadata shardChecksums a

theorem arrivals_ran (hf : Underway name metadata shardChecksums total f)
    (hlength : shardChecksums.length = metadata.shardCount) (diskMirror : Bool)
    (arrivals : List Arrival) :
    Ran name metadata shardChecksums total arrivals f
      (arrivals.foldl (Fetching.arrive name diskMirror) f) := by
  induction arrivals generalizing f with
  | nil => exact ⟨hf, rfl, fun _ h => h, fun _ h h' => absurd h h', fun _ _ _ _ h => nomatch h⟩
  | cons a rest ih =>
    obtain ⟨hg, hcapacity, hcase⟩ := arrive_case hf hlength diskMirror a
    have hran := ih hg
    rw [List.foldl_cons]
    cases hcase with
    | ignored same why =>
      refine ⟨hran.underway, hran.capacity.trans hcapacity, ?_, ?_, ?_⟩
      · exact fun index hindex => same ▸ hran.fewer index hindex
      · intro index hindex hgone
        obtain ⟨a', ha', hoffered⟩ := hran.taken index (same ▸ hindex) hgone
        exact ⟨a', List.mem_cons_of_mem a ha', hoffered⟩
      · intro hroom index hindex a' ha' hoffered haccepts
        rcases List.mem_cons.mp ha' with rfl | hrest
        · have hpending : a'.index ∈ f.pending := by
            rw [hoffered]
            exact same ▸ hran.fewer index hindex
          exact absurd (why hpending haccepts) (not_lt.mpr hroom)
        · exact hran.left (hcapacity ▸ hroom) index hindex a' hrest hoffered haccepts
    | taken waited accepts rest' =>
      refine ⟨hran.underway, hran.capacity.trans hcapacity, ?_, ?_, ?_⟩
      · intro index hindex
        have hpending := hran.fewer index hindex
        rw [rest'] at hpending
        exact List.mem_of_mem_erase hpending
      · intro index hindex hgone
        by_cases hhere : a.index = index
        · exact ⟨a, List.mem_cons_self, hhere, accepts⟩
        · have hpending : index ∈ (f.arrive name diskMirror a).pending := by
            rw [rest', hf.nodup.mem_erase_iff]
            exact ⟨Ne.symm hhere, hindex⟩
          obtain ⟨a', ha', hoffered⟩ := hran.taken index hpending hgone
          exact ⟨a', List.mem_cons_of_mem a ha', hoffered⟩
      · intro hroom index hindex a' ha' hoffered
        rcases List.mem_cons.mp ha' with rfl | hrest
        · -- its task has returned
          have hpending := hran.fewer index hindex
          rw [rest', hf.nodup.mem_erase_iff] at hpending
          exact absurd hoffered.symm hpending.1
        · exact hran.left (hcapacity ▸ hroom) index hindex a' hrest hoffered

omit [Library] in
theorem Underway.failure_eq_none_iff (hf : Underway name metadata shardChecksums total f) :
    f.failure = none ↔ f.pending = [] := by
  rw [Fetching.failure, hf.clean]
  cases f.pending <;> simp

/-- **The tasks end well exactly when each shard comes and all have room.** -/
theorem completes_iff (hf : Underway name metadata shardChecksums total f)
    (hlength : shardChecksums.length = metadata.shardCount) (diskMirror : Bool)
    (arrivals : List Arrival) :
    (arrivals.foldl (Fetching.arrive name diskMirror) f).failure = none ↔
      (∀ index ∈ f.pending, ∃ a ∈ arrivals, a.index = index ∧
        Accepts metadata shardChecksums a) ∧ total ≤ f.store.capacity := by
  have hran := arrivals_ran hf hlength diskMirror arrivals
  rw [hran.underway.failure_eq_none_iff]
  constructor
  · intro hdone
    refine ⟨fun index hindex => hran.taken index hindex (by rw [hdone]; exact List.not_mem_nil), ?_⟩
    obtain ⟨shards, -, htotal⟩ := hran.underway.held
    have hbytes := CheckpointStore.bytesFrom_le
      (arrivals.foldl (Fetching.arrive name diskMirror) f).store name
    have hcounted := hran.underway.ledger.counted
    have hbounded := hran.underway.ledger.bounded
    have hcapacity := hran.capacity
    have hnone : missingBytes metadata shards [] = 0 := rfl
    rw [hdone, hnone] at htotal
    omega
  · rintro ⟨hoffered, hroom⟩
    rw [List.eq_nil_iff_forall_not_mem]
    intro index hindex
    obtain ⟨a, ha, haindex, haccepts⟩ := hoffered index (hran.fewer index hindex)
    exact hran.left hroom index hindex a ha haindex haccepts

end

end Monitor

end Litecast
