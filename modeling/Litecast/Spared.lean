import Mathlib.Algebra.Order.BigOperators.Group.List
import Litecast.OwnedShards

/-! Which versions putting the shards of another one spares. -/

namespace Litecast

namespace CheckpointStore

section
variable {s t : CheckpointStore} {name other : Str} {v w : StoredVersion}

theorem olderThan_of_split {front back : List (Str × StoredVersion)}
    (hentries : s.versions.entries = front ++ (name, v) :: back)
    (hskip : ∀ e ∈ front, decide (e.1 ≠ name) = true) : s.olderThan name = front.map Prod.fst := by
  rw [olderThan, hentries, List.takeWhile_append_of_pos hskip]
  simp

/-- From an older version on all is held that is held from `name` on, and more. -/
theorem bytesFrom_older (hv : s.versions.get? name = some v) (hother : other ∈ s.olderThan name) :
    s.bytesFrom name ≤ s.bytesFrom other ∧
      ∀ (u : StoredVersion) (size : Int),
        bytesFrom { s with versions := s.versions.insert name u, size } other + v.storedBytes =
          s.bytesFrom other + u.storedBytes := by
  obtain ⟨front, back, hentries, hinserted, hskip⟩ := split_at_version hv
  rw [olderThan_of_split hentries hskip] at hother
  have hfront : ∀ rest : List (Str × StoredVersion),
      (front ++ rest).dropWhile (fun e => e.1 ≠ other) =
        front.dropWhile (fun e => e.1 ≠ other) ++ rest := by
    intro rest
    rw [List.dropWhile_append, if_neg]
    rw [List.isEmpty_iff, List.dropWhile_eq_nil_iff]
    intro hall
    obtain ⟨e, he, rfl⟩ := List.mem_map.mp hother
    simpa using hall e he
  constructor
  · rw [bytesFrom, bytesFrom, hentries, hfront, List.dropWhile_append_of_pos hskip,
      OrderedDict.total_append]
    simp
  · intro u size
    simp only [bytesFrom, hentries, hinserted, hfront, OrderedDict.total_append,
      OrderedDict.total_cons]
    omega

theorem olderThan_insert (hv : s.versions.get? name = some v) (u : StoredVersion) (size : Int) :
    olderThan { s with versions := s.versions.insert name u, size } name = s.olderThan name := by
  obtain ⟨front, back, hentries, hinserted, hskip⟩ := split_at_version hv
  rw [olderThan_of_split hentries hskip]
  exact olderThan_of_split (hinserted u) hskip

/-- Making room for shards of `name` spares what is not older, and what fits
beside them. -/
theorem evict_spares (hs : s.size = s.heldBytes) {need : Int} (hother : s.versions.get? other = some w)
    (hspared : other ∈ s.olderThan name → s.bytesFrom other + need ≤ s.capacity) :
    (s.evict need fun oldest => oldest = name).versions.get? other = some w ∧
      (s.evict need fun oldest => oldest = name).bytesFrom other = s.bytesFrom other ∧
      (other ∈ (s.evict need fun oldest => oldest = name).olderThan name →
        other ∈ s.olderThan name) := by
  obtain ⟨n, hevicted⟩ := evict_spec hs need fun oldest => decide (oldest = name)
  have hskip : ∀ e ∈ s.versions.entries.take n, decide (e.1 ≠ name) = true := by
    intro e he
    simpa using hevicted.spared e he
  have holder : s.olderThan name = (s.versions.entries.take n).map Prod.fst ++
      (s.evict need fun oldest => decide (oldest = name)).olderThan name := by
    rw [olderThan, olderThan, hevicted.versions, ← List.map_append]
    conv_lhs => rw [← List.take_append_drop n s.versions.entries]
    rw [List.takeWhile_append_of_pos hskip]
    rfl
  have hkept : (s.evict need fun oldest => decide (oldest = name)).versions.get? other = some w := by
    by_cases hin : other ∈ s.olderThan name
    · exact get?_evictOldest_of_fits _ _ hs hother (hspared hin)
    · have hmem := OrderedDict.get?_eq_some_iff.mp hother
      rw [hevicted.versions, OrderedDict.get?_eq_some_iff]
      rw [← List.take_append_drop n s.versions.entries, List.mem_append] at hmem
      refine hmem.resolve_left fun htaken => hin ?_
      rw [holder]
      exact List.mem_append_left _ (List.mem_map.mpr ⟨_, htaken, rfl⟩)
  refine ⟨hkept, bytesFrom_of_drop hevicted.versions hkept, fun h => ?_⟩
  rw [holder]
  exact List.mem_append_right _ h

end

section
variable [Library] {s : CheckpointStore} {name other : Str} {v w : StoredVersion} {index : Int}
  {payload : Bytes} {verifiedChecksum : Option Str}

/-- The same of a shard put. -/
theorem putShardCore_spares (hs : s.Ledger) (hv : s.versions.get? name = some v)
    (hdata : v.data = none) (haccept : shardRejection v index payload verifiedChecksum = none)
    (hne : other ≠ name) (hother : s.versions.get? other = some w)
    (hspared : other ∈ s.olderThan name →
      s.bytesFrom other + additionalBytes v index.toNat payload ≤ s.capacity) :
    (s.putShardCore name index payload verifiedChecksum).2.versions.get? other = some w ∧
      (other ∈ (s.putShardCore name index payload verifiedChecksum).2.olderThan name →
        other ∈ s.olderThan name ∧
        ((s.putShardCore name index payload verifiedChecksum).2.bytesFrom other : Int) =
          s.bytesFrom other + additionalBytes v index.toNat payload) := by
  obtain ⟨hkept, hbytes, holder⟩ := evict_spares hs.counted hother hspared
  obtain ⟨n, hevicted⟩ := evict_spec hs.counted (additionalBytes v index.toNat payload)
    fun oldest => decide (oldest = name)
  have hnamed := hevicted.get?_of_kept hv (by simp)
  have hfits := hevicted.fits_iff hv
  simp only [putShardCore, hv, haccept]
  generalize (s.evict (additionalBytes v index.toNat payload) fun oldest => decide (oldest = name)) =
    t at *
  by_cases hroom : t.size + additionalBytes v index.toNat payload > t.capacity
  · rw [if_pos hroom]
    refine ⟨hkept, fun hin => ?_⟩
    have hbeside := hspared (holder hin)
    have hless := (bytesFrom_older hv (holder hin)).1
    have hnot := mt hfits.mpr (not_le.mpr hroom)
    omega
  · rw [if_neg hroom]
    refine ⟨by rw [OrderedDict.get?_insert, if_neg hne, hkept], fun hin => ?_⟩
    simp only at hin ⊢
    rw [olderThan_insert hnamed] at hin
    refine ⟨holder hin, ?_⟩
    have hinserted := (bytesFrom_older hnamed hin).2
      { v with shards := v.shards.insert index.toNat payload }
      (t.size + additionalBytes v index.toNat payload)
    have hstored := storedBytes_with_shard hdata index.toNat payload
    omega

end

end CheckpointStore

/-! ## The tasks of a version -/

namespace Monitor

section
variable [Library] {name : Str} {metadata : VersionMetadata} {shardChecksums : List Str}

/-- One of the payloads is the shard of that index as the manifest describes it. -/
def offered (metadata : VersionMetadata) (shardChecksums : List Str) (arrivals : List Arrival)
    (index : Nat) : Bool :=
  arrivals.any fun a => a.index = index && (CheckpointStore.shardRejection
    { metadata, shardChecksums } a.index a.payload (a.verifiedChecksum.map lower)).isNone

omit [Library] in
theorem missingBytes_sublist (shards : OrderedDict Nat Bytes) {some more : List Nat}
    (h : some.Sublist more) :
    missingBytes metadata shards some ≤ missingBytes metadata shards more :=
  (h.map _).sum_le_sum fun _ _ => Nat.zero_le _

/-- The bytes the tasks ask room for. -/
def demandedBytes (metadata : VersionMetadata) (shardChecksums : List Str)
    (shards : OrderedDict Nat Bytes) (indices : List Nat) (arrivals : List Arrival) : Nat :=
  missingBytes metadata shards (indices.filter (offered metadata shardChecksums arrivals))

theorem demandedBytes_rest (shards : OrderedDict Nat Bytes) (indices : List Nat) (a : Arrival)
    (rest : List Arrival) :
    demandedBytes metadata shardChecksums shards indices rest ≤
      demandedBytes metadata shardChecksums shards indices (a :: rest) := by
  apply missingBytes_sublist
  apply List.monotone_filter_right
  intro index hindex
  rw [offered, List.any_cons, Bool.or_eq_true]
  exact Or.inr hindex

/-- A shard taken is no longer asked room for. -/
theorem demandedBytes_taken (shards : OrderedDict Nat Bytes) {indices : List Nat}
    (hnodup : indices.Nodup) {a : Arrival} (hindex : a.index ∈ indices)
    (haccepts : Accepts metadata shardChecksums a) (rest : List Arrival) (payload : Bytes) :
    (shards.get? a.index).elim (CheckpointStore.expectedSize metadata a.index).toNat (fun _ => 0) +
        demandedBytes metadata shardChecksums (shards.insert a.index payload)
          (indices.erase a.index) rest ≤
      demandedBytes metadata shardChecksums shards indices (a :: rest) := by
  have hoffered : offered metadata shardChecksums (a :: rest) a.index = true := by
    rw [offered, List.any_cons, Bool.or_eq_true]
    refine Or.inl ?_
    rw [Accepts] at haccepts
    simp [haccepts]
  have hmem : a.index ∈ indices.filter (offered metadata shardChecksums (a :: rest)) :=
    List.mem_filter.mpr ⟨hindex, hoffered⟩
  have hfiltered := hnodup.filter (offered metadata shardChecksums (a :: rest))
  rw [demandedBytes, demandedBytes, ← missingBytes_erase metadata shards hfiltered hmem payload]
  apply Nat.add_le_add_left
  apply missingBytes_sublist
  rw [hnodup.erase_eq_filter, hfiltered.erase_eq_filter, List.filter_filter, List.filter_filter]
  apply List.monotone_filter_right
  intro index hboth
  rw [Bool.and_eq_true] at hboth ⊢
  refine ⟨hboth.2, ?_⟩
  rw [offered, List.any_cons, Bool.or_eq_true]
  exact Or.inr hboth.1

variable {other : Str} {w : StoredVersion} {total : Nat} {f : Fetching}
  {shards : OrderedDict Nat Bytes}

theorem arrive_spares (hf : Underway name metadata shardChecksums total f)
    (hlength : shardChecksums.length = metadata.shardCount)
    (hheld : Held f.store name metadata shardChecksums shards) (hne : other ≠ name)
    (hother : f.store.versions.get? other = some w) (diskMirror : Bool) (a : Arrival)
    (rest : List Arrival)
    (hspared : other ∈ f.store.olderThan name →
      f.store.bytesFrom other + demandedBytes metadata shardChecksums shards f.pending (a :: rest) ≤
        f.store.capacity) :
    (f.arrive name diskMirror a).store.versions.get? other = some w ∧
      ∃ shards, Held (f.arrive name diskMirror a).store name metadata shardChecksums shards ∧
        (other ∈ (f.arrive name diskMirror a).store.olderThan name →
          (f.arrive name diskMirror a).store.bytesFrom other +
              demandedBytes metadata shardChecksums shards (f.arrive name diskMirror a).pending rest ≤
            f.store.capacity) := by
  have hweaker : other ∈ f.store.olderThan name →
      f.store.bytesFrom other + demandedBytes metadata shardChecksums shards f.pending rest ≤
        f.store.capacity := by
    intro hin
    exact le_trans (Nat.add_le_add_left (demandedBytes_rest shards f.pending a rest) _) (hspared hin)
  rw [Fetching.arrive]
  by_cases hwaited : a.index ∈ f.pending
  swap
  · rw [if_neg hwaited]
    exact ⟨hother, shards, hheld, hweaker⟩
  rw [if_pos hwaited]
  simp only [putArrival_eq]
  cases hreject : CheckpointStore.shardRejection { metadata, shards, shardChecksums } a.index
      a.payload (a.verifiedChecksum.map lower) with
  | some e =>
    have hvalue : e.cls.isValueError = true :=
      rejection_isValueError (hf.within _ hwaited) hlength hreject
    simp only [CheckpointStore.putShardCore, hheld.get, hreject, hvalue, if_true]
    exact ⟨hother, shards, hheld, hweaker⟩
  | none =>
    have hpayload := CheckpointStore.length_of_accepted hreject
    have hadditional := additionalBytes_eq shardChecksums hheld.sized hpayload
    have htaken := demandedBytes_taken shards hf.nodup hwaited hreject rest a.payload
    obtain ⟨hkept, holder⟩ := CheckpointStore.putShardCore_spares hf.ledger hheld.get rfl hreject hne
      hother fun hin => by
        have hroom := hspared hin
        simp only [Int.toNat_natCast] at hadditional ⊢
        omega
    by_cases hfits : f.store.bytesFrom name +
        CheckpointStore.additionalBytes { metadata, shards, shardChecksums } a.index a.payload ≤
          f.store.capacity
    · obtain ⟨t, hput, -, hget, -, -⟩ :=
        CheckpointStore.putShardCore_fits hf.ledger hheld.get rfl hreject hfits
      simp only [hput] at hkept holder ⊢
      refine ⟨hkept, shards.insert a.index a.payload, ⟨hget, ?_⟩, fun hin => ?_⟩
      · intro index shard hshard
        rw [OrderedDict.get?_insert] at hshard
        split_ifs at hshard with hindex
        · obtain rfl := Option.some.inj hshard
          rw [hindex]
          exact hpayload
        · exact hheld.sized _ _ hshard
      · obtain ⟨hin, hbytes⟩ := holder hin
        have hroom := hspared hin
        simp only [Int.toNat_natCast] at hadditional hbytes
        omega
    · obtain ⟨e, t, hput, hvalue, -, hget, -, -⟩ :=
        CheckpointStore.putShardCore_full hf.ledger hheld.get hreject (not_le.mp hfits)
      simp only [hput, hvalue, if_true] at hkept holder ⊢
      refine ⟨hkept, shards, ⟨hget, hheld.sized⟩, fun hin => ?_⟩
      -- an older version that is still there left room
      obtain ⟨hin, -⟩ := holder hin
      have hroom := hspared hin
      have hless := (CheckpointStore.bytesFrom_older hheld.get hin).1
      omega

/-- **The tasks of a version spare another** that is not older, or whose bytes
and the later ones leave room for all that is asked. -/
theorem arrivals_spare (hf : Underway name metadata shardChecksums total f)
    (hlength : shardChecksums.length = metadata.shardCount)
    (hheld : Held f.store name metadata shardChecksums shards) (hne : other ≠ name)
    (hother : f.store.versions.get? other = some w) (diskMirror : Bool) (arrivals : List Arrival)
    (hspared : other ∈ f.store.olderThan name →
      f.store.bytesFrom other + demandedBytes metadata shardChecksums shards f.pending arrivals ≤
        f.store.capacity) :
    (arrivals.foldl (Fetching.arrive name diskMirror) f).store.versions.get? other = some w := by
  induction arrivals generalizing f shards with
  | nil => exact hother
  | cons a rest ih =>
    obtain ⟨hg, hcapacity, -⟩ := arrive_case hf hlength diskMirror a
    obtain ⟨hkept, shards', hheld', hspared'⟩ :=
      arrive_spares hf hlength hheld hne hother diskMirror a rest hspared
    exact ih hg hheld' hkept (hcapacity ▸ hspared')

end

end Monitor

end Litecast
