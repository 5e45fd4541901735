import Litecast.Client
import Litecast.MessageDomains

/-! When the batches of a download can be asked for. The constructor takes
batches of up to 256 shards; a request may carry 64. -/

namespace Litecast

open Protocol Ucxx

/-! ## Groups -/

/-- Among groups of different keys, a group is all that has its key. -/
theorem filter_flatMap_groups {K V : Type} [DecidableEq K] {key : V → Option K}
    {groups : List (K × List V)} (hnodup : (groups.map Prod.fst).Nodup)
    (hkey : ∀ group ∈ groups, ∀ v ∈ group.2, key v = some group.1) {group : K × List V}
    (hgroup : group ∈ groups) :
    (groups.flatMap Prod.snd).filter (fun v => key v = some group.1) = group.2 := by
  induction groups with
  | nil => cases hgroup
  | cons first rest ih =>
    rw [List.map_cons, List.nodup_cons] at hnodup
    rw [List.flatMap_cons, List.filter_append]
    rcases List.mem_cons.mp hgroup with rfl | hrest
    · have hown : group.2.filter (fun v => key v = some group.1) = group.2 :=
        List.filter_eq_self.mpr fun v hv => decide_eq_true (hkey group List.mem_cons_self v hv)
      have hothers : (rest.flatMap Prod.snd).filter (fun v => key v = some group.1) = [] := by
        rw [List.filter_eq_nil_iff]
        intro v hv
        obtain ⟨other, hother, hv⟩ := List.mem_flatMap.mp hv
        rw [hkey other (List.mem_cons_of_mem _ hother) v hv, decide_eq_true_eq]
        intro heq
        exact hnodup.1 (Option.some.inj heq ▸ List.mem_map_of_mem hother)
      rw [hown, hothers, List.append_nil]
    · have hfirst : first.2.filter (fun v => key v = some group.1) = [] := by
        rw [List.filter_eq_nil_iff]
        intro v hv
        rw [hkey first List.mem_cons_self v hv, decide_eq_true_eq]
        intro heq
        exact hnodup.1 (Option.some.inj heq ▸ List.mem_map_of_mem hrest)
      rw [hfirst, List.nil_append]
      exact ih hnodup.2 (fun other hother => hkey other (List.mem_cons_of_mem _ hother)) hrest

namespace ClientNode

section
variable [Library] {S : Type} [LinearOrder S] (score : Str → Nat → Str → MemberProfile → S)

/-- The selected shards an owner is first asked for. -/
def preferring (client : ClientNode) (manifest : ShardManifest) (selected : List Nat) (owner : Str) :
    List Nat :=
  selected.filter fun index =>
    (client.preferredOwner score manifest index).toOption = some owner

/-- The batches share the selected shards out, each shard to the owner it prefers. -/
structure Partitions (client : ClientNode) (manifest : ShardManifest) (selected : List Nat)
    (batches : List Batch) : Prop where
  each_once : (batches.flatMap Batch.indices).Perm selected
  preferred : ∀ batch ∈ batches, ∀ index ∈ batch.indices,
    client.preferredOwner score manifest index = .ok batch.owner

/-- Every batch can be asked for with one request. -/
def Requestable (manifest : ShardManifest) (batches : List Batch) : Prop :=
  ∀ batch ∈ batches, ∃ raw,
    encodeGetShards manifest.name (batch.indices.map Int.ofNat) = .ok raw

variable {score}

/-- A group is all of the selected shards with its owner, in some order. -/
theorem length_group {client : ClientNode} {manifest : ShardManifest} {selected : List Nat}
    {groups : OrderedDict Str (List Nat)} (h : client.groups score manifest selected = .ok groups)
    {group : Str × List Nat} (hgroup : group ∈ groups.entries) :
    group.2.length = (client.preferring score manifest selected group.1).length := by
  obtain ⟨hperm, hprefer⟩ := groups_spec h
  have hsame : (groups.entries.flatMap Prod.snd).filter (fun index =>
      (client.preferredOwner score manifest index).toOption = some group.1) = group.2 :=
    filter_flatMap_groups groups.nodup
      (fun other hother index hindex => by rw [hprefer other hother index hindex]; rfl) hgroup
  rw [preferring, ← (hperm.filter _).length_eq, hsame]

/-- A batch is a piece of a group. -/
theorem mem_batches {client : ClientNode} {manifest : ShardManifest} {selected : List Nat}
    {batches : List Batch} (h : client.batches score manifest selected = .ok batches) :
    ∃ groups, client.groups score manifest selected = .ok groups ∧ ∀ batch, batch ∈ batches ↔
      ∃ group ∈ groups.entries, ∃ i < group.2.length ⌈/⌉ client.shardBatchSize,
        ⟨group.1, Pieces.piece client.shardBatchSize group.2 i⟩ = batch := by
  obtain ⟨groups, hgroups, hbatches⟩ := bind_eq_ok.mp h
  obtain rfl := Except.ok.inj hbatches
  refine ⟨groups, hgroups, fun batch => ?_⟩
  simp only [List.mem_flatMap, Pieces.spans, List.map_map, List.mem_map, List.mem_range,
    Function.comp, Pieces.piece]

theorem length_batch_le {client : ClientNode} {manifest : ShardManifest} {selected : List Nat}
    {batches : List Batch} (h : client.batches score manifest selected = .ok batches)
    {batch : Batch} (hbatch : batch ∈ batches) :
    batch.indices ≠ [] ∧ batch.indices.length ≤ client.shardBatchSize ∧
      batch.indices.length ≤ (client.preferring score manifest selected batch.owner).length := by
  obtain ⟨groups, hgroups, hmem⟩ := mem_batches h
  obtain ⟨group, hgroup, i, hi, rfl⟩ := (hmem batch).mp hbatch
  have hlength := length_group hgroups hgroup
  have hnonempty := Pieces.span_nonempty client.batch_pos hi
  have hpiece := @Pieces.length_piece _ client.shardBatchSize group.2 i
  simp only [Pieces.span, Nat.add_one_mul] at hnonempty hpiece
  have hsize : (Pieces.piece client.shardBatchSize group.2 i).length ≤ client.shardBatchSize := by
    omega
  have hcount : (Pieces.piece client.shardBatchSize group.2 i).length ≤ group.2.length := by omega
  refine ⟨List.ne_nil_of_length_pos ?_, hsize, hcount.trans_eq hlength⟩
  exact (Nat.sub_pos_of_lt hnonempty).trans_eq hpiece.symm

/-- The first batch of an owner with enough shards is full. -/
theorem exists_large_batch {client : ClientNode} {manifest : ShardManifest} {selected : List Nat}
    {batches : List Batch} (h : client.batches score manifest selected = .ok batches) {owner : Str}
    (hprefer : client.preferring score manifest selected owner ≠ []) :
    ∃ batch ∈ batches, batch.indices.length =
      min client.shardBatchSize (client.preferring score manifest selected owner).length := by
  obtain ⟨groups, hgroups, hmem⟩ := mem_batches h
  obtain ⟨hperm, hkeyed⟩ := groups_spec hgroups
  obtain ⟨index, hindex⟩ := List.exists_mem_of_ne_nil _ hprefer
  obtain ⟨hselected, howner⟩ := List.mem_filter.mp hindex
  obtain ⟨group, hgroup, hin⟩ := List.mem_flatMap.mp (hperm.symm.subset hselected)
  have hfound := hkeyed group hgroup index hin
  obtain rfl : group.1 = owner := by
    rw [hfound, decide_eq_true_eq] at howner
    exact Option.some.inj howner
  have hpos : 0 < group.2.length := List.length_pos_of_mem hin
  have hfirst : 0 < group.2.length ⌈/⌉ client.shardBatchSize := by
    rw [Pieces.lt_count_iff client.batch_pos]
    omega
  have hpiece := @Pieces.length_piece _ client.shardBatchSize group.2 0
  simp only [Pieces.span] at hpiece
  refine ⟨_, (hmem _).mpr ⟨group, hgroup, 0, hfirst, rfl⟩, ?_⟩
  rw [← length_group hgroups hgroup, hpiece]
  omega

/-- **The batches share the selected shards out, and each is a request exactly if
the name and the indices fit one and no owner has a batch above the protocol's
limit.** -/
theorem batches_requestable_iff {client : ClientNode} {manifest : ShardManifest}
    {selected : List Nat} (hselected : selected.Nodup) {batches : List Batch}
    (h : client.batches score manifest selected = .ok batches) :
    Partitions score client manifest selected batches ∧ Requestable manifest batches ↔
      (selected ≠ [] → fitsVersionName manifest.name = .ok true) ∧
      (∀ index ∈ selected, index ≤ 0xFFFFFFFF) ∧
      (client.shardBatchSize ≤ maxBatchShards ∨
        ∀ owner, (client.preferring score manifest selected owner).length ≤ maxBatchShards) := by
  obtain ⟨hperm, hprefer⟩ := batches_spec h
  rw [and_iff_right (⟨hperm, hprefer⟩ : Partitions score client manifest selected batches)]
  have hbatch {index : Nat} (hindex : index ∈ selected) :
      ∃ batch ∈ batches, index ∈ batch.indices :=
    List.mem_flatMap.mp (hperm.symm.subset hindex)
  constructor
  · intro hrequest
    have hgood {batch : Batch} (hmem : batch ∈ batches) :
        GoodBatch manifest.name batch.indices := by
      obtain ⟨indices, heq, hgood⟩ := encodeGetShards_ok_iff.mp (hrequest batch hmem)
      rwa [List.map_injective_iff.mpr Int.ofNat_injective heq]
    refine ⟨fun hne => ?_, fun index hindex => ?_, ?_⟩
    · obtain ⟨index, hindex⟩ := List.exists_mem_of_ne_nil _ hne
      obtain ⟨batch, hmem, -⟩ := hbatch hindex
      exact (hgood hmem).name
    · obtain ⟨batch, hmem, hin⟩ := hbatch hindex
      exact (hgood hmem).uint32 index hin
    · rw [or_iff_not_imp_left]
      intro hlarge owner
      by_cases hnil : client.preferring score manifest selected owner = []
      · rw [hnil]
        exact Nat.zero_le _
      · obtain ⟨batch, hmem, hlength⟩ := exists_large_batch h hnil
        have hcount := (hgood hmem).length_le
        omega
  · rintro ⟨hname, hindices, hlimit⟩ batch hmem
    obtain ⟨hne, hsize, hcount⟩ := length_batch_le h hmem
    have hsub {index : Nat} (hindex : index ∈ batch.indices) : index ∈ selected :=
      hperm.subset (List.mem_flatMap.mpr ⟨batch, hmem, hindex⟩)
    have hnodup : batch.indices.Nodup :=
      (List.nodup_flatMap.mp (hperm.nodup_iff.mpr hselected)).1 batch hmem
    have hselected' : selected ≠ [] := by
      obtain ⟨index, hindex⟩ := List.exists_mem_of_ne_nil _ hne
      exact List.ne_nil_of_mem (hsub hindex)
    have hlength : batch.indices.length ≤ maxBatchShards := by
      rcases hlimit with hsmall | hfew
      · exact hsize.trans hsmall
      · exact hcount.trans (hfew batch.owner)
    exact encodeGetShards_ok_iff.mpr ⟨batch.indices, rfl, hname hselected', hne, hlength, hnodup,
      fun index hindex => hindices index (hsub hindex)⟩

end

/-! ### Batches of up to 65 shards -/

/-- The constructor takes the batch size. -/
def largeBatchClient : ClientNode where
  servers := [str "http://a"]
  transport := .ucxx
  maxVersionBytes := 65
  replicationFactor := 1
  shardBatchSize := 65
  clientLocality := []
  batch_pos := by decide
  batch_le := by decide

def manyShardsManifest : ShardManifest where
  name := str "v1"
  totalSize := 65
  shardSize := 1
  shardCount := 65
  checksum := str "00"
  shardChecksums := List.replicate 65 (str "00")

theorem batches_one_owner {selected : List Nat}
    (hgroups : letI := asciiLibrary
      (largeBatchClient.groups (fun _ _ _ _ => (0 : Nat)) manyShardsManifest selected).map
        OrderedDict.entries = .ok [(str "http://a", selected)])
    (hspans : Pieces.spans 65 selected.length = [(0, selected.length)]) :
    letI := asciiLibrary
    largeBatchClient.batches (fun _ _ _ _ => (0 : Nat)) manyShardsManifest selected =
      .ok [⟨str "http://a", selected⟩] := by
  let _ := asciiLibrary
  obtain ⟨groups, hgroups, hentries⟩ := map_eq_ok.mp hgroups
  rw [batches, hgroups]
  simp only [bind, Except.bind, pure, Except.pure, hentries, List.flatMap_cons, List.flatMap_nil,
    List.append_nil, largeBatchClient, hspans, List.map_cons, List.map_nil, Pieces.slice_all]

/-- With few shards to fetch the same client asks for them in one request. -/
theorem few_shards_requestable :
    letI := asciiLibrary
    Partitions (fun _ _ _ _ => (0 : Nat)) largeBatchClient manyShardsManifest [0, 1, 2]
        [⟨str "http://a", [0, 1, 2]⟩] ∧
      Requestable manyShardsManifest [⟨str "http://a", [0, 1, 2]⟩] := by
  let _ := asciiLibrary
  have hbatches := @batches_one_owner [0, 1, 2] (by decide +kernel) (by decide)
  refine (batches_requestable_iff (by decide) hbatches).mpr ⟨fun _ => by decide, by decide,
    Or.inr fun owner => ?_⟩
  exact (List.length_filter_le _ _).trans (by decide)

/-- Sixty-five shards of one owner are one batch, and too many for a request. -/
theorem many_shards_not_requestable :
    letI := asciiLibrary
    (List.range 65).Nodup ∧
      largeBatchClient.batches (fun _ _ _ _ => (0 : Nat)) manyShardsManifest (List.range 65) =
        .ok [⟨str "http://a", List.range 65⟩] ∧
      ¬ (Partitions (fun _ _ _ _ => (0 : Nat)) largeBatchClient manyShardsManifest (List.range 65)
            [⟨str "http://a", List.range 65⟩] ∧
          Requestable manyShardsManifest [⟨str "http://a", List.range 65⟩]) := by
  let _ := asciiLibrary
  refine ⟨List.nodup_range, batches_one_owner (by decide +kernel) (by decide), ?_⟩
  rintro ⟨-, hrequest⟩
  obtain ⟨indices, heq, hgood⟩ := encodeGetShards_ok_iff.mp (hrequest _ (List.mem_singleton.mpr rfl))
  have hlength := hgood.length_le
  rw [← List.map_injective_iff.mpr Int.ofNat_injective heq] at hlength
  exact absurd hlength (by decide)

end ClientNode

end Litecast
