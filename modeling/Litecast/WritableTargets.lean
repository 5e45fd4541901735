import Litecast.Lib.Intervals
import Litecast.StreamedShards

/-! `download_shards_into` of `client_node.py`: which of a caller's buffers are
transferred into. -/

namespace Litecast

/-- An index a caller gives. -/
inductive TargetIndex where
  | int (index : Int)
  | bool (value : Bool)
  | other
  deriving DecidableEq

/-- A buffer a caller gives, by what `memoryview` tells of it. -/
structure CpuBuffer where
  address : Nat
  /-- In bytes. -/
  length : Nat
  readonly : Bool
  contiguous : Bool
  deriving DecidableEq

def CpuBuffer.span (buffer : CpuBuffer) : Nat × Nat :=
  (buffer.address, buffer.address + buffer.length)

/-- The bytes at each address. -/
abbrev Memory := Nat → UInt8

/-- One turn of the loop over the targets. -/
def ShardManifest.checkTarget (m : ShardManifest) (index : TargetIndex) (buffer : CpuBuffer) :
    Except Exc (Nat × CpuBuffer) :=
  match index with
  | .int index => do
    let size ← m.shardLength index
    if buffer.readonly = true ∨ buffer.contiguous = false then
      valueError (str "targets must be writable contiguous CPU buffers")
    else if (buffer.length : Int) ≠ size then
      valueError (str "target size does not match shard manifest")
    else return (index.toNat, buffer)
  | _ => .error ⟨.typeError, str "shard index must be int"⟩

namespace ClientNode

/-- The views of all targets, if they can be transferred into. -/
def checkTargets (client : ClientNode) (m : ShardManifest)
    (targets : OrderedDict TargetIndex CpuBuffer) : Except Exc (List (Nat × CpuBuffer)) := do
  let views ← targets.entries.mapM fun target => m.checkTarget target.1 target.2
  let spans := (views.map fun view => view.2.span).insertionSort Intervals.LexLe
  if Intervals.neighboursApart spans = false then
    valueError (str "target buffers must not overlap")
  else if client.maxVersionBytes < (views.map fun view => view.2.length).sum then
    valueError (str "selected shards exceed max_version_bytes")
  else return views

/-- What `_download_streaming` does with the memory once it has checked the
membership: whether it has every shard, or what it raises. -/
abbrev Transfer := List (Nat × CpuBuffer) → Memory → Except Exc Bool × Memory

/-- The end of the call once the transfer is over. -/
def finish (m : ShardManifest) (transferred : Except Exc Bool × Memory) :
    Except Exc ShardManifest × Memory :=
  match transferred with
  | (.error e, memory) => (.error e, memory)
  | (.ok false, memory) =>
    (.error ⟨.runtimeError, str "selected shard transfer failed"⟩, memory)
  | (.ok true, memory) => (.ok m, memory)

/-- `download_shards_into`, given the manifest that was loaded and the line that
is listed for the version. -/
def downloadShardsInto (client : ClientNode) (loaded : Option ShardManifest) (published : Option Str)
    (targets : OrderedDict TargetIndex CpuBuffer) (transfer : ShardManifest → Transfer)
    (memory : Memory) : Except Exc ShardManifest × Memory :=
  match loaded with
  | none => (valueError (str "version has no valid shard manifest"), memory)
  | some m =>
    if published ≠ some (m.checksum ++ str "|" ++ decimal m.shardCount) then
      (valueError (str "shard manifest does not match distribution manifest"), memory)
    else match client.checkTargets m targets with
      | .error e => (.error e, memory)
      | .ok views =>
        match client.checkMembership m with
        | .error e => (.error e, memory)
        | .ok () => finish m (transfer m views memory)

/-! ## Targets that are accepted -/

/-- The view of one target. -/
structure Fills (m : ShardManifest) (target : TargetIndex × CpuBuffer) (view : Nat × CpuBuffer) :
    Prop where
  target_eq : target = (.int view.1, view.2)
  index : view.1 < m.shardCount
  size : m.shardLength view.1 = .ok (view.2.length : Int)
  writable : view.2.readonly = false
  contiguous : view.2.contiguous = true

theorem checkTarget_eq_ok_iff {m : ShardManifest} {target : TargetIndex × CpuBuffer}
    {view : Nat × CpuBuffer} :
    m.checkTarget target.1 target.2 = .ok view ↔ Fills m target view := by
  obtain ⟨key, buffer⟩ := target
  constructor
  · intro h
    cases key with
    | bool value => cases h
    | other => cases h
    | int index =>
      obtain ⟨size, hsize, h⟩ := bind_eq_ok.mp h
      split_ifs at h with hbuffer hlength
      obtain rfl := Except.ok.inj h
      rw [not_or, Bool.not_eq_true, Bool.not_eq_false] at hbuffer
      rw [not_not] at hlength
      have hrange : 0 ≤ index ∧ index < m.shardCount := by
        rw [ShardManifest.shardLength] at hsize
        split_ifs at hsize with hout
        omega
      have hindex : ((index.toNat : Nat) : Int) = index := Int.toNat_of_nonneg hrange.1
      refine ⟨by rw [hindex], by simp only; omega, ?_, hbuffer.1, hbuffer.2⟩
      rw [hindex, hsize, hlength]
  · rintro ⟨htarget, -, hsize, hwritable, hcontiguous⟩
    obtain ⟨rfl, rfl⟩ := Prod.mk.inj htarget
    simp only [ShardManifest.checkTarget, hsize, hwritable, hcontiguous, bind, Except.bind,
      Bool.false_eq_true, reduceCtorEq, or_self, if_false, ne_eq, not_true_eq_false,
      Int.toNat_natCast]
    rfl

/-- What is asked of all targets together. -/
structure Receivable (client : ClientNode) (m : ShardManifest)
    (targets : OrderedDict TargetIndex CpuBuffer) : Prop where
  index : ∀ target ∈ targets.entries, ∃ index : Nat, target.1 = .int index ∧ index < m.shardCount ∧
    m.shardLength index = .ok (target.2.length : Int)
  writable : ∀ target ∈ targets.entries, target.2.readonly = false ∧ target.2.contiguous = true
  apart : targets.entries.Pairwise fun a b => Intervals.Apart a.2.span b.2.span
  total : (targets.entries.map fun target => target.2.length).sum ≤ client.maxVersionBytes

theorem exists_views {m : ShardManifest} {targets : List (TargetIndex × CpuBuffer)}
    (h : ∀ target ∈ targets, ∃ view, Fills m target view) :
    ∃ views, List.Forall₂ (Fills m) targets views := by
  induction targets with
  | nil => exact ⟨[], .nil⟩
  | cons target rest ih =>
    obtain ⟨view, hview⟩ := h target List.mem_cons_self
    obtain ⟨views, hviews⟩ := ih fun target htarget => h target (List.mem_cons_of_mem _ htarget)
    exact ⟨view :: views, .cons hview hviews⟩

theorem entries_of_views {m : ShardManifest} {targets : List (TargetIndex × CpuBuffer)}
    {views : List (Nat × CpuBuffer)} (h : List.Forall₂ (Fills m) targets views) :
    targets = views.map (fun view => (TargetIndex.int view.1, view.2)) ∧
      ∀ view ∈ views, Fills m (.int view.1, view.2) view := by
  induction h with
  | nil => exact ⟨rfl, fun _ hview => nomatch hview⟩
  | cons hview _ ih =>
    obtain rfl := hview.target_eq
    refine ⟨by rw [List.map_cons, ← ih.1], ?_⟩
    rintro view hmem
    rcases List.mem_cons.mp hmem with rfl | hmem
    · exact hview
    · exact ih.2 view hmem

/-- A shard of a counted manifest has bytes, and so has a view that fits it. -/
theorem Fills.span_nonempty {m : ShardManifest} (hm : m.Counted) {target : TargetIndex × CpuBuffer}
    {view : Nat × CpuBuffer} (h : Fills m target view) : view.2.span.1 < view.2.span.2 := by
  have hspan := Pieces.span_nonempty hm.shardSize_pos (hm.shardCount_eq ▸ h.index)
  have hlength := Except.ok.inj ((hm.shardLength h.index).symm.trans h.size)
  simp only [CpuBuffer.span]
  omega

theorem checkTargets_eq_ok_iff {client : ClientNode} {m : ShardManifest} (hm : m.Counted)
    {targets : OrderedDict TargetIndex CpuBuffer} {views : List (Nat × CpuBuffer)} :
    client.checkTargets m targets = .ok views ↔
      List.Forall₂ (Fills m) targets.entries views ∧
        (views.map fun view => view.2.span).Pairwise Intervals.Apart ∧
        (views.map fun view => view.2.length).sum ≤ client.maxVersionBytes := by
  have hchecked : ∀ {views : List (Nat × CpuBuffer)},
      (targets.entries.mapM fun target => m.checkTarget target.1 target.2) = .ok views ↔
        List.Forall₂ (Fills m) targets.entries views := by
    intro views
    rw [mapM_eq_ok]
    exact ⟨fun h => h.imp fun _ _ => checkTarget_eq_ok_iff.mp,
      fun h => h.imp fun _ _ => checkTarget_eq_ok_iff.mpr⟩
  have hapart : ∀ {views : List (Nat × CpuBuffer)}, List.Forall₂ (Fills m) targets.entries views →
      ((views.map fun view => view.2.span).Pairwise Intervals.Apart ↔
        Intervals.neighboursApart
          ((views.map fun view => view.2.span).insertionSort Intervals.LexLe) = true) := by
    intro views hviews
    apply Intervals.pairwise_apart_iff_sorted
    intro span hspan
    obtain ⟨view, hview, rfl⟩ := List.mem_map.mp hspan
    exact ((entries_of_views hviews).2 view hview).span_nonempty hm
  rw [checkTargets, bind_eq_ok]
  constructor
  · rintro ⟨found, hfound, h⟩
    rw [hchecked] at hfound
    simp only at h
    split_ifs at h with hoverlap hlarge
    obtain rfl := Except.ok.inj h
    rw [Bool.not_eq_false] at hoverlap
    exact ⟨hfound, (hapart hfound).mpr hoverlap, not_lt.mp hlarge⟩
  · rintro ⟨hviews, hpairwise, htotal⟩
    refine ⟨views, hchecked.mpr hviews, ?_⟩
    simp only
    rw [if_neg (by rw [(hapart hviews).mp hpairwise]; decide), if_neg (not_lt.mpr htotal)]
    rfl

theorem receivable_iff {client : ClientNode} {m : ShardManifest} (hm : m.Counted)
    {targets : OrderedDict TargetIndex CpuBuffer} :
    client.Receivable m targets ↔ ∃ views, client.checkTargets m targets = .ok views := by
  constructor
  · rintro ⟨hindex, hwritable, hapart, htotal⟩
    have hfills : ∀ target ∈ targets.entries, ∃ view, Fills m target view := by
      rintro ⟨key, buffer⟩ htarget
      obtain ⟨index, hkey, hlt, hsize⟩ := hindex _ htarget
      obtain ⟨hwrite, hcontiguous⟩ := hwritable _ htarget
      exact ⟨(index, buffer), by rw [← hkey], hlt, hsize, hwrite, hcontiguous⟩
    obtain ⟨views, hviews⟩ := exists_views hfills
    refine ⟨views, (checkTargets_eq_ok_iff hm).mpr ⟨hviews, ?_, ?_⟩⟩
    · rw [(entries_of_views hviews).1, List.pairwise_map] at hapart
      exact List.pairwise_map.mpr hapart
    · rw [(entries_of_views hviews).1, List.map_map] at htotal
      exact htotal
  · rintro ⟨views, h⟩
    obtain ⟨hviews, hapart, htotal⟩ := (checkTargets_eq_ok_iff hm).mp h
    obtain ⟨hentries, hfills⟩ := entries_of_views hviews
    have hview : ∀ target ∈ targets.entries, ∃ view ∈ views,
        target = (.int view.1, view.2) := by
      intro target htarget
      rw [hentries] at htarget
      obtain ⟨view, hview, rfl⟩ := List.mem_map.mp htarget
      exact ⟨view, hview, rfl⟩
    refine ⟨?_, ?_, ?_, ?_⟩
    · intro target htarget
      obtain ⟨view, hview, rfl⟩ := hview target htarget
      exact ⟨view.1, rfl, (hfills view hview).index, (hfills view hview).size⟩
    · intro target htarget
      obtain ⟨view, hview, rfl⟩ := hview target htarget
      exact ⟨(hfills view hview).writable, (hfills view hview).contiguous⟩
    · rw [hentries, List.pairwise_map]
      exact List.pairwise_map.mp hapart
    · rw [hentries, List.map_map]
      exact htotal

section
variable [Library]

/-- **A transfer starts exactly into targets that can receive it.** For an
accepted manifest that the listed line and the membership agree with, the
transfer gets a view of every target when each index is in range, each buffer
writable, contiguous and as long as its shard, no two share an address and all
of them fit; otherwise the call raises with the memory as it was. -/
theorem downloadShardsInto_starts_iff {raw : Bytes} {m : ShardManifest}
    (hm : ShardManifest.fromBytes raw = .ok m) (client : ClientNode) {published : Option Str}
    (hpublished : published = some (m.checksum ++ str "|" ++ decimal m.shardCount))
    (hmembership : client.checkMembership m = .ok ())
    (targets : OrderedDict TargetIndex CpuBuffer) :
    (client.Receivable m targets ↔
      ∃ views : List (Nat × CpuBuffer),
        targets.entries = views.map (fun view => (TargetIndex.int view.1, view.2)) ∧
        ∀ (transfer : ShardManifest → Transfer) (memory : Memory),
          client.downloadShardsInto (some m) published targets transfer memory =
            finish m (transfer m views memory)) ∧
    (¬ client.Receivable m targets →
      ∃ e, ∀ (transfer : ShardManifest → Transfer) (memory : Memory),
        client.downloadShardsInto (some m) published targets transfer memory = (.error e, memory)) := by
  have hcounted := (ShardManifest.fromBytes_consistent hm).counted
  have hrefused : ¬ client.Receivable m targets →
      ∃ e, ∀ (transfer : ShardManifest → Transfer) (memory : Memory),
        client.downloadShardsInto (some m) published targets transfer memory =
          (.error e, memory) := by
    intro hnot
    cases hchecked : client.checkTargets m targets with
    | ok views => exact absurd ((receivable_iff hcounted).mpr ⟨views, hchecked⟩) hnot
    | error e =>
      refine ⟨e, fun transfer memory => ?_⟩
      simp only [downloadShardsInto, hpublished, ne_eq, not_true_eq_false, if_false, hchecked]
  refine ⟨⟨fun hreceivable => ?_, ?_⟩, hrefused⟩
  · obtain ⟨views, hchecked⟩ := (receivable_iff hcounted).mp hreceivable
    have hviews := ((checkTargets_eq_ok_iff hcounted).mp hchecked).1
    refine ⟨views, (entries_of_views hviews).1, fun transfer memory => ?_⟩
    simp only [downloadShardsInto, hpublished, ne_eq, not_true_eq_false, if_false, hchecked,
      hmembership]
  · rintro ⟨views, -, hstarted⟩
    by_contra hnot
    obtain ⟨e, hraised⟩ := hrefused hnot
    -- a transfer that has every shard would return the manifest
    have hreturned := (hstarted (fun _ _ memory => (.ok true, memory)) fun _ => 0).symm.trans
      (hraised _ _)
    cases hreturned

end

/-- Two neighbouring buffers, for the two shards of three bytes. -/
def neighbours : OrderedDict TargetIndex CpuBuffer :=
  (OrderedDict.empty.insert (.int 1) ⟨102, 1, false, true⟩).insert (.int 0) ⟨100, 2, false, true⟩

theorem downloadShardsInto_starts_neighbours :
    let _ := asciiLibrary
    httpClient.Receivable legacyManifest neighbours ∧
      ∃ views, ∀ (transfer : ShardManifest → Transfer) (memory : Memory),
        httpClient.downloadShardsInto (some legacyManifest)
          (some (legacyManifest.checksum ++ str "|2")) neighbours transfer memory =
            finish legacyManifest (transfer legacyManifest views memory) := by
  intro _
  have hcounted := (ShardManifest.fromBytes_consistent legacyManifest_read).counted
  have hreceivable : httpClient.Receivable legacyManifest neighbours :=
    (receivable_iff hcounted).mpr
      ⟨[(1, ⟨102, 1, false, true⟩), (0, ⟨100, 2, false, true⟩)], by decide +kernel⟩
  have hpublished : some (legacyManifest.checksum ++ str "|2") =
      some (legacyManifest.checksum ++ str "|" ++ decimal legacyManifest.shardCount) := by
    decide +kernel
  obtain ⟨views, -, hstarts⟩ := (downloadShardsInto_starts_iff legacyManifest_read httpClient
    hpublished rfl neighbours).1.mp hreceivable
  exact ⟨hreceivable, views, hstarts⟩

end ClientNode

end Litecast
