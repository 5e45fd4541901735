import Litecast.Agreement
import Litecast.ShardTargets

/-! The shards `_download_streaming` returns have the checksums of their
manifest, whatever the peers do and whichever worker is done first. -/

namespace Litecast

section
variable [Library]

/-- The target of a shard holds what the manifest names. -/
def Selection.Verified (m : ShardManifest) (s : Selection) (index : Nat) : Prop :=
  hexdigest (s.target m index) = m.shardChecksum index

namespace Selection

variable {m : ShardManifest} {s t : Selection}

theorem Verified.of_frame {touched : List Nat} {index : Nat} (h : s.Verified m index)
    (htouches : s.Touches m touched t) (hindex : index ∈ s.indices m)
    (huntouched : index ∉ touched) : t.Verified m index := by
  rw [Verified, htouches.frame index hindex huntouched]
  exact h

omit [Library] in
/-- The targets of a batch, written back. -/
theorem fill_entries (hs : s.Fits m) (hm : m.Counted) {entries : List (Nat × Bytes)}
    (hnodup : (entries.map Prod.fst).Nodup)
    (hentries : ∀ entry ∈ entries, entry.1 ∈ s.indices m ∧
      entry.2.length = (s.target m entry.1).length) :
    let filled := entries.foldl (fun selection entry => selection.fill m entry.1 entry.2) s
    s.Touches m (entries.map Prod.fst) filled ∧
      ∀ entry ∈ entries, filled.target m entry.1 = entry.2 := by
  induction entries generalizing s with
  | nil => exact ⟨.refl hs, by simp⟩
  | cons entry rest ih =>
    obtain ⟨⟨hindex, hlength⟩, hrest⟩ := List.forall_mem_cons.mp hentries
    obtain ⟨hfirst, hheld⟩ := hs.fill hm hindex hlength
    rw [List.map_cons, List.nodup_cons] at hnodup
    obtain ⟨hlater, hfilled⟩ := ih hfirst.fits hnodup.2 (by
      intro later hmem
      obtain ⟨hin, hlen⟩ := hrest later hmem
      rw [hfirst.indices_eq]
      refine ⟨hin, hlen.trans ?_⟩
      rw [hfirst.frame later.1 hin]
      rw [List.mem_singleton]
      rintro hsame
      exact hnodup.1 (hsame ▸ List.mem_map_of_mem hmem))
    refine ⟨(hfirst.mono (by simp)).trans (hlater.mono (by simp +contextual)), ?_⟩
    rw [List.forall_mem_cons]
    refine ⟨?_, hfilled⟩
    rw [List.foldl_cons, hlater.frame entry.1 (hfirst.indices_eq ▸ hindex) hnodup.1, hheld]

end Selection

namespace ClientNode

variable {S : Type} [LinearOrder S] {score : Str → Nat → Str → MemberProfile → S}

/-- What a worker makes of its shards: it writes to no other target, and what it
reports is verified. -/
structure Fetched (m : ShardManifest) (indices : List Nat) (before : Selection)
    (outcome : Except Exc (List Nat) × Selection) : Prop where
  touches : before.Touches m indices outcome.2
  completed : ∀ done, outcome.1 = .ok done →
    (∀ index, index ∈ done ↔ index ∈ indices) ∧ ∀ index ∈ done, outcome.2.Verified m index

theorem receiveAll_fetched (client : ClientNode) {m : ShardManifest} (hm : m.Counted)
    (rounds : Nat → List Round) {indices : List Nat} {s : Selection} (hs : s.Fits m)
    (hindices : ∀ index ∈ indices, index ∈ s.indices m) :
    Fetched m indices s (client.receiveAll score m rounds indices s) := by
  induction indices generalizing s with
  | nil =>
    refine ⟨.refl hs, ?_⟩
    intro done hdone
    obtain rfl := Except.ok.inj hdone
    simp
  | cons index rest ih =>
    obtain ⟨hindex, hrest⟩ := List.forall_mem_cons.mp hindices
    have hfills : Filled _ _ (∃ done, (client.receive score m index (rounds index)
        (s.target m index)).1 = .ok done) _ := client.receive_fills m index _ _
    have hsame (done : Nat) (h : (client.receive score m index (rounds index)
        (s.target m index)).1 = .ok done) : done = index := receive_eq_ok h
    rw [receiveAll]
    generalize client.receive score m index (rounds index) (s.target m index) = received
      at hfills hsame ⊢
    rcases received with ⟨e | done, bytes⟩
    · obtain ⟨htouches, -⟩ := hs.fill hm hindex hfills.length_eq
      refine ⟨htouches.mono (by simp), ?_⟩
      intro done hdone
      cases hdone
    · obtain rfl := hsame done rfl
      obtain ⟨htouches, hheld⟩ := hs.fill hm hindex hfills.length_eq
      have hlater := ih htouches.fits (by rwa [htouches.indices_eq])
      refine ⟨(htouches.mono (by simp)).trans (hlater.touches.mono (by simp +contextual)), ?_⟩
      intro all hall
      obtain ⟨more, hmore, rfl⟩ := map_eq_ok.mp hall
      obtain ⟨hmem, hverified⟩ := hlater.completed more hmore
      constructor
      · intro i
        rw [List.mem_cons, List.mem_cons, hmem]
      · rw [List.forall_mem_cons]
        refine ⟨?_, hverified⟩
        by_cases hagain : done ∈ rest
        · exact hverified done ((hmem done).mpr hagain)
        · apply Selection.Verified.of_frame _ hlater.touches (htouches.indices_eq ▸ hindex) hagain
          rw [Selection.Verified, hheld]
          exact hfills.digest_eq ⟨done, rfl⟩

omit [Library] in
/-- The targets of a batch are those of its shards. -/
theorem get?_batchTargets (m : ShardManifest) (s : Selection) (indices : List Nat) (index : Nat) :
    (batchTargets m s indices).get? index =
      if index ∈ indices then some (s.target m index) else none := by
  induction indices using List.reverseRecOn with
  | nil => rfl
  | append_singleton indices last ih =>
    rw [batchTargets, List.foldl_append, List.foldl_cons, List.foldl_nil, ← batchTargets,
      OrderedDict.get?_insert, ih]
    by_cases hlast : index = last
    · rw [if_pos hlast, if_pos (by simp [hlast]), hlast]
    · simp only [List.mem_append, List.mem_singleton, hlast, or_false, if_false]

/-- After the exchange of a batch its targets are written back: what the peer
reports completed is verified, and the rest is reported unavailable. -/
theorem exchanged_batch {m : ShardManifest} (hm : m.Counted) {indices : List Nat} {s : Selection}
    (hs : s.Fits m) (hindices : ∀ index ∈ indices, index ∈ s.indices m)
    {outcome : Except Exc Ucxx.BatchShardFetchResult × Ucxx.Targets}
    (h : Ucxx.Exchanged m.shardChecksum (batchTargets m s indices) outcome) :
    let filled := outcome.2.entries.foldl (fun selection entry =>
      selection.fill m entry.1 entry.2) s
    s.Touches m indices filled ∧ ∀ reported, outcome.1 = .ok reported →
      (∀ index, index ∈ reported.completed ++ reported.unavailable ↔ index ∈ indices) ∧
      ∀ index ∈ reported.completed, filled.Verified m index := by
  obtain ⟨result, targets⟩ := outcome
  have hkeys (index : Nat) : index ∈ (batchTargets m s indices).keys ↔ index ∈ indices := by
    rw [OrderedDict.mem_keys_iff, get?_batchTargets]
    split_ifs with hmem <;> simp [hmem]
  have hentries : ∀ entry ∈ targets.entries, entry.1 ∈ indices ∧
      entry.2.length = (s.target m entry.1).length := by
    intro entry hentry
    have hget : targets.get? entry.1 = some entry.2 := OrderedDict.get?_eq_some_iff.mpr hentry
    have hlength := h.alike entry.1
    have hmem : entry.1 ∈ indices :=
      (hkeys _).mp ((h.alike.mem_keys_iff _).mp (List.mem_map_of_mem hentry))
    rw [get?_batchTargets, if_pos hmem, hget] at hlength
    exact ⟨hmem, Option.some.inj hlength⟩
  obtain ⟨hfilled, hheld⟩ := Selection.fill_entries hs hm targets.nodup
    (fun entry hentry => ⟨hindices _ (hentries entry hentry).1, (hentries entry hentry).2⟩)
  constructor
  · apply hfilled.mono
    intro index hindex
    obtain ⟨entry, hentry, rfl⟩ := List.mem_map.mp hindex
    exact (hentries entry hentry).1
  · rintro reported rfl
    obtain ⟨hinside, hcovered, hdigests⟩ := h.completed reported rfl
    constructor
    · intro index
      rw [← hkeys]
      exact ⟨hinside index, hcovered index⟩
    · intro index hindex
      have hkey := (h.alike.mem_keys_iff index).mpr (hinside index (List.mem_append_left _ hindex))
      obtain ⟨bytes, hbytes⟩ := OrderedDict.mem_keys_iff.mp hkey
      have hdigest := hdigests index hindex
      simp only [hbytes, Option.getD_some] at hdigest
      rw [Selection.Verified, hheld (index, bytes) (OrderedDict.get?_eq_some_iff.mp hbytes)]
      exact hdigest

/-- **One batch**: in one exchange or shard by shard, or the one after the other. -/
theorem receiveBatch_fetched (client : ClientNode) {m : ShardManifest} (hm : m.Counted)
    (batch : Batch) (answers : BatchAnswers) {s : Selection} (hs : s.Fits m)
    (hindices : ∀ index ∈ batch.indices, index ∈ s.indices m) :
    Fetched m batch.indices s (client.receiveBatch score m batch answers s) := by
  simp only [receiveBatch]
  split
  · exact client.receiveAll_fetched hm answers.rounds hs hindices
  obtain ⟨hfilled, hreported⟩ := exchanged_batch hm hs hindices
    (Ucxx.fetchShardsInto_exchanged answers.exchange m.name _ m.shardChecksum)
  generalize Ucxx.fetchShardsInto answers.exchange m.name (batchTargets m s batch.indices)
    m.shardChecksum = exchanged at hfilled hreported ⊢
  obtain ⟨result, targets⟩ := exchanged
  simp only at hfilled hreported ⊢
  generalize targets.entries.foldl (fun selection entry => selection.fill m entry.1 entry.2) s =
    filled at hfilled hreported ⊢
  have hstill : ∀ index ∈ batch.indices, index ∈ filled.indices m := by
    rw [hfilled.indices_eq]
    exact hindices
  cases result with
  | error e =>
    have hagain : Fetched m batch.indices filled (client.receiveAll score m answers.rounds _ _) :=
      client.receiveAll_fetched hm answers.rounds hfilled.fits hstill
    exact ⟨hfilled.trans hagain.touches, hagain.completed⟩
  | ok reported =>
    obtain ⟨hall, hverified⟩ := hreported reported rfl
    have hmissing : ∀ index ∈ reported.unavailable, index ∈ batch.indices := fun index hindex =>
      (hall index).mp (List.mem_append_right _ hindex)
    have hrest : Fetched m reported.unavailable filled
        (client.receiveAll score m answers.rounds _ _) :=
      client.receiveAll_fetched hm answers.rounds hfilled.fits
        (fun index hindex => hstill index (hmissing index hindex))
    refine ⟨hfilled.trans (hrest.touches.mono hmissing), ?_⟩
    intro done hdone
    obtain ⟨later, hlater, rfl⟩ := map_eq_ok.mp hdone
    obtain ⟨hmem, hlate⟩ := hrest.completed later hlater
    constructor
    · intro index
      rw [← hall, List.mem_append, List.mem_append, hmem]
    · intro index hindex
      by_cases hagain : index ∈ reported.unavailable
      · exact hlate index ((hmem index).mpr hagain)
      · have hearly := (List.mem_append.mp hindex).resolve_right (mt (hmem index).mp hagain)
        apply (hverified index hearly).of_frame hrest.touches _ hagain
        exact hstill index ((hall index).mp (List.mem_append_left _ hearly))

/-! ## All batches -/

omit [Library] in
theorem writeMeanwhile_touches {m : ShardManifest} (hm : m.Counted) {indices : List Nat}
    (meanwhile : Nat → Bytes) {s : Selection} (hs : s.Fits m)
    (hindices : ∀ index ∈ indices, index ∈ s.indices m) :
    s.Touches m indices (writeMeanwhile m indices meanwhile s) := by
  induction indices generalizing s with
  | nil => exact .refl hs
  | cons index rest ih =>
    obtain ⟨hindex, hrest⟩ := List.forall_mem_cons.mp hindices
    obtain ⟨hfirst, -⟩ := hs.fill hm hindex (length_overwrite (s.target m index) (meanwhile index))
    have hlater := ih hfirst.fits (by rwa [hfirst.indices_eq])
    exact (hfirst.mono (by simp)).trans (hlater.mono (by simp +contextual))

/-- The workers of the shards `handled` are done. -/
structure Reached (m : ShardManifest) (handled : Finset Nat) (p : Progress) : Prop where
  fits : p.selection.Fits m
  tracks : Frontier.Tracks (p.selection.target m) handled p.shards
  drained : p.selection.isWhole = true → p.shards.frontier ∉ p.shards.ready
  inside : ∀ index ∈ handled, index ∈ p.selection.indices m
  verified : ∀ index ∈ handled, p.selection.Verified m index

theorem reached_start {m : ShardManifest} {s : Selection} (hs : s.Fits m) :
    Reached m ∅ { selection := s } where
  fits := hs
  tracks := Frontier.tracks_start _
  drained := fun _ => Finset.notMem_empty _
  inside := by simp
  verified := by simp

/-- One future completes: the shards of its batch join those handled, while the
other workers write to the targets of theirs. -/
theorem Reached.turn {m : ShardManifest} {handled : Finset Nat} {p : Progress}
    (hp : Reached m handled p) {pending arrived completed : List Nat} {s : Selection}
    (htouches : p.selection.Touches m pending s) (hnew : ∀ index ∈ pending, index ∉ handled)
    (hpending : ∀ index ∈ pending, index ∈ p.selection.indices m)
    (harrived : ∀ index ∈ arrived, index ∈ pending)
    (hcompleted : ∀ index, index ∈ completed ↔ index ∈ arrived)
    (hverified : ∀ index ∈ completed, s.Verified m index) :
    Reached m (handled ∪ arrived.toFinset)
      { selection := s
        shards :=
          if s.isWhole then p.shards.accept (s.target m) completed
          else { p.shards with ready := p.shards.ready ∪ completed.toFinset } } := by
  have hsame : arrived.toFinset = completed.toFinset := by
    ext index
    rw [List.mem_toFinset, List.mem_toFinset, hcompleted]
  have hold (index : Nat) (hindex : index ∈ handled) : index ∉ pending :=
    fun hmem => hnew index hmem hindex
  have hbefore : Frontier.Tracks (s.target m) handled p.shards := by
    apply hp.tracks.congr
    intro index hindex
    exact htouches.frame index (hp.inside index hindex) (hold index hindex)
  have hfresh : ∀ index ∈ completed, index ∉ handled := fun index hindex =>
    hnew index (harrived index ((hcompleted index).mp hindex))
  have hmem (index : Nat) (hindex : index ∈ handled ∪ arrived.toFinset) :
      index ∈ handled ∨ index ∈ completed := by
    rw [Finset.mem_union, List.mem_toFinset, ← hcompleted] at hindex
    exact hindex
  constructor
  · exact htouches.fits
  · rw [hsame]
    cases s.isWhole with
    | true => exact (hbefore.accept hfresh).1
    | false => exact hbefore.arrive hfresh
  · intro hwhole
    simp only at hwhole
    simp only [hwhole, if_true]
    exact (hbefore.accept hfresh).2
  · intro index hindex
    simp only [htouches.indices_eq]
    rcases hmem index hindex with hhandled | hlate
    · exact hp.inside index hhandled
    · exact hpending index (harrived index ((hcompleted index).mp hlate))
  · intro index hindex
    rcases hmem index hindex with hhandled | hlate
    · exact (hp.verified index hhandled).of_frame htouches (hp.inside index hhandled)
        (hold index hhandled)
    · exact hverified index hlate

/-- The shards whose workers are not done. -/
def pendingShards (turns : List Turn) : List Nat := turns.flatMap fun turn => turn.batch.indices

/-- **In whatever order the workers are done**, the shards taken are verified and
were taken in the order of their numbers. -/
theorem asCompleted_reached (client : ClientNode) {m : ShardManifest} (hm : m.Counted)
    {turns : List Turn} {handled : Finset Nat} {p q : Progress} (hp : Reached m handled p)
    (hnodup : (pendingShards turns).Nodup)
    (hnew : ∀ index ∈ pendingShards turns, index ∉ handled)
    (hpending : ∀ index ∈ pendingShards turns, index ∈ p.selection.indices m)
    (h : client.asCompleted score m turns p = .ok q) :
    Reached m (handled ∪ (pendingShards turns).toFinset) q ∧
      p.selection.Touches m (pendingShards turns) q.selection := by
  induction turns generalizing handled p with
  | nil =>
    obtain rfl := Except.ok.inj h
    simp only [pendingShards, List.flatMap_nil, List.toFinset_nil, Finset.union_empty]
    exact ⟨hp, .refl hp.fits⟩
  | cons turn rest ih =>
    have hsplit : pendingShards (turn :: rest) = turn.batch.indices ++ pendingShards rest :=
      List.flatMap_cons
    rw [asCompleted, ← pendingShards] at h
    have hmeanwhile := writeMeanwhile_touches hm turn.meanwhile hp.fits hpending
    have hinside : ∀ index ∈ turn.batch.indices, index ∈ pendingShards (turn :: rest) := by
      rw [hsplit]
      exact fun index hindex => List.mem_append_left _ hindex
    have hfetched : Fetched m _ _ (client.receiveBatch score m turn.batch turn.answers _) :=
      client.receiveBatch_fetched hm turn.batch turn.answers hmeanwhile.fits (by
        intro index hindex
        rw [hmeanwhile.indices_eq]
        exact hpending index (hinside index hindex))
    simp only at h
    generalize client.receiveBatch score m turn.batch turn.answers _ = outcome at h hfetched
    rcases outcome with ⟨e | completed, s⟩
    · cases h
    · obtain ⟨hcompleted, hverified⟩ := hfetched.completed completed rfl
      have htouches := hmeanwhile.trans (hfetched.touches.mono hinside)
      have hstep := hp.turn htouches hnew hpending hinside hcompleted hverified
      rw [hsplit, List.nodup_append] at hnodup
      obtain ⟨-, hrest, hdisjoint⟩ := hnodup
      have hlater (index : Nat) (hindex : index ∈ pendingShards rest) :
          index ∈ pendingShards (turn :: rest) := hsplit ▸ List.mem_append_right _ hindex
      obtain ⟨hreached, hafter⟩ := ih hstep hrest (by
          intro index hindex hmem
          rw [Finset.mem_union, List.mem_toFinset] at hmem
          rcases hmem with hhandled | harrived
          · exact hnew index (hlater index hindex) hhandled
          · exact hdisjoint index harrived index hindex rfl) (by
          intro index hindex
          rw [htouches.indices_eq]
          exact hpending index (hlater index hindex)) h
      rw [hsplit, List.toFinset_append, ← Finset.union_assoc, ← hsplit]
      exact ⟨hreached, htouches.trans (hafter.mono hlater)⟩

/-! ## The download -/

theorem asCompleted_all (client : ClientNode) {m : ShardManifest} (hm : m.Counted) {s : Selection}
    (hs : s.Fits m) {batches : List Batch}
    (hbatches : client.batches score m (s.indices m) = .ok batches) (schedule : Schedule)
    {p : Progress}
    (h : client.asCompleted score m (schedule.turns batches) { selection := s } = .ok p) :
    Reached m (s.indices m).toFinset p ∧ p.selection.isWhole = s.isWhole ∧
      p.selection.indices m = s.indices m := by
  obtain ⟨hperm, -⟩ := batches_spec hbatches
  have hall : (pendingShards (schedule.turns batches)).Perm (s.indices m) := by
    have hturns := (schedule.complete batches).flatMap_right Batch.indices
    rw [List.flatMap_map] at hturns
    exact hturns.trans hperm
  have hnodup : (s.indices m).Nodup := by
    cases s with
    | whole data => exact List.nodup_range
    | targets given => exact given.nodup
  obtain ⟨hreached, htouches⟩ := client.asCompleted_reached hm (reached_start hs)
    (hall.nodup_iff.mpr hnodup) (fun _ _ => Finset.notMem_empty _)
    (fun index hindex => hall.subset hindex) h
  rw [Finset.empty_union, List.toFinset_eq_of_perm _ _ hall] at hreached
  exact ⟨hreached, htouches.isWhole_eq, htouches.indices_eq⟩

theorem accepted_digest {m : ShardManifest} {p : Progress} {bytes : Bytes}
    (hdigested : p.digested m = some bytes) (h : accepted m p = .ok true) :
    hexdigest bytes = m.checksum := by
  rw [accepted, hdigested] at h
  exact of_decide_eq_true (Except.ok.inj h)

/-- The memory a download without targets, or with these, returns. -/
def Returned (m : ShardManifest) (targets : Option Ucxx.Targets) : Selection → Prop
  | .whole data => targets = none ∧ data.length = m.totalSize
  | .targets filled => ∃ given, targets = some given ∧ filled.keys = given.keys

omit [Library] in
theorem Returned.of_same {m : ShardManifest} {targets : Option Ucxx.Targets} {s t : Selection}
    (h : Returned m targets s) (hfits : t.Fits m) (hwhole : t.isWhole = s.isWhole)
    (hindices : t.indices m = s.indices m) : Returned m targets t := by
  cases s with
  | whole data =>
    cases t with
    | whole later => exact ⟨h.1, hfits⟩
    | targets filled => cases hwhole
  | targets given =>
    cases t with
    | whole later => cases hwhole
    | targets filled =>
      obtain ⟨first, hfirst, hkeys⟩ := h
      exact ⟨first, hfirst, hindices.trans hkeys⟩

omit [Library] in
/-- The targets of a buffer, one after the other, are the buffer. -/
theorem flatten_targets {m : ShardManifest} (hm : m.Counted) {data : Bytes}
    (hs : (Selection.whole data).Fits m) :
    ((List.range m.shardCount).map ((Selection.whole data).target m)).flatten = data := by
  have hlength : data.length = m.totalSize := hs
  have hslices : (List.range m.shardCount).map ((Selection.whole data).target m) =
      (Pieces.spans m.shardSize m.totalSize).map fun span => Pieces.slice data span.1 span.2 := by
    rw [Pieces.spans, ← hm.shardCount_eq, List.map_map]
    apply List.map_congr_left
    intro index hindex
    exact Selection.target_whole hm (List.mem_range.mp hindex)
  rw [hslices, Pieces.flatten_slices (Pieces.consecutive_spans hm.shardSize_pos _)
    (Nat.le_of_eq hlength.symm), ← hlength, Pieces.slice_all]

/-- A download that returns something has seen every batch completed. -/
theorem downloadStreaming_eq_some {client : ClientNode} {m : ShardManifest}
    {targets : Option Ucxx.Targets} (htargets : ∀ given ∈ targets, (Selection.targets given).Fits m)
    {schedule : Schedule} {p : Progress}
    (h : client.downloadStreaming score m targets schedule = .ok (some p)) :
    ∃ s : Selection, s.Fits m ∧ Returned m targets s ∧
      ∃ batches, client.batches score m (s.indices m) = .ok batches ∧
        client.asCompleted score m (schedule.turns batches) { selection := s } = .ok p ∧
        accepted m p = .ok true := by
  rw [downloadStreaming] at h
  split at h
  · cases h
  obtain ⟨_, -, h⟩ := bind_eq_ok.mp h
  obtain ⟨_, -, h⟩ := bind_eq_ok.mp h
  split at h
  · split at h <;> cases h
  next result hrun =>
    obtain ⟨batches, hbatches, hcompleted⟩ := bind_eq_ok.mp hrun
    obtain ⟨accept, haccept, h⟩ := bind_eq_ok.mp h
    cases accept with
    | false => cases h
    | true =>
      obtain rfl := Option.some.inj (Except.ok.inj h)
      refine ⟨_, ?_, ?_, batches, hbatches, hcompleted, haccept⟩
      · cases targets with
        | none => exact List.length_replicate
        | some given => exact htargets given rfl
      · cases targets with
        | none => exact ⟨rfl, List.length_replicate⟩
        | some given => exact ⟨given, rfl, rfl⟩

/-- **A streamed download is verified.** Whatever the peers answer and in whatever
order the workers are done: every selected shard was completed, and what is
returned for it has the checksum of the manifest. A whole version was taken
shard by shard in order, and without a Merkle root its digest is checked. -/
theorem streamed_verified (client : ClientNode) {raw : Bytes} {m : ShardManifest}
    (hm : ShardManifest.fromBytes raw = .ok m) (targets : Option Ucxx.Targets)
    (htargets : ∀ given ∈ targets, (Selection.targets given).Fits m) (schedule : Schedule)
    {p : Progress} (h : client.downloadStreaming score m targets schedule = .ok (some p)) :
    Returned m targets p.selection ∧
    (∀ index ∈ p.selection.indices m,
      m.shardChecksums[index]? = some (hexdigest (p.selection.target m index)) ∧
      (index < p.shards.frontier ∨ index ∈ p.shards.ready)) ∧
    ∀ data, p.selection = .whole data →
      p.shards.taken = (List.range m.shardCount).map (p.selection.target m) ∧
      p.shards.taken.flatten = data ∧
      (m.merkleRoot = none → p.digested m = some data ∧ hexdigest data = m.checksum) := by
  have hconsistent := ShardManifest.fromBytes_consistent hm
  have hcounted := hconsistent.counted
  obtain ⟨s, hs, hstart, hdone⟩ := downloadStreaming_eq_some htargets h
  obtain ⟨batches, hbatches, hcompleted, haccepted⟩ := hdone
  obtain ⟨hreached, hwhole, hindices⟩ :=
    client.asCompleted_all hcounted hs hbatches schedule hcompleted
  refine ⟨hstart.of_same hreached.fits hwhole hindices, ?_, ?_⟩
  · intro index hindex
    have hmem : index ∈ (s.indices m).toFinset := List.mem_toFinset.mpr (hindices ▸ hindex)
    refine ⟨?_, (hreached.tracks.mem_iff index).mp hmem⟩
    have hlt := (hreached.fits.target hcounted hindex).1
    rw [← hconsistent.checksums_length] at hlt
    have hverified := hreached.verified index hmem
    rw [Selection.Verified, ShardManifest.shardChecksum, List.getElem?_eq_getElem hlt,
      Option.getD_some] at hverified
    rw [hverified, List.getElem?_eq_getElem hlt]
  · intro data hdata
    have hisWhole : p.selection.isWhole = true := by rw [hdata]; rfl
    have hrange : (s.indices m).toFinset = Finset.range m.shardCount := by
      rw [← hindices, hdata]
      exact List.toFinset_range m.shardCount
    rw [hrange] at hreached
    obtain ⟨-, -, htaken⟩ := hreached.tracks.complete (hreached.drained hisWhole)
    have hflatten : p.shards.taken.flatten = data := by
      have hfits := hreached.fits
      rw [htaken, hdata]
      rw [hdata] at hfits
      exact flatten_targets hcounted hfits
    refine ⟨htaken, hflatten, ?_⟩
    intro hlegacy
    have hdigested : p.digested m = some data := by
      rw [Progress.digested, if_pos ⟨hisWhole, hlegacy⟩, hflatten]
    exact ⟨hdigested, accepted_digest hdigested haccepted⟩

end ClientNode

end

/-! ## Two shards -/

/-- Three bytes in two shards, in the legacy schema. -/
def legacyManifest : ShardManifest where
  name := str "v1"
  totalSize := 3
  shardSize := 2
  shardCount := 2
  checksum := hex ([1, 2, 3] ++ List.replicate 29 0)
  shardChecksums := [hex ([1, 2] ++ List.replicate 30 0), hex (3 :: List.replicate 31 0)]
  schema := .int 1

theorem legacyManifest_read :
    let _ := asciiLibrary
    ShardManifest.fromBytes (dumps legacyManifest.toDict) = .ok legacyManifest := by
  intro _
  have hconsistent : legacyManifest.Consistent := {
    schema := by decide, name_ne := by decide, shardSize_pos := by decide
    shardCount_eq := by decide, checksums_length := by decide, checksum_valid := by decide
    checksums_valid := by decide, members_canonical := by decide, factor_pos := by decide
    factor_le := by decide, profiles := by decide, current := by decide, legacy := by decide }
  have hlegible : legacyManifest.Legible := {
    schema := .int 1, rejoined_schema := by rfl, name := by decide, checksum := by decide
    shardChecksums := by decide, members := by decide, merkleRoot := by decide
    profiled := by decide, texts := by decide, floats := by simp [legacyManifest] }
  exact ShardManifest.fromBytes_dumps hconsistent (by decide +kernel) hlegible.roundTrips

def httpClient : ClientNode where
  servers := [str "http://a", str "http://b"]
  transport := .http
  maxVersionBytes := 1024
  replicationFactor := 2
  shardBatchSize := 16
  clientLocality := []
  batch_pos := localClient.batch_pos
  batch_le := localClient.batch_le

/-- The shards prefer different owners. -/
def eachItsOwner (_ : Str) (index : Nat) (member : Str) (_ : MemberProfile) : List Nat :=
  member.map fun c => if index = 0 then c.val else 1000 - c.val

/-- The last batch is done first. Other bytes are in the targets before. -/
def lastFirst : ClientNode.Schedule where
  turns batches := batches.reverse.map fun batch =>
    { batch, meanwhile := fun _ => [7]
      answers := {
        endpoint := none, exchange := .failed fun _ => []
        rounds := fun index => [fun _ => {
          endpoint := none, ucxx := .failed []
          http := .response none (if index = 0 then [1, 2] else [3]) }] } }
  complete batches := by
    rw [List.map_map]
    exact (List.map_id _).symm ▸ batches.reverse_perm

theorem streamed_verified_last_first :
    let _ := asciiLibrary
    ∃ p, httpClient.downloadStreaming eachItsOwner legacyManifest none lastFirst = .ok (some p) ∧
      p.selection = .whole [1, 2, 3] ∧ p.shards.taken = [[1, 2], [3]] ∧
      hexdigest [1, 2, 3] = legacyManifest.checksum := by
  intro _
  have hdone : ((httpClient.downloadStreaming eachItsOwner legacyManifest none
      lastFirst).toOption.join.bind fun p => match p.selection with
        | .whole data => some data
        | .targets _ => none) = some [1, 2, 3] := by decide +kernel
  obtain ⟨p, hp, hdata⟩ := Option.bind_eq_some_iff.mp hdone
  have hrun : httpClient.downloadStreaming eachItsOwner legacyManifest none lastFirst =
      .ok (some p) := by
    revert hp
    generalize httpClient.downloadStreaming eachItsOwner legacyManifest none lastFirst = result
    rcases result with e | _ | q <;> simp [Except.toOption]
  have hselection : p.selection = .whole [1, 2, 3] := by
    cases hs : p.selection with
    | whole data => rw [hs] at hdata; exact congrArg _ (Option.some.inj hdata)
    | targets _ => rw [hs] at hdata; cases hdata
  obtain ⟨-, -, hwhole⟩ := httpClient.streamed_verified legacyManifest_read none (by simp)
    lastFirst hrun
  obtain ⟨htaken, -, hlegacy⟩ := hwhole _ hselection
  refine ⟨p, hrun, hselection, ?_, (hlegacy rfl).2⟩
  rw [htaken, hselection]
  rfl

end Litecast
