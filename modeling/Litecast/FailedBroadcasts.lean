import Litecast.VersionNumbers

/-! What a broadcast from memory that raises has changed. -/

namespace Litecast.OriginServer

/-! ## The store over a run -/

theorem Stocked.removePruned {s : OriginServer} (hs : s.Stocked) (removed : List Str) :
    (s.removePruned removed).Stocked := by
  obtain ⟨hledger, hwhole⟩ := removePruned_keeps removed hs.ledger hs.whole
  exact ⟨hledger, hwhole⟩

theorem Stocked.removePrunedWith {s : OriginServer} (hs : s.Stocked) (trouble : Trouble)
    (removed : List Str) : (s.removePrunedWith trouble removed).2.Stocked := by
  rw [OriginServer.removePrunedWith]
  cases trouble.prunedDirectory with
  | none => exact hs.removePruned removed
  | some place =>
    obtain ⟨index, left⟩ := place
    simp only
    cases removed[index]? with
    | none => exact hs.removePruned removed
    | some old =>
      simp only
      have hbefore := hs.removePruned (removed.take index)
      split_ifs
      · exact ⟨hbefore.ledger.remove old, hbefore.whole.remove old⟩
      · exact hs.removePruned removed

theorem Stocked.announceWith {s : OriginServer} (hs : s.Stocked) (trouble : Trouble)
    (version : Str) (listing : Listing) (evicted : List Str) (mirror : Bool) :
    (s.announceWith trouble version listing evicted mirror).2.Stocked := by
  rw [OriginServer.announceWith]
  generalize updateDistributionFile s.distribution version listing s.maxDistributionFolders = updated
  obtain ⟨distribution, removed⟩ := updated
  simp only
  have hlisted : Stocked { s with distribution } := ⟨hs.ledger, hs.whole⟩
  split
  · exact hs
  · exact ⟨hs.ledger, hs.whole⟩
  · split_ifs
    · exact hlisted
    · exact hlisted.removePrunedWith trouble removed
    · apply Stocked.removePrunedWith
      exact ⟨hs.ledger, hs.whole⟩

section
variable [Library]

theorem Stocked.broadcastLargeWith {s : OriginServer} (hs : s.Stocked) (trouble : Trouble)
    (data : Bytes) (shardSize : Int) :
    (s.broadcastLargeWith trouble data shardSize).2.Stocked := by
  have hensured : (s.ensureDir s.nextVersion).Stocked := by
    obtain ⟨hstore, -⟩ := ensureDir_frame s s.nextVersion
    exact ⟨hstore ▸ hs.ledger, hstore ▸ hs.whole⟩
  rw [OriginServer.broadcastLargeWith]
  generalize s.ensureDir s.nextVersion = base at hensured
  have hwritten : ∀ directory, Stocked { base with
      directories := base.directories.insert s.nextVersion directory } :=
    fun _ => ⟨hensured.ledger, hensured.whole⟩
  simp only
  split
  · exact hs
  split
  · exact hensured
  split
  · exact hensured
  generalize fileShards data shardSize _ = shards
  cases cutShards trouble shards with
  | some cut => exact hwritten _
  | none =>
    simp only
    split
    · exact hwritten _
    have hannounced := (hwritten { shards }).announceWith trouble s.nextVersion
      ⟨hexdigest data, ((data.length : Int) + shardSize - 1).fdiv shardSize⟩ [] true
    generalize OriginServer.announceWith _ trouble s.nextVersion _ _ _ = announced at hannounced ⊢
    obtain ⟨result, t⟩ := announced
    cases result with
    | error e => exact hannounced
    | ok => exact hannounced

theorem Stocked.broadcastBufferWith {s : OriginServer} (hs : s.Stocked) (trouble : Trouble)
    (buffer : Bytes) (shardSize : Int) (diskMirror : Option Bool) :
    (s.broadcastBufferWith trouble buffer shardSize diskMirror).2.Stocked := by
  have hend := broadcastBufferWith_end hs trouble buffer shardSize diskMirror
  generalize s.broadcastBufferWith trouble buffer shardSize diskMirror = outcome at hend ⊢
  cases hend with
  | refused => exact hs
  | halted _ _ _ _ _ inserted => exact ⟨inserted.stored.ledger, inserted.stored.whole⟩
  | announced _ _ _ _ _ _ inserted =>
    apply Stocked.announceWith
    exact ⟨inserted.stored.ledger, inserted.stored.whole⟩

theorem Stocked.step {p : Publications} (hp : p.origin.Stocked) (event : Event) :
    (p.step event).origin.Stocked := by
  cases event with
  | restart => exact ⟨CheckpointStore.ledger_new _, CheckpointStore.every_new _⟩
  | call c trouble =>
    have hcall : (c.runWith p.origin trouble).2.Stocked := by
      cases c with
      | buffer data shardSize diskMirror => exact hp.broadcastBufferWith _ _ _ _
      | file data shardSize =>
        cases data with
        | none => exact hp
        | some data =>
          rw [Call.runWith]
          simp only [broadcastWith]
          split_ifs
          · exact hp
          · exact hp.broadcastBufferWith _ _ _ _
          · exact hp.broadcastLargeWith _ _ _
    rw [Publications.step]
    generalize c.runWith p.origin trouble = outcome at hcall ⊢
    obtain ⟨result, origin⟩ := outcome
    cases result with
    | ok version => exact hcall
    | error e => exact hcall

theorem stocked_run (maxDistributionFolders ramCacheBytes : Nat) (mirrors : Bool)
    (events : List Event) :
    (events.foldl Publications.step
      { origin := new maxDistributionFolders mirrors ramCacheBytes }).origin.Stocked := by
  apply Runs.foldl_keeps (I := fun p : Publications => p.origin.Stocked)
  · exact fun p event hp => hp.step event
  · exact ⟨CheckpointStore.ledger_new _, CheckpointStore.every_new _⟩

end

/-! ## A call that raises -/

/-- Nothing goes wrong any more once the version is listed. -/
structure Trouble.BeforeListed (trouble : Trouble) : Prop where
  evictedLines : trouble.evictedLines = false
  prunedDirectory : trouble.prunedDirectory = none
  notification : trouble.notification = false

theorem announceWith_result {s : OriginServer} {trouble : Trouble} (h : trouble.BeforeListed)
    (version : Str) (listing : Listing) (evicted : List Str) (mirror : Bool) :
    (trouble.lines = none ∧
      (s.announceWith trouble version listing evicted mirror).1 = .ok ()) ∨
    (trouble.lines.isSome = true ∧
      (s.announceWith trouble version listing evicted mirror).1 = .error osFailed ∧
      (s.announceWith trouble version listing evicted mirror).2.store = s.store) := by
  have hlater : ¬ (mirror = false ∧ evicted ≠ [] ∧ trouble.evictedLines = true) := by
    rintro ⟨-, -, hevicted⟩
    rw [h.evictedLines] at hevicted
    cases hevicted
  rw [OriginServer.announceWith]
  cases trouble.lines with
  | none =>
    refine Or.inl ⟨rfl, ?_⟩
    simp only [if_neg hlater, OriginServer.removePrunedWith, h.prunedDirectory]
  | some torn =>
    cases torn with
    | none => exact Or.inr ⟨rfl, rfl, rfl⟩
    | some place => exact Or.inr ⟨rfl, rfl, rfl⟩

/-- What was published is what is published, and can be served as before. -/
structure Unchanged (s t : OriginServer) : Prop where
  versions : t.store.versions = s.store.versions
  size : t.store.size = s.store.size
  lines : t.distribution = s.distribution
  servable : ∀ version listing, s.Servable version listing → t.Servable version listing

section
variable [Library]

/-- The version goes into RAM, and then something goes wrong before it is
listed. -/
def FailsInserted (s : OriginServer) (trouble : Trouble) (buffer : Bytes) (shardSize : Int)
    (diskMirror : Option Bool) : Prop :=
  0 < shardSize ∧ buffer.length ≤ s.store.capacity ∧
    (s.Halts trouble buffer shardSize (diskMirror.getD s.diskMirror) ∨
      trouble.lines.isSome = true)

/-- A call that raises has changed nothing, provided it is one. -/
def RaisesUnchanged (s : OriginServer) (outcome : Outcome) : Prop :=
  ∀ e, outcome.1 = .error e → s.Unchanged outcome.2

omit [Library] in
theorem Inserted.changed {s t : OriginServer} {buffer : Bytes} {shardSize : Int} (hs : s.Stocked)
    (h : Inserted s t buffer shardSize) {u : OriginServer} (hstore : u.store = t.store) :
    ¬ s.Unchanged u := by
  intro hsame
  obtain ⟨v, hv⟩ := h.stored.added
  have hget := hv.get
  rw [← hstore, hsame.versions, hs.fresh.1] at hget
  cases hget

theorem broadcastBufferWith_unchanged_iff {s : OriginServer} (hs : s.Stocked) {trouble : Trouble}
    (hbefore : trouble.BeforeListed) (buffer : Bytes) (shardSize : Int) (diskMirror : Option Bool) :
    s.RaisesUnchanged (s.broadcastBufferWith trouble buffer shardSize diskMirror) ↔
      ¬ s.FailsInserted trouble buffer shardSize diskMirror := by
  have hend := broadcastBufferWith_end hs trouble buffer shardSize diskMirror
  rw [FailsInserted]
  generalize s.broadcastBufferWith trouble buffer shardSize diskMirror = outcome at hend ⊢
  generalize diskMirror.getD s.diskMirror = mirror at hend ⊢
  cases hend with
  | refused e bad =>
    constructor
    · rintro - ⟨hsize, hfits, -⟩
      omega
    · intro _ _ _
      exact ⟨rfl, rfl, rfl, fun _ _ h => h⟩
  | halted e t size fits halts inserted =>
    constructor
    · intro hraises
      exact absurd (hraises e rfl) (inserted.changed hs rfl)
    · intro hnot
      exact absurd ⟨size, fits, Or.inl halts⟩ hnot
  | announced t directory result size fits spared inserted written files told =>
    rcases announceWith_result (s := t) hbefore s.nextVersion (bufferListing buffer shardSize)
      (capacityEvictions s.store t.store) mirror with
      ⟨hlines, hok⟩ | ⟨hlines, herror, hstore⟩
    · -- the call returns
      have hreturned : result = .ok s.nextVersion := by
        rcases told with ⟨hresult, -⟩ | ⟨-, hnotified | ⟨e, hfailed⟩⟩
        · exact hresult
        · rw [hbefore.notification] at hnotified
          cases hnotified
        · rw [hok] at hfailed
          cases hfailed
      constructor
      · rintro - ⟨-, -, hhalts | hsome⟩
        · exact spared hhalts
        · rw [hlines] at hsome
          cases hsome
      · intro _ e he
        rw [hreturned] at he
        cases he
    · have hraised : ∃ e, result = .error e := by
        rcases told with ⟨-, -, hreturned⟩ | ⟨hraised, -⟩
        · rw [herror] at hreturned
          cases hreturned
        · exact hraised
      obtain ⟨e, he⟩ := hraised
      constructor
      · intro hraises
        exact absurd (hraises e he) (inserted.changed hs hstore)
      · intro hnot
        exact absurd ⟨size, fits, Or.inr hlines⟩ hnot

/-- **A failed broadcast changes nothing unless its version is in RAM.** After
any run, a call that raises before its version is listed leaves the versions,
the bytes counted for them and the distribution file as they were exactly when
nothing goes wrong between the insertion into RAM and the listing. -/
theorem failed_unchanged_iff (maxDistributionFolders ramCacheBytes : Nat) (mirrors : Bool)
    (events : List Event) {trouble : Trouble} (hbefore : trouble.BeforeListed) (buffer : Bytes)
    (shardSize : Int) (diskMirror : Option Bool) :
    let s := (events.foldl Publications.step
      { origin := new maxDistributionFolders mirrors ramCacheBytes }).origin
    s.RaisesUnchanged (s.broadcastBufferWith trouble buffer shardSize diskMirror) ↔
      ¬ s.FailsInserted trouble buffer shardSize diskMirror := by
  apply broadcastBufferWith_unchanged_iff _ hbefore
  exact stocked_run maxDistributionFolders ramCacheBytes mirrors events

end

/-- RAM has room for a second byte, whose manifest cannot be written: three bytes
more are refused before they are in RAM, the one byte stays there unlisted. -/
theorem failed_unchanged_iff_second_byte :
    letI := asciiLibrary
    let s := ([.call (.buffer [97] 1 (some false)) {}].foldl Publications.step
      { origin := new 5 true 2 }).origin
    (∃ e, (s.broadcastBufferWith { manifest := true } [98, 99, 100] 1 none).1 = .error e) ∧
      s.RaisesUnchanged (s.broadcastBufferWith { manifest := true } [98, 99, 100] 1 none) ∧
      ¬ s.RaisesUnchanged (s.broadcastBufferWith { manifest := true } [98] 1 none) := by
  let _ := asciiLibrary
  intro s
  have hcapacity : s.store.capacity = 2 := by decide +kernel
  have hraises : (s.broadcastBufferWith { manifest := true } [98, 99, 100] 1 none).1.toOption =
      none := by decide +kernel
  have hbefore : Trouble.BeforeListed { manifest := true } := ⟨rfl, rfl, rfl⟩
  have hiff (buffer : Bytes) :
      s.RaisesUnchanged (s.broadcastBufferWith { manifest := true } buffer 1 none) ↔
        ¬ s.FailsInserted { manifest := true } buffer 1 none :=
    failed_unchanged_iff 5 2 true _ hbefore buffer 1 none
  refine ⟨?_, ?_, ?_⟩
  · cases hend : (s.broadcastBufferWith { manifest := true } [98, 99, 100] 1 none).1 with
    | error e => exact ⟨e, rfl⟩
    | ok version =>
      rw [hend] at hraises
      cases hraises
  · rw [hiff]
    rintro ⟨-, hfits, -⟩
    exact absurd (hcapacity ▸ hfits) (by decide)
  · rw [hiff, not_not]
    exact ⟨by decide, hcapacity ▸ by decide, Or.inl (Or.inr (Or.inr (Or.inl rfl)))⟩

/-- With room for one byte the first version leaves RAM, though the second is
never listed. -/
theorem unlisted_version_evicts :
    letI := asciiLibrary
    ¬ ∀ (maxDistributionFolders ramCacheBytes : Nat) (mirrors : Bool) (events : List Event)
      (trouble : Trouble), trouble.BeforeListed →
        ∀ (buffer : Bytes) (shardSize : Int) (diskMirror : Option Bool),
          let s := (events.foldl Publications.step
            { origin := new maxDistributionFolders mirrors ramCacheBytes }).origin
          s.RaisesUnchanged (s.broadcastBufferWith trouble buffer shardSize diskMirror) := by
  intro claim
  let _ := asciiLibrary
  let first : Event := .call (.buffer [97] 1 (some false)) {}
  let s := ([first].foldl Publications.step { origin := new 5 true 1 }).origin
  let outcome := s.broadcastBufferWith { directory := true } [98] 1 none
  obtain ⟨hheld, hraised, hgone⟩ : s.store.versions.contains (str "v1") = true ∧
      outcome.1 = .error osFailed ∧ outcome.2.store.versions.contains (str "v1") = false := by
    decide +kernel
  have hunchanged : s.Unchanged outcome.2 :=
    claim 5 1 true [first] { directory := true } ⟨rfl, rfl, rfl⟩ [98] 1 none osFailed hraised
  rw [hunchanged.versions, hheld] at hgone
  cases hgone

end Litecast.OriginServer
