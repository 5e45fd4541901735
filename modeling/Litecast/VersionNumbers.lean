import Litecast.OriginFaults

/-! The version numbers an origin returns, over failing calls and restarts. -/

namespace Litecast.OriginServer

/-! ## Runs with restarts -/

inductive Event where
  | call (c : Call) (trouble : Trouble)
  | restart (maxDistributionFolders : Nat) (diskMirror : Bool) (ramCacheBytes : Nat)

/-- An origin keeps at least one version. -/
def Event.Legal : Event → Prop
  | .call .. => True
  | .restart maxDistributionFolders _ _ => 1 ≤ maxDistributionFolders

/-- An origin and the versions its calls have returned. -/
structure Publications where
  origin : OriginServer
  returned : List Str := []

section
variable [Library]

def Publications.step (p : Publications) : Event → Publications
  | .call c trouble =>
    match c.runWith p.origin trouble with
    | (.ok version, origin) => { origin, returned := p.returned ++ [version] }
    | (.error _, origin) => { p with origin }
  | .restart maxDistributionFolders diskMirror ramCacheBytes =>
    { p with origin := p.origin.restart maxDistributionFolders diskMirror ramCacheBytes }

end

/-! ## The greatest number stays on disk -/

/-- A line or a directory of this version or a later one. -/
def Reserved (s : OriginServer) (n : Nat) : Prop :=
  ∃ name, (name ∈ s.distribution.keys ∨ name ∈ s.directories.keys) ∧ n ≤ versionKey name

theorem Reserved.lt {s : OriginServer} {n : Nat} (h : s.Reserved n) : n < s.nextNumber := by
  obtain ⟨name, hname, hle⟩ := h
  refine Nat.lt_of_le_of_lt hle (versionKey_lt_nextNumber ?_)
  rw [candidates, List.mem_append, List.mem_append]
  rcases hname with hline | hdirectory
  · exact Or.inl (Or.inr hline)
  · exact Or.inr hdirectory

/-- Everything returned is numbered upwards, below what the disk reserves. -/
structure Numbered (p : Publications) : Prop where
  orderly : p.origin.Orderly
  increasing : ∃ numbers : List Nat, p.returned = numbers.map versionName ∧
    numbers.Pairwise (· < ·) ∧ ∀ n ∈ numbers, p.origin.Reserved n

theorem Steady.reserved {s t : OriginServer} (ht : t.Steady s.nextVersion) {n : Nat}
    (hn : n ≤ s.nextNumber) : t.Reserved n := by
  obtain ⟨directory, hdirectory⟩ := Option.isSome_iff_exists.mp ht.directory
  refine ⟨s.nextVersion, Or.inr (OrderedDict.mem_keys_iff.mpr ⟨directory, hdirectory⟩), ?_⟩
  rw [nextVersion, versionKey_versionName]
  exact hn

section
variable [Library]

theorem Numbered.call {p : Publications} (hp : Numbered p) (c : Call) (trouble : Trouble) :
    Numbered (p.step (.call c trouble)) := by
  obtain ⟨numbers, hreturned, hincreasing, hreserved⟩ := hp.increasing
  have hended := runWith_ended hp.orderly trouble c
  rw [Publications.step]
  generalize c.runWith p.origin trouble = outcome at hended ⊢
  cases hended with
  | untouched e t orderly lines directories =>
    refine ⟨orderly, numbers, hreturned, hincreasing, ?_⟩
    intro n hn
    obtain ⟨name, hname, hle⟩ := hreserved n hn
    exact ⟨name, by rwa [lines, directories], hle⟩
  | begun result t steady named =>
    have hkept : ∀ n ∈ numbers, t.Reserved n := fun n hn =>
      steady.reserved (hreserved n hn).lt.le
    cases result with
    | error e => exact ⟨steady.orderly, numbers, hreturned, hincreasing, hkept⟩
    | ok version =>
      obtain rfl := named version rfl
      refine ⟨steady.orderly, numbers ++ [p.origin.nextNumber], ?_, ?_, ?_⟩
      · simp only [hreturned, List.map_append, List.map_singleton]
        rfl
      · rw [List.pairwise_append]
        refine ⟨hincreasing, List.pairwise_singleton _ _, ?_⟩
        intro n hn m hm
        rw [List.mem_singleton.mp hm]
        exact (hreserved n hn).lt
      · intro n hn
        rw [List.mem_append, List.mem_singleton] at hn
        rcases hn with hn | rfl
        · exact hkept n hn
        · exact steady.reserved le_rfl

theorem Numbered.step {p : Publications} (hp : Numbered p) {event : Event} (hlegal : event.Legal) :
    Numbered (p.step event) := by
  cases event with
  | call c trouble => exact hp.call c trouble
  | restart maxDistributionFolders diskMirror ramCacheBytes =>
    exact ⟨⟨CheckpointStore.ledger_new _, CheckpointStore.every_new _, hp.orderly.inOrder, hlegal⟩,
      hp.increasing⟩

/-- **No version number is returned twice.** Whatever fails in a call, and
however often the origin is started again on its directory, the numbers returned
go up. -/
theorem returned_increasing {maxDistributionFolders : Nat} (hfolders : 1 ≤ maxDistributionFolders)
    (diskMirror : Bool) (ramCacheBytes : Nat) (events : List Event)
    (hlegal : ∀ event ∈ events, event.Legal) :
    let p := events.foldl Publications.step
      { origin := new maxDistributionFolders diskMirror ramCacheBytes }
    (∃ numbers : List Nat, p.returned = numbers.map versionName ∧ numbers.Pairwise (· < ·)) ∧
      p.returned.Nodup := by
  have hstart : Numbered { origin := new maxDistributionFolders diskMirror ramCacheBytes } :=
    ⟨orderly_new hfolders _ _, [], rfl, List.Pairwise.nil, by simp⟩
  have hrun : ∀ (events : List Event) (p : Publications), (∀ event ∈ events, event.Legal) →
      Numbered p → Numbered (events.foldl Publications.step p) := by
    intro events
    induction events with
    | nil => exact fun p _ hp => hp
    | cons event rest ih =>
      intro p hlegal hp
      rw [List.foldl_cons]
      exact ih _ (fun e he => hlegal e (List.mem_cons_of_mem _ he))
        (hp.step (hlegal event List.mem_cons_self))
  obtain ⟨numbers, hreturned, hincreasing, -⟩ := (hrun events _ hlegal hstart).increasing
  refine ⟨⟨numbers, hreturned, hincreasing⟩, ?_⟩
  rw [hreturned]
  apply List.Nodup.map _ (hincreasing.imp Nat.ne_of_lt)
  intro m n hsame
  have hkeys := congrArg versionKey hsame
  rwa [versionKey_versionName, versionKey_versionName] at hkeys

end

/-- A call that raises once its version has a directory, a restart, and two
more calls. -/
theorem returned_increasing_after_failure :
    letI := asciiLibrary
    let events : List Event := [.call (.buffer [1] 1 none) {},
      .call (.buffer [2] 1 none) { manifest := true }, .restart 1 false 4,
      .call (.buffer [3] 1 none) {}]
    (events.foldl Publications.step { origin := new 1 true 4 }).returned.Nodup := by
  let _ := asciiLibrary
  exact (returned_increasing (by decide) true 4 _ (by
    intro event hevent
    simp only [List.mem_cons, List.not_mem_nil, or_false] at hevent
    rcases hevent with rfl | rfl | rfl | rfl
    · trivial
    · trivial
    · exact Nat.le_refl 1
    · trivial)).2

end Litecast.OriginServer
