import Litecast.OriginSteps

/-! Whether an origin can serve what its distribution file lists. -/

namespace Litecast.OriginServer

/-! ## Servable versions -/

/-- All shard files of the listed version are on disk. -/
def OnDisk (s : OriginServer) (version : Str) (listing : Listing) : Prop :=
  ∃ directory, s.directories.get? version = some directory ∧
    ∀ index : Nat, index < listing.numShards → directory.shards.contains index = true

/-- The store holds the version in full, or the disk does. -/
def Servable (s : OriginServer) (version : Str) (listing : Listing) : Prop :=
  (∃ v, s.store.versions.get? version = some v ∧ v.data.isSome = true) ∨ s.OnDisk version listing

/-- Everything the distribution file lists can be served in full. -/
def AllServable (s : OriginServer) : Prop :=
  ∀ version listing, s.distribution.get? version = some listing → s.Servable version listing

/-! ## Calls -/

inductive Call where
  | buffer (data : Bytes) (shardSize : Int) (diskMirror : Option Bool)
  | file (data : Option Bytes) (shardSize : Int)

def Call.run [Library] (s : OriginServer) : Call → Outcome
  | .buffer data shardSize diskMirror => s.broadcastBuffer data shardSize diskMirror
  | .file data shardSize => s.broadcast data shardSize

def call [Library] (s : OriginServer) (c : Call) : OriginServer := (c.run s).2

/-- What a call stores in RAM, and whether it mirrors it. -/
def Call.inRam (s : OriginServer) : Call → Option (Bytes × Int × Bool)
  | .buffer data shardSize diskMirror => some (data, shardSize, diskMirror.getD s.diskMirror)
  | .file none _ => none
  | .file (some data) shardSize =>
    if data.length ≤ s.store.capacity then some (data, shardSize, true) else none

/-! ## One call -/

theorem OnDisk.of_same {s t : OriginServer} {version : Str} {listing : Listing}
    (h : s.OnDisk version listing)
    (hsame : t.directories.get? version = s.directories.get? version) : t.OnDisk version listing := by
  obtain ⟨directory, hdirectory, hshards⟩ := h
  exact ⟨directory, hsame.trans hdirectory, hshards⟩

theorem Filed.onDisk [Library] {s t : OriginServer} {data : Bytes} {shardSize : Int}
    (h : Filed s t data shardSize) :
    t.OnDisk s.nextVersion ⟨hexdigest data, fileShardCount data shardSize⟩ := by
  obtain ⟨directory, hdirectory, hshards⟩ := h.files
  refine ⟨directory, hdirectory, fun index hindex => ?_⟩
  simp only at hindex
  rw [hshards, OrderedDict.contains, get?_fileShards, if_pos (by omega)]
  rfl

/-- A line that is there was there, unless it is the new version's. -/
theorem Broadcasted.line_before {s t : OriginServer} {version : Str} {evicts drops : Str → Prop}
    (h : Broadcasted s t version evicts drops) {name : Str} {listing : Listing}
    (hne : name ≠ version) (hline : t.distribution.get? name = some listing) :
    ¬ drops name ∧ s.distribution.get? name = some listing := by
  have hkept : ¬ drops name := by
    intro hdrops
    rw [h.lineGone name hne hdrops] at hline
    cases hline
  exact ⟨hkept, by rw [← h.lineKept name hne hkept, hline]⟩

theorem Broadcasted.keeps {s t : OriginServer} {version : Str} {evicts drops : Str → Prop}
    (h : Broadcasted s t version evicts drops) {name : Str} {listing : Listing}
    (hne : name ≠ version) (hline : t.distribution.get? name = some listing)
    (hservable : s.Servable name listing)
    (hdisk : evicts name → ¬ drops name → s.OnDisk name listing) : t.Servable name listing := by
  obtain ⟨hkept, -⟩ := h.line_before hne hline
  have hfolder := h.directoryKept name hne hkept
  by_cases hevicted : evicts name
  · refine Or.inr ?_
    rw [OnDisk, hfolder]
    exact hdisk hevicted hkept
  · rw [Servable, OnDisk, h.storeKept name hne hevicted, hfolder]
    exact hservable

section
variable [Library]

/-- The call pushes out of RAM a version that stays listed and is not on disk:
nothing but a call that returns and does not mirror takes its line out, and a
call that returns those of the oldest. -/
def Strands (s : OriginServer) (c : Call) : Prop :=
  ∃ data shardSize mirror, c.inRam s = some (data, shardSize, mirror) ∧ 0 < shardSize ∧
    data.length ≤ s.store.capacity ∧
    (s.ManifestFits data shardSize → mirror = true) ∧
    ∃ version listing, s.distribution.get? version = some listing ∧
      s.Evicts data.length version ∧ ¬ s.OnDisk version listing ∧
      (s.ManifestFits data shardSize → ¬ s.Prunes version)

/-- A call goes through RAM, or to disk only, or stops before either. -/
inductive CallCase (s : OriginServer) (c : Call) : Prop where
  | ram (data : Bytes) (shardSize : Int) (mirror : Bool)
      (through : c.inRam s = some (data, shardSize, mirror))
      (ends : BufferCase s data shardSize mirror (c.run s))
  | disk (data : Bytes) (shardSize : Int) (given : c = .file (some data) shardSize)
      (nonzero : shardSize ≠ 0) (aside : c.inRam s = none) (returned : (c.run s).1 = .ok s.nextVersion)
      (filed : Filed s (s.call c) data shardSize)
  | stopped (aside : c.inRam s = none) (raised : ∃ e, (c.run s).1 = .error e)
      (orderly : (s.call c).Orderly)
      (store : (s.call c).store = s.store) (lines : (s.call c).distribution = s.distribution)
      (directories : ∀ name, name ≠ s.nextVersion →
        (s.call c).directories.get? name = s.directories.get? name)
      (folders : (s.call c).maxDistributionFolders = s.maxDistributionFolders)

theorem call_case {s : OriginServer} (hs : s.Orderly) (c : Call) : CallCase s c := by
  cases c with
  | buffer data shardSize diskMirror =>
    exact .ram data shardSize _ rfl (broadcastBuffer_case hs data shardSize diskMirror)
  | file data shardSize =>
    cases data with
    | none => exact .stopped rfl ⟨_, rfl⟩ hs rfl rfl (fun _ _ => rfl) rfl
    | some data =>
      by_cases hfits : data.length ≤ s.store.capacity
      · refine .ram data shardSize true (if_pos hfits) ?_
        rw [Call.run, broadcast, if_pos hfits]
        exact broadcastBuffer_case hs data shardSize (some true)
      · have hrun : Call.run s (.file (some data) shardSize) = s.broadcastLarge data shardSize := by
          rw [Call.run, broadcast, if_neg hfits]
        have hcall : s.call (.file (some data) shardSize) = (s.broadcastLarge data shardSize).2 := by
          rw [call, hrun]
        by_cases hzero : shardSize = 0
        · obtain ⟨hstore, hlines, hfolders, -, hdirectories⟩ := s.ensureDir_frame s.nextVersion
          rw [broadcastLarge, if_pos hzero] at hcall hrun
          refine .stopped (if_neg hfits) ⟨_, by rw [hrun]⟩ ?_ ?_ ?_ ?_ ?_ <;> rw [hcall]
          · exact hs.ensureDir s.nextVersion
          · exact hstore
          · exact hlines
          · exact hdirectories
          · exact hfolders
        · obtain ⟨hreturned, hfiled⟩ := broadcastLarge_filed hs data hzero
          exact .disk data shardSize rfl hzero (if_neg hfits) (hrun ▸ hreturned) (hcall ▸ hfiled)

theorem call_orderly {s : OriginServer} (hs : s.Orderly) (c : Call) : (s.call c).Orderly := by
  cases call_case hs c with
  | ram data shardSize mirror through ends =>
    rw [call]
    generalize c.run s = outcome at ends ⊢
    cases ends with
    | refused => exact hs
    | halted _ _ _ _ _ _ _ rest => exact rest.orderly
    | published _ _ _ _ _ _ rest => exact rest.orderly
  | disk _ _ _ _ _ _ filed => exact filed.rest.orderly
  | stopped _ _ orderly => exact orderly

theorem call_folders {s : OriginServer} (hs : s.Orderly) (c : Call) :
    (s.call c).maxDistributionFolders = s.maxDistributionFolders := by
  cases call_case hs c with
  | ram data shardSize mirror through ends =>
    rw [call]
    generalize c.run s = outcome at ends ⊢
    cases ends with
    | refused => rfl
    | halted _ _ _ _ _ _ _ rest => exact rest.maxDistributionFolders
    | published _ _ _ _ _ _ rest => exact rest.maxDistributionFolders
  | disk _ _ _ _ _ _ filed => exact filed.rest.maxDistributionFolders
  | stopped _ _ _ _ _ _ folders => exact folders

theorem call_servable {s : OriginServer} (hs : s.Orderly) (hall : s.AllServable) {c : Call}
    (hok : ¬ s.Strands c) : (s.call c).AllServable := by
  have hold : ∀ {t : OriginServer} {evicts drops : Str → Prop} {name : Str} {listing : Listing},
      Broadcasted s t s.nextVersion evicts drops → name ≠ s.nextVersion →
      t.distribution.get? name = some listing →
      (s.distribution.get? name = some listing → evicts name → ¬ drops name →
        s.OnDisk name listing) → t.Servable name listing := by
    intro t evicts drops name listing hrest hne hline hdisk
    obtain ⟨-, hbefore⟩ := hrest.line_before hne hline
    exact hrest.keeps hne hline (hall name listing hbefore) (hdisk hbefore)
  intro version listing hline
  cases call_case hs c with
  | ram data shardSize mirror through ends =>
    rw [call] at hline ⊢
    generalize c.run s = outcome at ends hline ⊢
    cases ends with
    | refused => exact hall version listing hline
    | halted _ _ size fits large _ line rest =>
      refine hold rest ?_ hline ?_
      · rintro rfl
        rw [line] at hline
        cases hline
      · intro hbefore hevicted _
        by_contra hgone
        exact hok ⟨data, shardSize, mirror, through, size, fits, fun h => absurd h large, version,
          listing, hbefore, hevicted, hgone, fun h => absurd h large⟩
    | published _ size fits written held _ rest =>
      by_cases hne : version = s.nextVersion
      · obtain ⟨v, hv⟩ := held
        exact Or.inl ⟨v, hne ▸ hv.get, (rest.orderly.whole _ v hv.get).2⟩
      · refine hold rest hne hline ?_
        intro hbefore hevicted hkept
        rw [not_or, not_and] at hkept
        have hram := hevicted.resolve_right hkept.1
        by_contra hgone
        refine hok ⟨data, shardSize, mirror, through, size, fits, fun _ => ?_, version, listing,
          hbefore, hram, hgone, fun _ => hkept.1⟩
        by_contra hmirror
        exact hkept.2 (by simpa using hmirror) hram
  | disk data shardSize _ _ _ _ filed =>
    by_cases hne : version = s.nextVersion
    · subst hne
      rw [filed.line] at hline
      obtain rfl := Option.some.inj hline
      exact Or.inr filed.onDisk
    · exact hold filed.rest hne hline fun _ hpruned hkept => absurd hpruned hkept
  | stopped _ _ _ store lines directories =>
    rw [lines] at hline
    have hne : version ≠ s.nextVersion := by
      rintro rfl
      rw [hs.stocked.fresh.2.1] at hline
      cases hline
    rw [Servable, OnDisk, store, directories version hne]
    exact hall version listing hline

theorem stranding_breaks {s : OriginServer} (hs : s.Orderly) {c : Call} (h : s.Strands c) :
    ¬ (s.call c).AllServable := by
  obtain ⟨data, shardSize, mirror, through, size, fits, hmirror, version, listing, hline, hevicted,
    hdisk, hpruned⟩ := h
  have hne : version ≠ s.nextVersion := by
    rintro rfl
    rw [hs.stocked.fresh.2.1] at hline
    cases hline
  -- its line and its directory stay, and RAM has lost it
  have hbroken : ∀ {t : OriginServer} {evicts drops : Str → Prop},
      Broadcasted s t s.nextVersion evicts drops → evicts version → ¬ drops version →
        ¬ t.AllServable := by
    intro t evicts drops hrest hgone hkept hall
    have hline' := hrest.lineKept version hne hkept
    rw [hline] at hline'
    rcases hall version listing hline' with ⟨v, hv, -⟩ | hondisk
    · rw [hrest.storeGone version hne hgone] at hv
      cases hv
    · rw [OnDisk, hrest.directoryKept version hne hkept] at hondisk
      exact hdisk hondisk
  cases call_case hs c with
  | ram data' shardSize' mirror' through' ends =>
    obtain ⟨rfl, rfl, rfl⟩ : data = data' ∧ shardSize = shardSize' ∧ mirror = mirror' := by
      rw [through] at through'
      simpa using through'
    rw [call]
    generalize c.run s = outcome at ends ⊢
    cases ends with
    | refused _ bad =>
      rcases bad with hbad | hbad
      · omega
      · omega
    | halted _ _ _ _ _ _ _ rest => exact hbroken rest hevicted id
    | published _ _ _ written _ _ rest =>
      refine hbroken rest (Or.inl hevicted) ?_
      rintro (hp | ⟨hoff, -⟩)
      · exact hpruned written hp
      · rw [hmirror written] at hoff
        cases hoff
  | disk _ _ _ _ aside => rw [through] at aside; cases aside
  | stopped aside => rw [through] at aside; cases aside

/-- After every call that returns, all listed versions can be served. -/
def ServesListed (s : OriginServer) (calls : List Call) : Prop :=
  ∀ before c after, calls = before ++ c :: after → ∀ version,
    (c.run (before.foldl call s)).1 = .ok version →
      (call (before.foldl call s) c).AllServable

/-- **What is listed can be served unless a version is stranded.** In a run of
broadcasts from memory and of files, mirrored and not, every listed version can
be served in full after each call, returned or raised, exactly when no call
pushes a listed version that is not on disk out of RAM and leaves its line; so
then after each call that returns. -/
theorem servable_iff_never_stranded (ramCacheBytes maxDistributionFolders : Nat)
    (hfolders : 1 ≤ maxDistributionFolders) (diskMirror : Bool) (calls : List Call) :
    (Runs.Always call AllServable (new maxDistributionFolders diskMirror ramCacheBytes) calls ↔
      Runs.EveryStep call (fun s c => ¬ s.Strands c)
        (new maxDistributionFolders diskMirror ramCacheBytes) calls) ∧
    (Runs.EveryStep call (fun s c => ¬ s.Strands c)
        (new maxDistributionFolders diskMirror ramCacheBytes) calls →
      ServesListed (new maxDistributionFolders diskMirror ramCacheBytes) calls) := by
  have hiff : Runs.Always call AllServable
      (new maxDistributionFolders diskMirror ramCacheBytes) calls ↔
        Runs.EveryStep call (fun s c => ¬ s.Strands c)
          (new maxDistributionFolders diskMirror ramCacheBytes) calls := by
    have hlegal : ∀ c ∈ calls, (fun _ : Call => True) c := fun _ _ => trivial
    refine Runs.always_iff_everyStep (fun s => s.Orderly ∧ s.AllServable) ?_ ?_ ?_
      ⟨orderly_new hfolders _ _, ?_⟩ hlegal
    · exact fun s c hs _ hok => ⟨call_orderly hs.1 c, call_servable hs.1 hs.2 hok⟩
    · exact fun s hs => hs.2
    · exact fun s c hs _ hnot => stranding_breaks hs.1 (Classical.not_not.mp hnot)
    · intro version listing hline
      cases hline
  refine ⟨hiff, ?_⟩
  rintro hsteps before c after rfl version -
  have halways := hiff.mpr hsteps
  rw [List.append_cons] at halways
  have hhere := halways.here
  rwa [List.foldl_append] at hhere

end

/-- The second version takes the place of the first in RAM, which is on disk. -/
theorem servable_iff_never_stranded_two_calls :
    letI := asciiLibrary
    let calls : List Call := [.buffer [97] 1 (some true), .buffer [98, 99] 1 (some true)]
    Runs.Always call AllServable (new 2 true 2) calls ∧ ServesListed (new 2 true 2) calls ∧
      (calls.foldl call (new 2 true 2)).distribution.keys = [str "v1", str "v2"] ∧
      (calls.foldl call (new 2 true 2)).store.versions.keys = [str "v2"] := by
  let _ := asciiLibrary
  intro calls
  let first : Call := .buffer [97] 1 (some true)
  have hfirst : ¬ (new 2 true 2).Strands first := by
    rintro ⟨data, shardSize, mirror, -, -, -, -, version, listing, hlisted, -⟩
    cases hlisted
  have hsecond : ¬ (call (new 2 true 2) first).Strands (.buffer [98, 99] 1 (some true)) := by
    obtain ⟨hlines, hdisk⟩ : (call (new 2 true 2) first).distribution.entries =
          [(str "v1", ⟨hexdigest [97], 1⟩)] ∧
        (((call (new 2 true 2) first).directories.get? (str "v1")).any
          fun d => d.shards.contains 0) = true := by
      decide +kernel
    generalize call (new 2 true 2) first = s at hlines hdisk
    rintro ⟨data, shardSize, mirror, -, -, -, -, version, listing, hlisted, -, hmissing, -⟩
    have hentry := OrderedDict.get?_eq_some_iff.mp hlisted
    rw [hlines, List.mem_singleton] at hentry
    obtain ⟨rfl, rfl⟩ := Prod.mk.inj hentry
    obtain ⟨directory, hdirectory, hshard⟩ := (Option.any_eq_true _ _).mp hdisk
    refine hmissing ⟨directory, hdirectory, fun index hindex => ?_⟩
    obtain rfl : index = 0 := by simpa using hindex
    exact hshard
  obtain ⟨hiff, hserves⟩ := servable_iff_never_stranded 2 2 (by decide) true calls
  have hsteps : Runs.EveryStep call (fun s c => ¬ s.Strands c) (new 2 true 2) calls :=
    ⟨hfirst, hsecond, trivial⟩
  exact ⟨hiff.mpr hsteps, hserves hsteps, by decide +kernel, by decide +kernel⟩

/-- A byte held in RAM only, pushed out by one that is mirrored. -/
theorem mirrored_call_strands :
    letI := asciiLibrary
    ¬ ∀ (ramCacheBytes maxDistributionFolders : Nat) (diskMirror : Bool) (calls : List Call),
      1 ≤ maxDistributionFolders →
        ServesListed (new maxDistributionFolders diskMirror ramCacheBytes) calls := by
  intro claim
  let _ := asciiLibrary
  let first : Call := .buffer [97] 1 (some false)
  let second : Call := .buffer [98] 1 (some true)
  obtain ⟨hreturned, hlisted, hram, hdisk⟩ :
      (second.run ([first].foldl call (new 5 true 1))).1 = .ok (str "v2") ∧
      (call ([first].foldl call (new 5 true 1)) second).distribution.get? (str "v1") =
        some ⟨hexdigest [97], 1⟩ ∧
      (call ([first].foldl call (new 5 true 1)) second).store.versions.contains (str "v1") =
        false ∧
      (((call ([first].foldl call (new 5 true 1)) second).directories.get? (str "v1")).all
        fun d => !d.shards.contains 0) = true := by
    decide +kernel
  have hall : (call ([first].foldl call (new 5 true 1)) second).AllServable :=
    claim 1 5 true [first, second] (by decide) [first] second [] rfl _ hreturned
  generalize call ([first].foldl call (new 5 true 1)) second = s at hall hlisted hram hdisk
  rcases hall _ _ hlisted with ⟨v, hv, -⟩ | ⟨directory, hdirectory, hfull⟩
  · rw [OrderedDict.contains, hv] at hram
    cases hram
  · rw [hdirectory, Option.all_some, hfull 0 (by decide)] at hdisk
    cases hdisk

end Litecast.OriginServer
