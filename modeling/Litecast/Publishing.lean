import Litecast.OriginSteps
import Litecast.PublisherLease

/-! `Publisher.publish` and `Publisher.refresh` one call after the other: what
a publisher advertises, the source of each publication and the versions its
origin still has. -/

namespace Litecast.Publishing

/-- `hashlib.sha256` -/
class Sha256 where
  sha256 : Bytes → Digest

structure Config extends Lease.Config where
  maxAdapterBytes : Nat
  shardBytes : Int

structure Publisher where
  publications : List Publication := []
  /-- The version registered for each digest. -/
  sources : OrderedDict Str Str := .empty
  origin : OriginServer
  fenced : Bool := false

def Publisher.new (config : Config) : Publisher where
  origin := .new config.retainVersions true (config.maxAdapterBytes * config.retainVersions)

/-! ## Refreshing -/

/-- How one `refresh` goes: what the script answers, and the exception after so
many sources, if any. -/
structure Attempt where
  script : Except Exc Bool
  broken : Option (Nat × Exc) := none

/-- The loop of `refresh` over the first sources: those of versions the origin
no longer has are taken out. -/
def Publisher.sweep (s : Publisher) (count : Nat) : Publisher :=
  let gone (source : Str × Str) : Bool := !s.origin.store.versions.contains source.2
  let withdrawn := ((s.sources.entries.take count).filter gone).map Prod.fst
  { s with sources := withdrawn.foldl OrderedDict.erase s.sources }

def Publisher.refresh (s : Publisher) (attempt : Attempt) : Except Exc Unit × Publisher :=
  match attempt.script with
  | .error e => (.error e, s)
  | .ok false =>
    (.error ⟨.runtimeError, str "publisher lease belongs to another controller"⟩,
      { s with fenced := true })
  | .ok true =>
    match attempt.broken with
    | none => (.ok (), s.sweep s.sources.length)
    | some (count, e) => (.error e, s.sweep count)

/-- `registry_retry(self.refresh)`; the attempts end with the time allowed. -/
def Publisher.retryRefresh (s : Publisher) : List Attempt → Except Exc Unit × Publisher
  | [] => (.error ⟨.timeoutError, []⟩, s)
  | attempt :: rest =>
    match s.refresh attempt with
    | (.ok (), s) => (.ok (), s)
    | (.error e, s) =>
      if e.cls.isOSError ∨ e.cls = .redisError then s.retryRefresh rest else (.error e, s)

/-- Refreshes of the heartbeat, which logs what they raise. -/
def Publisher.beats (s : Publisher) (attempts : List Attempt) : Publisher :=
  attempts.foldl (fun s attempt => (s.refresh attempt).2) s

/-! ## Publishing -/

/-- A call of `publish`, with what it waits for: the packed adapter, the end of
the registration with all its retries, of the old source's withdrawal, and the
attempts at refreshing. The heartbeat goes on while it packs and, up to the
lock, while it broadcasts. -/
structure Publish where
  step : Int
  packed : Except Exc Bytes
  packing : List Attempt := []
  broadcasting : List Attempt := []
  registered : Except Exc Unit
  deregistered : Except Exc Unit
  attempts : List Attempt

section
variable [Sha256]

def digestOf (payload : Bytes) : Str := (Sha256.sha256 payload).hex

/-- The `Publication` of a payload. -/
def publicationOf (config : Config) (call : Publish) (payload : Bytes) :
    Except Exc Publication :=
  Publication.make config.runId (.str config.baseModel) call.step (digestOf payload) payload.length

/-- The registered source of a new publication, and the publication. -/
def Publisher.advertise (config : Config) (s : Publisher) (publication : Publication)
    (version : Str) : Publisher :=
  { s with
    sources := s.sources.insert publication.digest version
    publications := Lease.announced config.retainVersions s.publications publication }

/-- `publish` inside the lock and after it. -/
def Publisher.register (config : Config) (s : Publisher) (call : Publish)
    (publication : Publication) (version : Str) : Except Exc Publication × Publisher :=
  match call.registered with
  | .error e => (.error e, s)
  | .ok () =>
    match if s.sources.contains publication.digest then call.deregistered else .ok () with
    | .error e => (.error e, s)
    | .ok () =>
      match (s.advertise config publication version).retryRefresh call.attempts with
      | (.error e, s) => (.error e, s)
      | (.ok (), s) => (.ok publication, s)

variable [Library]

/-- The broadcast, and the heartbeat meanwhile. -/
def Publisher.broadcast (config : Config) (s : Publisher) (call : Publish) (payload : Bytes) :
    Except Exc Str × Publisher :=
  let (result, origin) := s.origin.broadcastBuffer payload config.shardBytes (some false)
  (result, { s with origin }.beats call.broadcasting)

/-- `publish` with a payload newer than all advertised. -/
def Publisher.advance (config : Config) (s : Publisher) (call : Publish) (payload : Bytes) :
    Except Exc Publication × Publisher :=
  match s.broadcast config call payload with
  | (.error e, s) => (.error e, s)
  | (.ok version, s) =>
    match publicationOf config call payload with
    | .error e => (.error e, s)
    | .ok publication => s.register config call publication version

def Publisher.publish (config : Config) (s : Publisher) (call : Publish) :
    Except Exc Publication × Publisher :=
  if s.fenced then
    (.error ⟨.runtimeError, str "publisher was replaced by another controller"⟩, s)
  else
    let s := s.beats call.packing
    match call.packed with
    | .error e => (.error e, s)
    | .ok payload =>
      match s.publications.getLast? with
      | none => s.advance config call payload
      | some previous =>
        if call.step ≤ previous.step then
          if call.step = previous.step ∧ digestOf payload = previous.digest then
            (.ok previous, s)
          else
            (.error ⟨.valueError, str "adapter steps must increase; use a new run_id when " ++
              str "restarting from older weights"⟩, s)
        else s.advance config call payload

end

/-! ## Runs -/

inductive Action where
  | publish (call : Publish)
  | heartbeat (attempt : Attempt)

def act [Sha256] [Library] (config : Config) (s : Publisher) : Action → Publisher
  | .publish call => (s.publish config call).2
  | .heartbeat attempt => (s.refresh attempt).2

/-- The digest has a source, and the origin its version. -/
def Sourced (s : Publisher) (digest : Str) : Prop :=
  ∃ version, s.sources.get? digest = some version ∧
    s.origin.store.versions.contains version = true

/-- Each publication has a source the origin can serve. -/
def Backed (s : Publisher) : Prop :=
  ∀ publication ∈ s.publications, Sourced s publication.digest

/-! ## Sweeping -/

/-- All that refreshing changes: sources of versions the origin no longer has. -/
structure Swept (s t : Publisher) : Prop where
  publications : t.publications = s.publications
  origin : t.origin = s.origin
  fewer : ∀ digest version, t.sources.get? digest = some version →
    s.sources.get? digest = some version
  kept : ∀ digest version, s.sources.get? digest = some version →
    s.origin.store.versions.contains version = true → t.sources.get? digest = some version

theorem Swept.refl (s : Publisher) : Swept s s := ⟨rfl, rfl, fun _ _ h => h, fun _ _ h _ => h⟩

theorem Swept.trans {s t u : Publisher} (h : Swept s t) (h' : Swept t u) : Swept s u := by
  refine ⟨h'.publications.trans h.publications, h'.origin.trans h.origin, ?_, ?_⟩
  · exact fun digest version hu => h.fewer digest version (h'.fewer digest version hu)
  · intro digest version hs hversion
    apply h'.kept digest version (h.kept digest version hs hversion)
    rw [h.origin]
    exact hversion

theorem Swept.sourced_iff {s t : Publisher} (h : Swept s t) (digest : Str) :
    Sourced t digest ↔ Sourced s digest := by
  rw [Sourced, Sourced, h.origin]
  constructor
  · rintro ⟨version, hget, hversion⟩
    exact ⟨version, h.fewer _ _ hget, hversion⟩
  · rintro ⟨version, hget, hversion⟩
    exact ⟨version, h.kept _ _ hget hversion, hversion⟩

theorem Swept.backed_iff {s t : Publisher} (h : Swept s t) : Backed t ↔ Backed s := by
  simp only [Backed, h.publications, h.sourced_iff]

theorem sweep_swept (s : Publisher) (count : Nat) : Swept s (s.sweep count) := by
  refine ⟨rfl, rfl, ?_, ?_⟩
  · intro digest version hget
    rw [Publisher.sweep] at hget
    by_cases hwithdrawn : digest ∈ ((s.sources.entries.take count).filter fun source =>
        !s.origin.store.versions.contains source.2).map Prod.fst
    · rw [OrderedDict.get?_foldl_erase_of_mem hwithdrawn] at hget
      cases hget
    · rwa [OrderedDict.get?_foldl_erase_of_not_mem hwithdrawn] at hget
  · intro digest version hget hversion
    rw [Publisher.sweep]
    refine (OrderedDict.get?_foldl_erase_of_not_mem ?_ _).trans hget
    -- the only source of the digest is that of a version which is there
    intro hwithdrawn
    obtain ⟨⟨digest', version'⟩, hmem, rfl⟩ := List.mem_map.mp hwithdrawn
    obtain ⟨htaken, hgone⟩ := List.mem_filter.mp hmem
    have hentry := OrderedDict.get?_eq_some_iff.mpr (List.mem_of_mem_take htaken)
    rw [hget] at hentry
    obtain rfl := Option.some.inj hentry
    simp only [hversion, Bool.not_true, Bool.false_eq_true] at hgone

theorem refresh_swept (s : Publisher) (attempt : Attempt) : Swept s (s.refresh attempt).2 := by
  rw [Publisher.refresh]
  split
  · exact .refl s
  · exact ⟨rfl, rfl, fun _ _ h => h, fun _ _ h _ => h⟩
  · split
    · exact sweep_swept s _
    · exact sweep_swept s _

theorem beats_swept (s : Publisher) (attempts : List Attempt) : Swept s (s.beats attempts) := by
  induction attempts generalizing s with
  | nil => exact .refl s
  | cons attempt rest ih => exact (refresh_swept s attempt).trans (ih _)

theorem retryRefresh_swept (s : Publisher) (attempts : List Attempt) :
    Swept s (s.retryRefresh attempts).2 := by
  induction attempts generalizing s with
  | nil => exact .refl s
  | cons attempt rest ih =>
    have hfirst := refresh_swept s attempt
    rw [Publisher.retryRefresh]
    generalize s.refresh attempt = outcome at hfirst ⊢
    obtain ⟨result, t⟩ := outcome
    cases result with
    | ok => exact hfirst
    | error e =>
      simp only
      split_ifs
      · exact hfirst.trans (ih t)
      · exact hfirst

/-! ## One call -/

/-- A source stays one while the broadcast leaves its version in RAM. -/
theorem sourced_of_broadcasted {s : Publisher} (hs : s.origin.Orderly) {origin : OriginServer}
    {evicts drops : Str → Prop}
    (h : OriginServer.Broadcasted s.origin origin s.origin.nextVersion evicts drops)
    {digest version : Str} (hget : s.sources.get? digest = some version)
    (hversion : s.origin.store.versions.contains version = true) :
    Sourced { s with origin } digest ↔ ¬ evicts version := by
  have hne : version ≠ s.origin.nextVersion := by
    rintro rfl
    rw [OrderedDict.contains, hs.stocked.fresh.1] at hversion
    cases hversion
  constructor
  · rintro ⟨version', hget', hversion'⟩ hevicts
    simp only at hget'
    rw [hget] at hget'
    obtain rfl := Option.some.inj hget'
    simp only [OrderedDict.contains, h.storeGone version hne hevicts] at hversion'
    cases hversion'
  · intro hkept
    refine ⟨version, hget, ?_⟩
    simp only [OrderedDict.contains, h.storeKept version hne hkept]
    exact hversion

theorem advertise_sourced (config : Config) (s : Publisher) (publication : Publication)
    (version digest : Str)
    (hne : digest ≠ publication.digest) :
    Sourced (s.advertise config publication version) digest ↔ Sourced s digest := by
  rw [Sourced, Sourced, Publisher.advertise, OrderedDict.get?_insert, if_neg hne]

section
variable [Library]

/-- The broadcast takes the version out of RAM. -/
def Loses (config : Config) (s : Publisher) (payload : Bytes) (version : Str) : Prop :=
  s.origin.Evicts payload.length version ∨
    (s.origin.ManifestFits payload config.shardBytes ∧ s.origin.Prunes version)

/-- The state in which the lock is entered, or the broadcast has raised. -/
inductive BroadcastCase (config : Config) (s : Publisher) (payload : Bytes) :
    Except Exc Str × Publisher → Prop where
  | refused (e : Exc) (t : Publisher)
      (bad : config.shardBytes ≤ 0 ∨ s.origin.store.capacity < payload.length)
      (rest : Swept s t) : BroadcastCase config s payload (.error e, t)
  | stored (result : Except Exc Str) (t : Publisher) (size : 0 < config.shardBytes)
      (fits : payload.length ≤ s.origin.store.capacity)
      (orderly : t.origin.Orderly) (publications : t.publications = s.publications)
      (written : s.origin.ManifestFits payload config.shardBytes ↔ ∃ version, result = .ok version)
      (held : ∀ version, result = .ok version → t.origin.store.versions.contains version = true)
      (sourced : ∀ digest version, s.sources.get? digest = some version →
        s.origin.store.versions.contains version = true →
        (Sourced t digest ↔ ¬ Loses config s payload version)) :
      BroadcastCase config s payload (result, t)

theorem broadcast_case {config : Config} {s : Publisher} (hs : s.origin.Orderly) (call : Publish)
    (payload : Bytes) :
    BroadcastCase config s payload (s.broadcast config call payload) := by
  have hends := OriginServer.broadcastBuffer_case hs payload config.shardBytes (some false)
  rw [Publisher.broadcast]
  generalize s.origin.broadcastBuffer payload config.shardBytes (some false) = outcome at hends ⊢
  obtain ⟨result, origin⟩ := outcome
  have hswept := beats_swept { s with origin } call.broadcasting
  cases hends with
  | refused e bad => exact .refused e _ bad hswept
  | halted e _ size fits large _ _ rest =>
    refine .stored (.error e) _ size fits ?_ hswept.publications ?_ (fun _ h => nomatch h) ?_
    · rw [hswept.origin]
      exact rest.orderly
    · exact ⟨fun h => absurd h large, fun ⟨_, h⟩ => nomatch h⟩
    · intro digest version hget hversion
      rw [hswept.sourced_iff, sourced_of_broadcasted hs rest hget hversion, Loses,
        or_iff_left fun h => large h.1]
  | published _ size fits written held _ rest =>
    refine .stored (.ok _) _ size fits ?_ hswept.publications ?_ ?_ ?_
    · rw [hswept.origin]
      exact rest.orderly
    · exact ⟨fun _ => ⟨_, rfl⟩, fun _ => written⟩
    · intro version hversion
      obtain rfl := Except.ok.inj hversion
      obtain ⟨v, hv⟩ := held
      rw [hswept.origin, OrderedDict.contains, hv.get]
      rfl
    · intro digest version hget hversion
      rw [hswept.sourced_iff, sourced_of_broadcasted hs rest hget hversion, Loses,
        and_iff_right written]

end

section
variable [Sha256] [Library]

/-- The call comes to store its payload: it is not fenced, and newer than what
is advertised. -/
structure Reaches (config : Config) (s : Publisher) (call : Publish) (payload : Bytes) :
    Prop where
  unfenced : s.fenced = false
  packed : call.packed = .ok payload
  newer : ∀ previous, s.publications.getLast? = some previous → previous.step < call.step
  size : 0 < config.shardBytes
  fits : payload.length ≤ s.origin.store.capacity

/-- The call comes to advertise the publication: the manifest is written, the
new source registered and the old one withdrawn. -/
structure Announces (config : Config) (s : Publisher) (call : Publish) (payload : Bytes)
    (publication : Publication) : Prop where
  written : s.origin.ManifestFits payload config.shardBytes
  made : publicationOf config call payload = .ok publication
  registered : call.registered = .ok ()
  withdrawn : ((s.beats call.packing).broadcast config call payload).2.sources.contains
    publication.digest = true → call.deregistered = .ok ()

/-- How `publish` ends. -/
inductive PublishCase (config : Config) (s : Publisher) (call : Publish) : Publisher → Prop where
  | stopped (t : Publisher) (short : ∀ payload, ¬ Reaches config s call payload)
      (rest : Swept s t) : PublishCase config s call t
  /-- The payload is stored, but not advertised. -/
  | unannounced (t : Publisher) (payload : Bytes) (reaches : Reaches config s call payload)
      (short : ∀ publication, ¬ Announces config s call payload publication)
      (orderly : t.origin.Orderly) (publications : t.publications = s.publications)
      (sourced : ∀ digest version, s.sources.get? digest = some version →
        s.origin.store.versions.contains version = true →
        (Sourced t digest ↔ ¬ Loses config s payload version)) :
      PublishCase config s call t
  | announced (t : Publisher) (payload : Bytes) (publication : Publication)
      (reaches : Reaches config s call payload)
      (announces : Announces config s call payload publication)
      (orderly : t.origin.Orderly)
      (publications : t.publications =
        Lease.announced config.retainVersions s.publications publication)
      (source : Sourced t publication.digest)
      (sourced : ∀ digest version, digest ≠ publication.digest →
        s.sources.get? digest = some version →
        s.origin.store.versions.contains version = true →
        (Sourced t digest ↔ ¬ Loses config s payload version)) :
      PublishCase config s call t

variable {config : Config} {s : Publisher}

/-- The registrations, once the manifest is written. -/
theorem register_case {call : Publish} {payload : Bytes} {t : Publisher} {version : Str}
    {publication : Publication} (hreaches : Reaches config s call payload)
    (hbroadcast : ((s.beats call.packing).broadcast config call payload).2 = t)
    (hwritten : s.origin.ManifestFits payload config.shardBytes)
    (hmade : publicationOf config call payload = .ok publication) (horderly : t.origin.Orderly)
    (hpublications : t.publications = s.publications)
    (hheld : t.origin.store.versions.contains version = true)
    (hsourced : ∀ digest version, s.sources.get? digest = some version →
      s.origin.store.versions.contains version = true →
      (Sourced t digest ↔ ¬ Loses config s payload version)) :
    PublishCase config s call (t.register config call publication version).2 := by
  have hunannounced (hshort : ∀ publication, ¬ Announces config s call payload publication) :
      PublishCase config s call t :=
    .unannounced t payload hreaches hshort horderly hpublications hsourced
  rw [Publisher.register]
  cases hregistered : call.registered with
  | error e =>
    apply hunannounced
    intro publication' hannounces
    cases hregistered.symm.trans hannounces.registered
  | ok =>
    simp only
    cases hwithdrawn : if t.sources.contains publication.digest then call.deregistered
        else .ok () with
    | error e =>
      apply hunannounced
      intro publication' hannounces
      obtain rfl := Except.ok.inj (hmade.symm.trans hannounces.made)
      have hold := hannounces.withdrawn
      rw [hbroadcast] at hold
      split_ifs at hwithdrawn with hcontains
      cases hwithdrawn.symm.trans (hold hcontains)
    | ok =>
      have hrefresh :=
        retryRefresh_swept (t.advertise config publication version) call.attempts
      have hends : PublishCase config s call
          ((t.advertise config publication version).retryRefresh call.attempts).2 := by
        refine .announced _ payload publication hreaches ⟨hwritten, hmade, hregistered, ?_⟩
          ?_ ?_ ?_ ?_
        · rw [hbroadcast]
          intro hcontains
          rw [if_pos hcontains] at hwithdrawn
          exact hwithdrawn
        · rw [hrefresh.origin]
          exact horderly
        · rw [hrefresh.publications, Publisher.advertise, hpublications]
        · rw [hrefresh.sourced_iff]
          refine ⟨version, ?_, hheld⟩
          rw [Publisher.advertise, OrderedDict.get?_insert, if_pos rfl]
        · intro digest version' hne hget hversion
          rw [hrefresh.sourced_iff, advertise_sourced _ _ _ _ _ hne]
          exact hsourced digest version' hget hversion
      generalize (t.advertise config publication version).retryRefresh call.attempts =
        outcome at hends ⊢
      obtain ⟨_ | _, _⟩ := outcome <;> exact hends

/-- From the broadcast on, in terms of the state before the call. -/
theorem advance_case (hs : s.origin.Orderly) {call : Publish} {payload : Bytes}
    (hunfenced : s.fenced = false) (hpacked : call.packed = .ok payload)
    (hnewer : ∀ previous, s.publications.getLast? = some previous → previous.step < call.step) :
    PublishCase config s call ((s.beats call.packing).advance config call payload).2 := by
  have hpacking := beats_swept s call.packing
  have hends : BroadcastCase config (s.beats call.packing) payload
      ((s.beats call.packing).broadcast config call payload) :=
    broadcast_case (hpacking.origin ▸ hs) call payload
  rw [Publisher.advance]
  obtain ⟨⟨result, t⟩, hbroadcast⟩ : ∃ outcome,
      (s.beats call.packing).broadcast config call payload = outcome := ⟨_, rfl⟩
  rw [hbroadcast] at hends ⊢
  cases hends with
  | refused e _ bad rest =>
    refine .stopped t ?_ (hpacking.trans rest)
    intro payload' hreaches
    obtain rfl := Except.ok.inj (hpacked.symm.trans hreaches.packed)
    rw [hpacking.origin] at bad
    have hsize := hreaches.size
    have hfits := hreaches.fits
    omega
  | stored _ _ size fits orderly publications written held sourced =>
    have hreaches : Reaches config s call payload :=
      ⟨hunfenced, hpacked, hnewer, size, hpacking.origin ▸ fits⟩
    rw [hpacking.origin] at written
    have hpublications := publications.trans hpacking.publications
    have hsourced : ∀ digest version, s.sources.get? digest = some version →
        s.origin.store.versions.contains version = true →
        (Sourced t digest ↔ ¬ Loses config s payload version) := by
      intro digest version hget hversion
      rw [sourced digest version (hpacking.kept _ _ hget hversion) (hpacking.origin ▸ hversion),
        Loses, Loses, hpacking.origin]
    have hunannounced (hshort : ∀ publication, ¬ Announces config s call payload publication) :
        PublishCase config s call t :=
      .unannounced t payload hreaches hshort orderly hpublications hsourced
    cases result with
    | error e =>
      apply hunannounced
      intro publication hannounces
      obtain ⟨version, hversion⟩ := written.mp hannounces.written
      cases hversion
    | ok version =>
      simp only
      cases hmade : publicationOf config call payload with
      | error e =>
        apply hunannounced
        intro publication hannounces
        cases hmade.symm.trans hannounces.made
      | ok publication =>
        exact register_case hreaches (congrArg Prod.snd hbroadcast) (written.mpr ⟨version, rfl⟩)
          hmade orderly hpublications (held version rfl) hsourced

variable (config) in
theorem publish_case (hs : s.origin.Orderly) (call : Publish) :
    PublishCase config s call (s.publish config call).2 := by
  have hpacking := beats_swept s call.packing
  rw [Publisher.publish]
  by_cases hfenced : s.fenced = true
  · rw [if_pos hfenced]
    refine .stopped s ?_ (.refl s)
    intro payload hreaches
    cases hfenced.symm.trans hreaches.unfenced
  rw [if_neg hfenced]
  rw [Bool.not_eq_true] at hfenced
  cases hpacked : call.packed with
  | error e =>
    refine .stopped _ ?_ hpacking
    intro payload hreaches
    cases hpacked.symm.trans hreaches.packed
  | ok payload =>
    simp only [hpacking.publications]
    cases hlast : s.publications.getLast? with
    | none => exact advance_case hs hfenced hpacked fun _ h => nomatch hlast.symm.trans h
    | some previous =>
      simp only
      by_cases hstep : call.step ≤ previous.step
      · have hstopped : PublishCase config s call (s.beats call.packing) := by
          refine .stopped _ ?_ hpacking
          intro payload' hreaches
          have hnewer := hreaches.newer previous hlast
          omega
        rw [if_pos hstep]
        split_ifs <;> exact hstopped
      · rw [if_neg hstep]
        refine advance_case hs hfenced hpacked fun previous' h => ?_
        obtain rfl := Option.some.inj (hlast.symm.trans h)
        omega

/-! ## Runs of calls -/

/-- The call takes from RAM the source of a publication that stays advertised:
one it does not trim, as it raises first or has more to retain, nor registers
anew. -/
def Unbacks (config : Config) (s : Publisher) : Action → Prop
  | .publish call =>
    ∃ payload, Reaches config s call payload ∧
      ∃ publication ∈ s.publications, ∃ version,
        s.sources.get? publication.digest = some version ∧ Loses config s payload version ∧
          ∀ newest, Announces config s call payload newest →
            publication ∈ Lease.announced config.retainVersions s.publications newest ∧
              publication.digest ≠ newest.digest
  | .heartbeat _ => False

omit [Sha256] [Library] in
theorem mem_of_mem_announced {retain : Nat} {publications : List Publication}
    {newest publication : Publication}
    (h : publication ∈ Lease.announced retain publications newest) :
    publication ∈ publications ∨ publication = newest := by
  have hall : publication ∈ publications ++ [newest] := by
    rw [Lease.announced] at h
    split_ifs at h
    · exact h
    · exact List.mem_of_mem_drop h
  rcases List.mem_append.mp hall with hold | hnew
  · exact Or.inl hold
  · exact Or.inr (List.mem_singleton.mp hnew)

theorem act_orderly (hs : s.origin.Orderly) (a : Action) : (act config s a).origin.Orderly := by
  cases a with
  | publish call =>
    have hends := publish_case config hs call
    rw [act]
    generalize (s.publish config call).2 = t at hends ⊢
    cases hends with
    | stopped _ rest => exact rest.origin ▸ hs
    | unannounced _ _ _ orderly => exact orderly
    | announced _ _ _ _ orderly => exact orderly
  | heartbeat attempt => exact (refresh_swept s attempt).origin ▸ hs

theorem act_backed (hs : s.origin.Orderly) (hbacked : Backed s) {a : Action}
    (hok : ¬ Unbacks config s a) : Backed (act config s a) := by
  cases a with
  | heartbeat attempt => exact (refresh_swept s attempt).backed_iff.mpr hbacked
  | publish call =>
    have hends := publish_case config hs call
    rw [act]
    generalize (s.publish config call).2 = t at hends ⊢
    cases hends with
    | stopped _ rest => exact rest.backed_iff.mpr hbacked
    | unannounced payload reaches short _ publications sourced =>
      intro publication hp
      rw [publications] at hp
      obtain ⟨version, hget, hversion⟩ := hbacked publication hp
      rw [sourced _ _ hget hversion]
      intro hloses
      exact hok ⟨payload, reaches, publication, hp, version, hget, hloses,
        fun newest hnewest => absurd hnewest (short newest)⟩
    | announced payload newest reaches announces _ publications source sourced =>
      intro publication hp
      by_cases hdigest : publication.digest = newest.digest
      · rw [hdigest]
        exact source
      rw [publications] at hp
      have hold : publication ∈ s.publications := by
        refine (mem_of_mem_announced hp).resolve_right ?_
        rintro rfl
        exact hdigest rfl
      obtain ⟨version, hget, hversion⟩ := hbacked publication hold
      rw [sourced _ _ hdigest hget hversion]
      intro hloses
      refine hok ⟨payload, reaches, publication, hold, version, hget, hloses, ?_⟩
      intro newest' hnewest
      obtain rfl := Except.ok.inj (announces.made.symm.trans hnewest.made)
      exact ⟨hp, hdigest⟩

theorem unbacking_breaks (hs : s.origin.Orderly) (hbacked : Backed s) {a : Action}
    (h : Unbacks config s a) : ¬ Backed (act config s a) := by
  cases a with
  | heartbeat attempt => exact h.elim
  | publish call =>
    obtain ⟨payload, reaches, publication, hp, version, hget, hloses, hstays⟩ := h
    obtain ⟨version', hget', hversion⟩ := hbacked publication hp
    obtain rfl := Option.some.inj (hget.symm.trans hget')
    have hends := publish_case config hs call
    rw [act]
    generalize (s.publish config call).2 = t at hends ⊢
    intro ht
    cases hends with
    | stopped short => exact short payload reaches
    | unannounced payload' reaches' _ _ publications sourced =>
      obtain rfl := Except.ok.inj (reaches.packed.symm.trans reaches'.packed)
      exact (sourced _ _ hget hversion).mp (ht publication (publications ▸ hp)) hloses
    | announced payload' newest reaches' announces _ publications _ sourced =>
      obtain rfl := Except.ok.inj (reaches.packed.symm.trans reaches'.packed)
      obtain ⟨hmem, hdigest⟩ := hstays newest announces
      exact (sourced _ _ hdigest hget hversion).mp (ht publication (publications ▸ hmem)) hloses

/-- **Advertised publications have sources unless a call takes one away.** In a
run of publish calls, whatever fails in them, and of heartbeats, each advertised
publication has a source whose version is in the origin's store after every call
exactly when no call evicts or prunes the source of a publication that it leaves
advertised. -/
theorem backed_iff_no_call_unbacks (config : Config) (hretain : 1 ≤ config.retainVersions)
    (actions : List Action) :
    Runs.Always (act config) Backed (Publisher.new config) actions ↔
      Runs.EveryStep (act config) (fun s a => ¬ Unbacks config s a) (Publisher.new config)
        actions := by
  have hlegal : ∀ a ∈ actions, (fun _ : Action => True) a := fun _ _ => trivial
  refine Runs.always_iff_everyStep (fun s => s.origin.Orderly ∧ Backed s) ?_ ?_ ?_ ?_ hlegal
  · exact fun s a hs _ hok => ⟨act_orderly hs.1 a, act_backed hs.1 hs.2 hok⟩
  · exact fun s hs => hs.2
  · exact fun s a hs _ hnot => unbacking_breaks hs.1 hs.2 (Classical.not_not.mp hnot)
  · exact ⟨OriginServer.orderly_new hretain _ _, fun _ h => nomatch h⟩

end

/-- A bundle with one byte of weights. -/
def adapterBundle (weight : UInt8) : Bytes :=
  [83, 67, 45, 76, 79, 82, 65, 49, 0, 0, 0, 0, 0, 0, 0, 20, 123, 34, 112, 101, 102, 116, 95, 116,
    121, 112, 101, 34, 58, 34, 76, 79, 82, 65, 34, 125, weight]

/-- The digests of the bundles with the bytes `a` and `b`. -/
@[reducible] def bundleSha256 : Sha256 where
  sha256 payload :=
    if payload = adapterBundle 97 then
      ⟨[213, 42, 219, 255, 209, 76, 117, 103, 177, 200, 201, 97, 152, 118, 158, 231, 69, 192, 23,
        163, 222, 6, 77, 227, 12, 37, 104, 147, 28, 103, 81, 42], rfl⟩
    else
      ⟨[155, 142, 124, 2, 28, 98, 102, 210, 226, 163, 186, 240, 213, 1, 169, 32, 219, 35, 184, 78,
        166, 55, 155, 144, 254, 149, 184, 205, 224, 27, 4, 41], rfl⟩

/-- A publisher that retains one version of at most 64 bytes. -/
def oneVersion : Config where
  runId := str "run"
  baseModel := str "base"
  retainVersions := 1
  maxAdapterBytes := 64
  shardBytes := 64

/-- A call with the bundle of this byte, whose registration ends so. -/
def registering (weight : UInt8) (step : Int) (registered : Except Exc Unit) : Publish where
  step
  packed := .ok (adapterBundle weight)
  registered
  deregistered := .ok ()
  attempts := [⟨.ok true, none⟩]

/-- With room for a second version a registration that times out takes no source
away, nor does the heartbeat after it. -/
theorem backed_iff_no_call_unbacks_two_versions :
    letI := bundleSha256
    letI := asciiLibrary
    let config : Config := { oneVersion with retainVersions := 2 }
    let first := Action.publish (registering 97 1 (.ok ()))
    let second := Action.publish (registering 98 2 (.error ⟨.timeoutError, []⟩))
    let beat := Action.heartbeat ⟨.ok true, none⟩
    Runs.Always (act config) Backed (Publisher.new config) [first, second, beat] ∧
      ([first, second, beat].foldl (act config) (Publisher.new config)).sources.values =
        [str "v1"] := by
  let _ := bundleSha256
  let _ := asciiLibrary
  intro config first second beat
  have hfirst : ¬ Unbacks config (Publisher.new config) first := by
    rintro ⟨payload, -, publication, hp, -⟩
    cases hp
  have hsecond : ¬ Unbacks config (act config (Publisher.new config) first) second := by
    obtain ⟨hsources, hstays⟩ :
        (act config (Publisher.new config) first).sources.values = [str "v1"] ∧
          (act config (Publisher.new config) first).origin.store.bytesFrom (str "v1") + 37 ≤
            (act config (Publisher.new config) first).origin.store.capacity := by
      decide +kernel
    have hprunes : ¬ (act config (Publisher.new config) first).origin.Prunes (str "v1") := by
      decide +kernel
    generalize act config (Publisher.new config) first = s at hsources hstays hprunes
    rintro ⟨payload, hreaches, publication, -, version, hget, hloses, -⟩
    obtain rfl := Except.ok.inj hreaches.packed
    have hvalue : version ∈ s.sources.values :=
      List.mem_map.mpr ⟨_, OrderedDict.get?_eq_some_iff.mp hget, rfl⟩
    rw [hsources, List.mem_singleton] at hvalue
    obtain rfl := hvalue
    rcases hloses with hevicted | ⟨-, hpruned⟩
    · exact absurd hevicted.2 (Nat.not_lt.mpr hstays)
    · exact hprunes hpruned
  exact ⟨(backed_iff_no_call_unbacks config (by decide) _).mpr ⟨hfirst, hsecond, id, trivial⟩,
    by decide +kernel⟩

/-- The second registration times out when the origin has pruned the version of
the publication that is still advertised. -/
theorem failed_registration_unbacks :
    letI := bundleSha256
    letI := asciiLibrary
    ¬ ∀ (config : Config) (calls : List Publish), 1 ≤ config.retainVersions →
      (∀ call ∈ calls, ∀ payload, call.packed = .ok payload →
        payload.length ≤ config.maxAdapterBytes) →
      Runs.Always (fun s call => (s.publish config call).2) Backed (Publisher.new config) calls := by
  intro claim
  let _ := bundleSha256
  let _ := asciiLibrary
  let first := registering 97 1 (.ok ())
  let second := registering 98 2 (.error ⟨.timeoutError, []⟩)
  have hbacked := Runs.always_foldl (claim oneVersion [first, second] (by decide) (by
    intro call hcall payload hpacked
    rcases List.mem_pair.mp hcall with rfl | rfl
    · obtain rfl := Except.ok.inj hpacked
      decide
    · obtain rfl := Except.ok.inj hpacked
      decide))
  -- what is advertised has the source v1, and the origin no longer that version
  obtain ⟨hsome, hgone, hsources⟩ :
      ([first, second].foldl (fun s call => (s.publish oneVersion call).2)
        (Publisher.new oneVersion)).publications.isEmpty = false ∧
      ([first, second].foldl (fun s call => (s.publish oneVersion call).2)
        (Publisher.new oneVersion)).origin.store.versions.contains (str "v1") = false ∧
      ([first, second].foldl (fun s call => (s.publish oneVersion call).2)
        (Publisher.new oneVersion)).sources.values = [str "v1"] := by
    decide +kernel
  generalize [first, second].foldl (fun s call => (s.publish oneVersion call).2)
    (Publisher.new oneVersion) = s at hbacked hsome hgone hsources
  obtain ⟨publication, hp⟩ := List.isEmpty_eq_false_iff_exists_mem.mp hsome
  obtain ⟨version, hget, hversion⟩ := hbacked publication hp
  have hvalue : version ∈ s.sources.values :=
    List.mem_map.mpr ⟨_, OrderedDict.get?_eq_some_iff.mp hget, rfl⟩
  rw [hsources, List.mem_singleton] at hvalue
  rw [hvalue, hgone] at hversion
  cases hversion

end Litecast.Publishing
