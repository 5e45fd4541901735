import Litecast.PublisherLease

/-! The order in which the publications of a publisher come when calls of its
`publish` overlap. -/

namespace Litecast.Lease

/-! ## Between the check and the publication -/

/-- The step of a call that is past its check and has not published yet. -/
def Place.pending : Place → Option Int
  | .broadcasting step _ _ => some step
  | .entering publication | .registering publication => some publication.step
  | _ => none

/-- The event has the step of the call compared with that of the last publication. -/
def Place.checks : Place → Event → Bool
  | .packing _, .packed _ _ => true
  | _, _ => false

/-- What the event publishes. -/
def Place.publishes : Place → Event → Option Publication
  | .registering publication, .proceed => some publication
  | _, _ => none

theorem make_step {runId : Str} {baseModel : Json} {step : Int} {digest : Str} {size : Int}
    {publication : Publication}
    (h : Publication.make runId baseModel step digest size = .ok publication) :
    (publication.step : Int) = step := by
  rw [Publication.make] at h
  split_ifs at h
  obtain rfl := Except.ok.inj h
  simp only
  omega

/-- What an event makes of the publications and of the step its call has pending. -/
inductive Handled (config : Config) (p : Publisher) (call : Nat) (event : Event)
    (p' : Publisher) : Prop where
  | kept (silent : (p.place call).publishes event = none) (same : p'.publications = p.publications)
      (pending : (p'.place call).pending = none ∨
        (p'.place call).pending = (p.place call).pending)
  | checked (step : Int) (silent : (p.place call).publishes event = none)
      (same : p'.publications = p.publications) (checks : (p.place call).checks event = true)
      (newer : ∀ previous, p.publications.getLast? = some previous → (previous.step : Int) < step)
      (pending : (p'.place call).pending = some step)
  | published (publication : Publication) (publishes : (p.place call).publishes event = some publication)
      (appended : p'.publications = announced config.retainVersions p.publications publication)
      (pending : (p'.place call).pending = none)

section
variable {config : Config} {p : Publisher} {call : Nat} {event : Event}

theorem kept_same (silent : (p.place call).publishes event = none) : Handled config p call event p :=
  .kept silent rfl (Or.inr rfl)

theorem kept_moved {place : Place} (silent : (p.place call).publishes event = none)
    (pending : place.pending = none ∨ place.pending = (p.place call).pending) :
    Handled config p call event (p.move call place) :=
  .kept silent rfl (by rwa [p.place_move, if_pos rfl])

theorem kept_released {place : Place} (silent : (p.place call).publishes event = none)
    (pending : place.pending = none) : Handled config p call event (p.release call place) :=
  .kept silent rfl (Or.inl (by rwa [p.place_release, if_pos rfl]))

theorem kept_acquired {place : Place} (silent : (p.place call).publishes event = none)
    (pending : place.pending = none ∨ place.pending = (p.place call).pending) :
    Handled config p call event (p.acquire call place) := by
  rw [Publisher.acquire]
  split_ifs
  · exact kept_same silent
  · exact .kept silent rfl (by simpa using pending)

end

theorem afterFailure_pending (errand : Errand) (fenced registry : Bool) :
    (afterFailure errand fenced registry).pending = none := by
  cases errand with
  | start => rfl
  | heartbeat => cases fenced <;> rfl
  | publish => cases registry <;> rfl

theorem handle_handled (config : Config) (record : Option Descriptor) (owner : Str)
    (p : Publisher) (call : Nat) (event : Event) :
    Handled config p call event (p.handle config record owner call event) := by
  unfold Publisher.handle
  split
  -- a call begins
  · next h => exact kept_moved (by rw [h]; rfl) (Or.inl rfl)
  · next h =>
    split_ifs
    · exact kept_same (by rw [h]; rfl)
    · exact kept_moved (by rw [h]; rfl) (Or.inl rfl)
  · next h =>
    refine kept_moved (by rw [h]; rfl) (Or.inl ?_)
    split_ifs <;> rfl
  · next h => exact kept_moved (by rw [h]; rfl) (Or.inl rfl)
  -- up to the publication
  · next step digest size h =>
    split_ifs with hold
    · exact kept_moved (by rw [h]; rfl) (Or.inl rfl)
    · refine .checked step (by rw [h]; rfl) rfl (by rw [h]; rfl) ?_
        (by rw [p.place_move, if_pos rfl]; rfl)
      intro previous hprevious
      rw [hprevious] at hold
      simpa using hold
  · next step digest size h =>
    split
    · exact kept_moved (by rw [h]; rfl) (Or.inl rfl)
    · next publication hmake =>
      refine kept_moved (by rw [h]; rfl) (Or.inr ?_)
      rw [h]
      exact congrArg some (make_step hmake)
  · next publication h =>
    exact kept_acquired (by rw [h]; rfl) (Or.inr (by rw [h]; rfl))
  · next publication h =>
    exact .published publication (by rw [h]; rfl) rfl
      (by simp [Publisher.release, Publisher.move, Place.pending])
  · next h =>
    split_ifs
    · exact kept_same (by rw [h]; rfl)
    · exact kept_released (by rw [h]; rfl) rfl
  -- `refresh`
  · next h => exact kept_acquired (by rw [h]; rfl) (Or.inl rfl)
  · next h => exact kept_moved (by rw [h]; rfl) (Or.inl rfl)
  · next h => exact kept_moved (by rw [h]; rfl) (Or.inl rfl)
  · next h =>
    refine .kept (by rw [h]; rfl) rfl (Or.inl ?_)
    simp [Publisher.release, Publisher.move, afterFailure_pending]
  · next errand h =>
    exact kept_released (by rw [h]; rfl) (by cases errand <;> rfl)
  · next h => exact kept_same (by rw [h]; rfl)
  · next h => exact kept_released (by rw [h]; rfl) (afterFailure_pending _ _ _)
  · next h => exact kept_moved (by rw [h]; rfl) (Or.inl rfl)
  -- a wait that raises, or is cancelled
  · next h => exact kept_moved (by rw [h]; rfl) (Or.inl rfl)
  · next h => exact kept_moved (by rw [h]; rfl) (Or.inl rfl)
  · next h => exact kept_moved (by rw [h]; rfl) (Or.inl rfl)
  · have hsilent : (p.place call).publishes .cancel = none := by
      cases p.place call <;> rfl
    split_ifs
    · exact kept_released hsilent rfl
    · exact kept_moved hsilent (Or.inl rfl)
  · refine kept_same ?_
    unfold Place.publishes
    split
    · exact (‹∀ publication : Publication, p.place call = .registering publication →
        Event.proceed = .proceed → False› _ ‹_› rfl).elim
    · rfl

theorem handle_other (config : Config) (record : Option Descriptor) (owner : Str) (p : Publisher)
    {call other : Nat} (hother : other ≠ call) (event : Event) :
    (p.handle config record owner call event).place other = p.place other := by
  have hchange := handle_change config record owner p call event
  generalize p.handle config record owner call event = p' at hchange ⊢
  cases hchange with
  | stay => rfl
  | move | acquire | release => simp [Publisher.release, Publisher.move, hother]

/-! ## Steps of the system -/

/-- What the owner publishes with this step. -/
def published (s : System) (a : Action) (owner : Str) : Option Publication :=
  match a with
  | .expire => none
  | .await actor call event =>
    if actor = owner then ((s.publisher owner).place call).publishes event else none

/-- The step has the adapter's step checked for the call. -/
def checked (s : System) (a : Action) (owner : Str) (call : Nat) : Bool :=
  match a with
  | .expire => false
  | .await actor caller event =>
    actor = owner && caller = call && ((s.publisher owner).place call).checks event

theorem step_publications (config : Config) (s : System) (a : Action) (owner : Str) :
    ((step config s a).publisher owner).publications =
      (published s a owner).elim (s.publisher owner).publications
        (announced config.retainVersions (s.publisher owner).publications) := by
  cases a with
  | expire => rfl
  | await actor call event =>
    by_cases howner : actor = owner
    · subst howner
      have hhandled := handle_handled config s.record actor (s.publisher actor) call event
      simp only [step, published, Function.update_self, if_true]
      cases hhandled with
      | kept silent same => rw [silent, same, Option.elim_none]
      | checked _ silent same => rw [silent, same, Option.elim_none]
      | published publication publishes appended => rw [publishes, appended, Option.elim_some]
    · simp [step, published, howner, Function.update_of_ne (Ne.symm howner)]

theorem pending_of_checks {place : Place} {event : Event} (h : place.checks event = true) :
    place.pending = none := by
  unfold Place.checks at h
  split at h
  · rfl
  · cases h

/-- A call that comes to have a step pending has just had it checked. -/
theorem step_pending {config : Config} {s : System} {a : Action} {owner : Str} {call : Nat}
    {step : Int}
    (h : (((Lease.step config s a).publisher owner).place call).pending = some step) :
    if checked s a owner call = true then
      published s a owner = none ∧
        ∀ previous, (s.publisher owner).publications.getLast? = some previous →
          (previous.step : Int) < step
    else ((s.publisher owner).place call).pending = some step := by
  cases a with
  | expire => exact h
  | await actor caller event =>
    by_cases howner : actor = owner
    · subst howner
      by_cases hcall : caller = call
      · subst hcall
        have hhandled := handle_handled config s.record actor (s.publisher actor) caller event
        simp only [Lease.step, Function.update_self] at h
        simp only [checked, published, decide_true, Bool.true_and, if_true]
        cases hhandled with
        | kept silent same pending =>
          rw [h] at pending
          have hkept := (pending.resolve_left (Option.some_ne_none step)).symm
          rw [if_neg]
          · exact hkept
          · intro hchecks
            rw [pending_of_checks hchecks] at hkept
            cases hkept
        | checked step' silent same checks newer pending =>
          obtain rfl := Option.some.inj (pending.symm.trans h)
          rw [if_pos checks]
          exact ⟨silent, newer⟩
        | published _ _ _ pending =>
          rw [pending] at h
          cases h
      · have hsame := handle_other config s.record actor (s.publisher actor) (Ne.symm hcall) event
        simp only [Lease.step, Function.update_self, hsame] at h
        simpa [checked, hcall] using h
    · simp only [Lease.step, Function.update_of_ne (Ne.symm howner)] at h
      simpa [checked, howner] using h

/-! ## What came in between -/

/-- A system, and what has been published since the check of each call. -/
structure Watched where
  system : System := {}
  since : Str → Nat → List Publication := fun _ _ => []

def watch (config : Config) (w : Watched) (a : Action) : Watched where
  system := step config w.system a
  since := fun owner call =>
    if checked w.system a owner call then []
    else w.since owner call ++ (published w.system a owner).toList

/-- A call publishes although a publication as new or newer has come in since its
check. -/
def Superseded (w : Watched) (a : Action) : Prop :=
  ∃ owner call publication newer, a = .await owner call .proceed ∧
    (w.system.publisher owner).place call = .registering publication ∧
    newer ∈ w.since owner call ∧ publication.step ≤ newer.step

/-- The publications of every publisher stand in the order of their steps. -/
def Ascending (s : System) : Prop :=
  ∀ owner, (s.publisher owner).publications.Pairwise fun a b => a.step < b.step

/-- Nothing is published after a publication as new or newer. -/
def Newest (s : System) (a : Action) : Prop :=
  ∀ owner publication, published s a owner = some publication →
    ∀ earlier ∈ (s.publisher owner).publications, earlier.step < publication.step

theorem published_eq_some_iff {s : System} {a : Action} {owner : Str} {publication : Publication} :
    published s a owner = some publication ↔ ∃ call, a = .await owner call .proceed ∧
      (s.publisher owner).place call = .registering publication := by
  constructor
  · intro h
    cases a with
    | expire => cases h
    | await actor call event =>
      rw [published] at h
      split_ifs at h with howner
      subst howner
      unfold Place.publishes at h
      split at h
      · next hplace =>
        obtain rfl := Option.some.inj h
        exact ⟨call, rfl, hplace⟩
      · cases h
  · rintro ⟨call, rfl, hplace⟩
    rw [published, if_pos rfl, hplace]
    rfl

theorem announced_suffix (retain : Nat) (publications : List Publication) (publication : Publication) :
    announced retain publications publication <:+ publications ++ [publication] := by
  rw [announced]
  split_ifs
  · exact List.suffix_rfl
  · exact List.drop_suffix _ _

/-- All but the oldest are kept. -/
theorem suffix_announced {retain : Nat} {kept publications : List Publication}
    {publication : Publication} (hkept : kept <:+ publications) (h : retain = 0 ∨ kept.length < retain) :
    kept ++ [publication] <:+ announced retain publications publication := by
  obtain ⟨dropped, rfl⟩ := hkept
  rw [announced]
  split_ifs with hretain
  · exact ⟨dropped, by rw [List.append_assoc]⟩
  · have hlength : (dropped ++ kept ++ [publication]).length - retain ≤ dropped.length := by
      simp only [List.length_append, List.length_singleton]
      omega
    rw [List.append_assoc, List.drop_append_of_le_length (by rwa [List.append_assoc] at hlength)]
    exact List.suffix_append _ _

theorem mem_announced (retain : Nat) (publications : List Publication) (publication : Publication) :
    publication ∈ announced retain publications publication := by
  have hsuffix := @suffix_announced retain [] publications publication (List.nil_suffix)
    (Nat.eq_zero_or_pos retain)
  exact hsuffix.subset (List.mem_singleton_self _)

theorem Ascending.step {config : Config} {s : System} {a : Action} (hs : Ascending s)
    (hnewest : Newest s a) : Ascending (Lease.step config s a) := by
  intro owner
  rw [step_publications]
  cases hpublished : published s a owner with
  | none => exact hs owner
  | some publication =>
    refine List.Pairwise.sublist (announced_suffix _ _ _).sublist ?_
    rw [List.pairwise_append]
    refine ⟨hs owner, List.pairwise_singleton _ _, ?_⟩
    intro earlier hearlier last hlast
    rw [List.mem_singleton.mp hlast]
    exact hnewest owner publication hpublished earlier hearlier

theorem exists_last {publications : List Publication}
    (hascending : publications.Pairwise fun a b => a.step < b.step) {earlier : Publication}
    (hearlier : earlier ∈ publications) :
    ∃ last, publications.getLast? = some last ∧ earlier.step ≤ last.step := by
  have hlast := List.getLast?_eq_some_getLast (List.ne_nil_of_mem hearlier)
  refine ⟨_, hlast, ?_⟩
  obtain ⟨front, hfront⟩ := List.getLast?_eq_some_iff.mp hlast
  generalize publications.getLast (List.ne_nil_of_mem hearlier) = last at hfront
  subst hfront
  rcases List.mem_append.mp hearlier with hmem | hmem
  · exact ((List.pairwise_append.mp hascending).2.2 earlier hmem last (by simp)).le
  · rw [List.mem_singleton.mp hmem]

/-- What a call can miss is what came in since its check, and of that the newest
is still there. -/
structure Noted (w : Watched) : Prop where
  ascending : Ascending w.system
  noticed : ∀ owner call step, ((w.system.publisher owner).place call).pending = some step →
    ∀ earlier ∈ (w.system.publisher owner).publications, step ≤ earlier.step →
      earlier ∈ w.since owner call
  surpassed : ∀ owner call, ∀ newer ∈ w.since owner call,
    ∃ latest ∈ (w.system.publisher owner).publications, newer.step ≤ latest.step

theorem Noted.newest_iff {w : Watched} (hw : Noted w) (a : Action) :
    Newest w.system a ↔ ¬ Superseded w a := by
  constructor
  · rintro hnewest ⟨owner, call, publication, newer, rfl, hplace, hnewer, hle⟩
    obtain ⟨latest, hlatest, hsurpassed⟩ := hw.surpassed owner call newer hnewer
    have hlt := hnewest owner publication (published_eq_some_iff.mpr ⟨call, rfl, hplace⟩) latest hlatest
    omega
  · intro hnot owner publication hpublished earlier hearlier
    obtain ⟨call, rfl, hplace⟩ := published_eq_some_iff.mp hpublished
    by_contra hlt
    refine hnot ⟨owner, call, publication, earlier, rfl, hplace, ?_, by omega⟩
    exact hw.noticed owner call publication.step (by rw [hplace]; rfl) earlier hearlier (by omega)

theorem Noted.step (config : Config) {w : Watched} (hw : Noted w) {a : Action}
    (hnewest : Newest w.system a) : Noted (watch config w a) := by
  refine ⟨hw.ascending.step hnewest, ?_, ?_⟩
  · intro owner call step hpending earlier hearlier hle
    have hbefore := step_pending hpending
    simp only [watch, step_publications] at hearlier ⊢
    split_ifs at hbefore ⊢ with hchecked
    · obtain ⟨hpublished, hnewer⟩ := hbefore
      rw [hpublished, Option.elim_none] at hearlier
      obtain ⟨last, hlast, hsurpassed⟩ := exists_last (hw.ascending owner) hearlier
      have hlt := hnewer last hlast
      omega
    · rw [List.mem_append]
      cases hpublished : published w.system a owner with
      | none =>
        rw [hpublished] at hearlier
        exact Or.inl (hw.noticed owner call step hbefore earlier hearlier hle)
      | some publication =>
        rw [hpublished, Option.elim_some] at hearlier
        rcases List.mem_append.mp ((announced_suffix _ _ _).subset hearlier) with hearlier | hlast
        · exact Or.inl (hw.noticed owner call step hbefore earlier hearlier hle)
        · exact Or.inr hlast
  · intro owner call newer hnewer
    simp only [watch, step_publications] at hnewer ⊢
    split_ifs at hnewer with hchecked
    · cases hnewer
    · cases hpublished : published w.system a owner with
      | none =>
        rw [hpublished, Option.toList_none, List.append_nil] at hnewer
        exact hw.surpassed owner call newer hnewer
      | some publication =>
        refine ⟨publication, mem_announced _ _ _, ?_⟩
        rw [hpublished, Option.toList_some, List.mem_append, List.mem_singleton] at hnewer
        rcases hnewer with hnewer | rfl
        · obtain ⟨latest, hlatest, hsurpassed⟩ := hw.surpassed owner call newer hnewer
          have hlt := hnewest owner publication hpublished latest hlatest
          omega
        · exact Nat.le_refl _

/-! ## Runs -/

theorem everyStep_newest_iff (config : Config) (actions : List Action) {w : Watched} (hw : Noted w) :
    Runs.EveryStep (step config) Newest w.system actions ↔
      Runs.EveryStep (watch config) (fun w a => ¬ Superseded w a) w actions := by
  induction actions generalizing w with
  | nil => exact Iff.rfl
  | cons a rest ih =>
    have hhere := hw.newest_iff a
    constructor
    · rintro ⟨hfirst, hrest⟩
      exact ⟨hhere.mp hfirst, (ih (hw.step config hfirst)).mp hrest⟩
    · rintro ⟨hfirst, hrest⟩
      have hfirst := hhere.mpr hfirst
      exact ⟨hfirst, (ih (hw.step config hfirst)).mpr hrest⟩

/-- When two publications are retained, the last one tells whether they are in
order. -/
theorem newest_of_ascending {config : Config} (hretain : 2 ≤ config.retainVersions) {s : System}
    {a : Action} (hs : Ascending s) (hnext : Ascending (step config s a)) : Newest s a := by
  intro owner publication hpublished earlier hearlier
  obtain ⟨last, hlast, hle⟩ := exists_last (hs owner) hearlier
  obtain ⟨front, hfront⟩ := List.getLast?_eq_some_iff.mp hlast
  have hascending := hnext owner
  rw [step_publications, hpublished, Option.elim_some] at hascending
  have hkept : [last] ++ [publication] <:+
      announced config.retainVersions (s.publisher owner).publications publication :=
    suffix_announced ⟨front, hfront.symm⟩ (Or.inr hretain)
  have hpair := hascending.sublist hkept.sublist
  have hlt := (List.pairwise_cons.mp hpair).1 publication (List.mem_singleton_self _)
  omega

theorem everyStep_newest_of_always {config : Config} (hretain : 2 ≤ config.retainVersions)
    {s : System} {actions : List Action} (h : Runs.Always (step config) Ascending s actions) :
    Runs.EveryStep (step config) Newest s actions := by
  induction actions generalizing s with
  | nil => trivial
  | cons a rest ih => exact ⟨newest_of_ascending hretain h.1 h.2.start, ih h.2⟩

theorem noted_initial : Noted {} where
  ascending := fun _ => List.Pairwise.nil
  noticed := by
    intro owner call step h
    cases h
  surpassed := by
    intro owner call newer h
    cases h

/-- **The publications of a publisher stand in the order of their steps exactly
when no call is superseded.** In every interleaving of the calls, every state has
them in that order, and nothing is published after a publication as new or newer,
exactly when no call publishes although one as new or newer has come in since its
check. Where two publications are retained the order of the states alone tells. -/
theorem publications_ascend_iff (config : Config) (actions : List Action) :
    ((Runs.Always (step config) Ascending {} actions ∧
        Runs.EveryStep (step config) Newest {} actions) ↔
      Runs.EveryStep (watch config) (fun w a => ¬ Superseded w a) {} actions) ∧
    (2 ≤ config.retainVersions → (Runs.Always (step config) Ascending {} actions ↔
      Runs.EveryStep (watch config) (fun w a => ¬ Superseded w a) {} actions)) := by
  have hnewest := everyStep_newest_iff config actions noted_initial
  have halways : Runs.EveryStep (step config) Newest {} actions →
      Runs.Always (step config) Ascending {} actions :=
    Runs.always_of_everyStep (fun _ _ hs hnewest => hs.step hnewest) noted_initial.ascending
  refine ⟨⟨fun h => hnewest.mp h.2, fun h => ?_⟩, fun hretain => ⟨fun h => ?_, fun h => ?_⟩⟩
  · exact ⟨halways (hnewest.mpr h), hnewest.mpr h⟩
  · exact hnewest.mp (everyStep_newest_of_always hretain h)
  · exact halways (hnewest.mpr h)

/-- Two calls are past their checks when the first of them publishes. -/
def supersededRun : List Action :=
  let await (call : Nat) (event : Event) : Action := .await (str "a") call event
  let digest : Str := List.replicate 64 (.ofChar '0')
  [await 0 (.publish 5), await 1 (.publish 4), await 0 (.packed digest 17),
    await 1 (.packed digest 17)] ++ List.replicate 3 (await 0 .proceed) ++
    List.replicate 3 (await 1 .proceed)

theorem older_step_published :
    ¬ ∀ (config : Config) (actions : List Action),
      Runs.Always (step config) Ascending {} actions := by
  intro claim
  let config : Config := ⟨str "run", str "model", 8⟩
  have hlast := Runs.always_foldl (claim config supersededRun) (str "a")
  have hsteps : ((supersededRun.foldl (step config) {}).publisher (str "a")).publications.map
      Publication.step = [5, 4] := by decide +kernel
  rw [← List.pairwise_map (f := Publication.step) (R := (· < ·)), hsteps] at hlast
  exact absurd hlast (by decide)

end Litecast.Lease
