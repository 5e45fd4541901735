import Litecast.Publication
import Litecast.Lib.Runs
import Mathlib.Logic.Function.Basic

/-! `Publisher` in `registry/distribution.py`: the calls of several publishers
of one run, interleaved at each `await`, and the run's record in Redis. -/

namespace Litecast.Lease

structure Config where
  runId : Str
  baseModel : Str
  retainVersions : Nat

/-- The record under `desired_key`. -/
structure Descriptor where
  owner : Str
  publications : List Publication

/-! ## Calls in progress -/

/-- Who called `refresh`. -/
inductive Errand where
  | start | heartbeat | publish
  deriving DecidableEq

/-- What `refresh` is waiting for. -/
inductive Stage where
  | lock
  | script
  /-- The script has run and its answer is on the way. -/
  | reply (written : Bool)
  | sources
  deriving DecidableEq

/-- What a call is waiting for. -/
inductive Place where
  | idle
  | looking
  | asleep
  | packing (step : Int)
  | broadcasting (step : Int) (digest : Str) (size : Nat)
  | entering (publication : Publication)
  | registering (publication : Publication)
  | refreshing (errand : Errand) (stage : Stage)
  | retrying

/-- The call is inside `async with self.refresh_lock`. -/
def Place.holdsLock : Place → Bool
  | .registering _ => true
  | .refreshing _ .lock => false
  | .refreshing _ _ => true
  | _ => false

structure Publisher where
  publications : List Publication := []
  fenced : Bool := false
  locked : Bool := false
  place : Nat → Place := fun _ => .idle

structure System where
  record : Option Descriptor := none
  publisher : Str → Publisher := fun _ => {}

inductive Event where
  | start
  | publish (step : Int)
  | packed (digest : Str) (size : Nat)
  /-- The wait ends as hoped for. -/
  | proceed
  /-- It ends with an exception, `registry` telling `OSError` and `RedisError`. -/
  | raise (registry : Bool)
  | cancel
  deriving DecidableEq

inductive Action where
  | expire
  | await (owner : Str) (call : Nat) (event : Event)

/-! ## Steps -/

def Publisher.move (p : Publisher) (call : Nat) (place : Place) : Publisher :=
  { p with place := Function.update p.place call place }

@[simp] theorem Publisher.place_move (p : Publisher) (call other : Nat) (place : Place) :
    (p.move call place).place other = if other = call then place else p.place other :=
  Function.update_apply p.place call place other

/-- The call leaves the lock. -/
def Publisher.release (p : Publisher) (call : Nat) (place : Place) : Publisher :=
  { p.move call place with locked := false }

@[simp] theorem Publisher.place_release (p : Publisher) (call other : Nat) (place : Place) :
    (p.release call place).place other = if other = call then place else p.place other :=
  p.place_move call other place

def Publisher.acquire (p : Publisher) (call : Nat) (place : Place) : Publisher :=
  if p.locked then p else { p.move call place with locked := true }

/-- Where a call goes on when its `refresh` has raised. -/
def afterFailure (errand : Errand) (fenced registry : Bool) : Place :=
  match errand with
  | .start => .idle
  | .heartbeat => if fenced then .idle else .asleep
  | .publish => if registry then .retrying else .idle

/-- Where it goes on otherwise; `start` leaves the heartbeat behind. -/
def afterRefresh : Errand → Place
  | .start => .asleep
  | .heartbeat => .asleep
  | .publish => .idle

/-- The script finds no live record of another owner. -/
def Claimable (record : Option Descriptor) (owner : Str) : Prop :=
  ∀ old, record = some old → old.owner = owner

instance (record : Option Descriptor) (owner : Str) : Decidable (Claimable record owner) :=
  match record with
  | none => isTrue fun _ h => nomatch h
  | some old =>
    decidable_of_iff (old.owner = owner) ⟨fun h _ heq => Option.some.inj heq ▸ h, fun h => h old rfl⟩

/-- `(publications + [publication])[-retain:]`; minus zero is the start of the list. -/
def announced (retain : Nat) (publications : List Publication) (publication : Publication) :
    List Publication :=
  let all := publications ++ [publication]
  if retain = 0 then all else all.drop (all.length - retain)

/-- What one event makes of the publisher whose call it is about. -/
def Publisher.handle (config : Config) (record : Option Descriptor) (owner : Str)
    (p : Publisher) (call : Nat) (event : Event) : Publisher :=
  match p.place call, event with
  | .idle, .start => p.move call .looking
  | .idle, .publish step => if p.fenced then p else p.move call (.packing step)
  | .looking, .proceed =>
    p.move call (if record.isSome then .idle else .refreshing .start .lock)
  | .asleep, .proceed => p.move call (.refreshing .heartbeat .lock)
  | .packing step, .packed digest size =>
    -- the latest publication is returned again, an older step refused
    if p.publications.getLast?.any fun previous => step ≤ previous.step then p.move call .idle
    else p.move call (.broadcasting step digest size)
  | .broadcasting step digest size, .proceed =>
    match Publication.make config.runId (.str config.baseModel) step digest size with
    | .error _ => p.move call .idle
    | .ok publication => p.move call (.entering publication)
  | .entering publication, .proceed => p.acquire call (.registering publication)
  | .registering publication, .proceed =>
    { p.release call (.refreshing .publish .lock) with
      publications := announced config.retainVersions p.publications publication }
  | .registering _, .raise registry => if registry then p else p.release call .idle
  | .refreshing errand .lock, .proceed => p.acquire call (.refreshing errand .script)
  | .refreshing errand .script, .proceed =>
    p.move call (.refreshing errand (.reply (Claimable record owner)))
  | .refreshing errand (.reply true), .proceed => p.move call (.refreshing errand .sources)
  | .refreshing errand (.reply false), .proceed =>
    { p.release call (afterFailure errand true false) with fenced := true }
  | .refreshing errand .sources, .proceed => p.release call (afterRefresh errand)
  | .refreshing _ .lock, .raise _ => p
  | .refreshing errand _, .raise registry => p.release call (afterFailure errand p.fenced registry)
  | .retrying, .proceed => p.move call (.refreshing .publish .lock)
  | .looking, .raise _ | .packing _, .raise _ | .broadcasting .., .raise _ => p.move call .idle
  | place, .cancel =>
    if place.holdsLock then p.release call .idle else p.move call .idle
  | _, _ => p

/-- The call is about to have its script run. -/
def Publisher.scripts (p : Publisher) (call : Nat) : Bool :=
  match p.place call with
  | .refreshing _ .script => true
  | _ => false

def step (config : Config) (s : System) : Action → System
  | .expire => { s with record := none }
  | .await owner call event =>
    let p := s.publisher owner
    { record :=
        if p.scripts call ∧ event = .proceed ∧ Claimable s.record owner then
          some ⟨owner, p.publications⟩
        else s.record
      publisher := Function.update s.publisher owner (p.handle config s.record owner call event) }

/-! ## What a step can do -/

/-- The record is not the owner's. -/
def Foreign (record : Option Descriptor) (owner : Str) : Prop :=
  ∀ old, record = some old → old.owner ≠ owner

/-- The changes an event can make to its publisher. -/
inductive Change (record : Option Descriptor) (owner : Str) (p : Publisher) (call : Nat) :
    Publisher → Prop where
  | stay : Change record owner p call p
  | move (place : Place) (same : place.holdsLock = (p.place call).holdsLock)
      (refused : ∀ errand, place = .refreshing errand (.reply false) → ¬ Claimable record owner) :
      Change record owner p call (p.move call place)
  | acquire (place : Place) (free : p.locked = false) (holds : place.holdsLock = true)
      (fresh : ∀ errand, place ≠ .refreshing errand (.reply false)) :
      Change record owner p call { p.move call place with locked := true }
  | release (place : Place) (publications : List Publication) (fenced : Bool)
      (held : (p.place call).holdsLock = true) (leaves : place.holdsLock = false)
      (told : fenced = p.fenced ∨ ∃ errand, p.place call = .refreshing errand (.reply false)) :
      Change record owner p call
        { p.release call place with publications := publications, fenced := fenced }

theorem acquire_change {record : Option Descriptor} {owner : Str} {p : Publisher} {call : Nat}
    {place : Place} (holds : place.holdsLock = true)
    (fresh : ∀ errand, place ≠ .refreshing errand (.reply false)) :
    Change record owner p call (p.acquire call place) := by
  rw [Publisher.acquire]
  split_ifs with hlocked
  · exact .stay
  · exact .acquire place (by simpa using hlocked) holds fresh

theorem afterFailure_holdsLock (errand : Errand) (fenced registry : Bool) :
    (afterFailure errand fenced registry).holdsLock = false := by
  cases errand with
  | start => rfl
  | heartbeat => cases fenced <;> rfl
  | publish => cases registry <;> rfl

theorem release_change {record : Option Descriptor} {owner : Str} {p : Publisher} {call : Nat}
    {place : Place} (held : (p.place call).holdsLock = true) (leaves : place.holdsLock = false) :
    Change record owner p call (p.release call place) :=
  .release place p.publications p.fenced held leaves (Or.inl rfl)

theorem move_change {record : Option Descriptor} {owner : Str} {p : Publisher} {call : Nat}
    {old place : Place} (h : p.place call = old) (same : place.holdsLock = old.holdsLock)
    (fresh : ∀ errand, place ≠ .refreshing errand (.reply false)) :
    Change record owner p call (p.move call place) :=
  .move place (by rw [h, same]) fun errand hreply => absurd hreply (fresh errand)

theorem handle_change (config : Config) (record : Option Descriptor) (owner : Str)
    (p : Publisher) (call : Nat) (event : Event) :
    Change record owner p call (p.handle config record owner call event) := by
  unfold Publisher.handle
  split
  -- a call begins
  · next h => exact move_change h rfl (by simp)
  · next h =>
    split_ifs
    · exact .stay
    · exact move_change h rfl (by simp)
  · next h =>
    split_ifs
    · exact move_change h rfl (by simp)
    · exact move_change h rfl (by simp)
  · next h => exact move_change h rfl (by simp)
  -- up to the lock of `publish`
  · next h =>
    split_ifs
    · exact move_change h rfl (by simp)
    · exact move_change h rfl (by simp)
  · next h =>
    split
    · exact move_change h rfl (by simp)
    · exact move_change h rfl (by simp)
  · exact acquire_change rfl (by simp)
  · next h => exact .release _ _ _ (by rw [h]; rfl) rfl (Or.inl rfl)
  · next h =>
    split_ifs
    · exact .stay
    · exact release_change (by rw [h]; rfl) rfl
  -- `refresh`
  · exact acquire_change rfl (by simp)
  · next errand h =>
    apply Change.move _ (by rw [h]; rfl)
    intro other hreply
    simp only [Place.refreshing.injEq, Stage.reply.injEq, decide_eq_false_iff_not] at hreply
    exact hreply.2
  · next h => exact move_change h rfl (by simp)
  · next errand h =>
    exact .release _ _ _ (by rw [h]; rfl) (afterFailure_holdsLock _ _ _) (Or.inr ⟨errand, h⟩)
  · next errand h => exact release_change (by rw [h]; rfl) (by cases errand <;> rfl)
  · exact .stay
  · next errand stage registry hstage h =>
    apply release_change _ (afterFailure_holdsLock _ _ _)
    rw [h]
    cases stage with
    | lock => exact absurd rfl hstage
    | script | reply | sources => rfl
  · next h => exact move_change h rfl (by simp)
  -- a wait that raises, or is cancelled
  · next h => exact move_change h rfl (by simp)
  · next h => exact move_change h rfl (by simp)
  · next h => exact move_change h rfl (by simp)
  · split_ifs with hheld
    · exact release_change hheld rfl
    · exact move_change (Eq.refl (p.place call)) (Bool.eq_false_of_not_eq_true hheld).symm (by simp)
  · exact .stay

/-! ## The lock, and what a refused call knows -/

/-- At most one call of a publisher is inside its lock, and a call the script
has refused, or a publisher that was told, finds no record of its own. -/
structure Sound (record : Option Descriptor) (owner : Str) (p : Publisher) : Prop where
  held : ∀ call, (p.place call).holdsLock = true → p.locked = true
  alone : ∀ call call', (p.place call).holdsLock = true → (p.place call').holdsLock = true →
    call = call'
  refused : ∀ call errand, p.place call = .refreshing errand (.reply false) → Foreign record owner
  fenced : p.fenced = true → Foreign record owner

theorem foreign_of_not_claimable {record : Option Descriptor} {owner : Str}
    (h : ¬ Claimable record owner) : Foreign record owner := by
  cases record with
  | none =>
    intro old hold
    cases hold
  | some old =>
    intro other hother howner
    obtain rfl := Option.some.inj hother
    exact h fun same hsame => Option.some.inj hsame ▸ howner

theorem Change.sound {record : Option Descriptor} {owner : Str} {p p' : Publisher} {call : Nat}
    (h : Change record owner p call p') (hp : Sound record owner p) : Sound record owner p' := by
  cases h with
  | stay => exact hp
  | move place same refused =>
    have hholds : ∀ other, ((p.move call place).place other).holdsLock =
        (p.place other).holdsLock := by
      intro other
      by_cases hcall : other = call
      · rw [hcall, ← same, p.place_move, if_pos rfl]
      · rw [p.place_move, if_neg hcall]
    refine ⟨?_, ?_, ?_, hp.fenced⟩
    · intro other hother
      exact hp.held other (hholds other ▸ hother)
    · intro one other hone hother
      exact hp.alone one other (hholds one ▸ hone) (hholds other ▸ hother)
    · intro other errand hreply
      rw [p.place_move] at hreply
      split_ifs at hreply
      · exact foreign_of_not_claimable (refused errand hreply)
      · exact hp.refused other errand hreply
  | acquire place free holds fresh =>
    -- nobody else is inside
    have hnone : ∀ other, (p.place other).holdsLock = false := by
      intro other
      by_contra hheld
      have hlocked := hp.held other (by simpa using hheld)
      rw [free] at hlocked
      cases hlocked
    have hcall : ∀ other, ((p.move call place).place other).holdsLock = true → other = call := by
      intro other hother
      by_contra hne
      rw [p.place_move, if_neg hne, hnone] at hother
      cases hother
    refine ⟨fun _ _ => rfl, ?_, ?_, hp.fenced⟩
    · intro one other hone hother
      exact (hcall one hone).trans (hcall other hother).symm
    · intro other errand hreply
      simp only [p.place_move] at hreply
      split_ifs at hreply
      · exact absurd hreply (fresh errand)
      · exact hp.refused other errand hreply
  | release place publications fenced held leaves told =>
    have hnone : ∀ other, ((p.release call place).place other).holdsLock = false := by
      intro other
      rw [p.place_release]
      split_ifs with hcall
      · exact leaves
      · by_contra hheld
        exact hcall (hp.alone other call (by simpa using hheld) held)
    refine ⟨?_, ?_, ?_, ?_⟩
    · intro other hother
      exact absurd ((hnone other).symm.trans hother) Bool.false_ne_true
    · intro one other hone _
      exact absurd ((hnone one).symm.trans hone) Bool.false_ne_true
    · intro other errand hreply
      simp only [p.place_release] at hreply
      split_ifs at hreply
      · rw [hreply] at leaves
        cases leaves
      · exact hp.refused other errand hreply
    · intro hfenced
      rcases told with rfl | ⟨errand, hreply⟩
      · exact hp.fenced hfenced
      · exact hp.refused call errand hreply

/-! ## Runs -/

/-- The step has the script of one of the owner's calls run. -/
def RunsScript (s : System) (a : Action) (owner : Str) : Prop :=
  ∃ call, a = .await owner call .proceed ∧ (s.publisher owner).scripts call = true

/-- The step writes the owner's descriptor. -/
def Writes (s : System) (a : Action) (owner : Str) : Prop :=
  RunsScript s a owner ∧ Claimable s.record owner

/-- The record changes only by expiring or being written. -/
theorem step_record (config : Config) (s : System) (a : Action) :
    (a = .expire ∧ (step config s a).record = none) ∨ (step config s a).record = s.record ∨
      ∃ owner, Writes s a owner ∧
        (step config s a).record = some ⟨owner, (s.publisher owner).publications⟩ := by
  cases a with
  | expire => exact Or.inl ⟨rfl, rfl⟩
  | await owner call event =>
    simp only [step]
    split_ifs with hwrites
    · obtain ⟨hscripts, rfl, hclaimable⟩ := hwrites
      exact Or.inr (Or.inr ⟨owner, ⟨⟨call, rfl, hscripts⟩, hclaimable⟩, rfl⟩)
    · exact Or.inr (Or.inl rfl)

/-- Every publisher's lock and what it has been told agree with the record. -/
def Consistent (s : System) : Prop := ∀ owner, Sound s.record owner (s.publisher owner)

theorem consistent_initial : Consistent {} := by
  intro owner
  refine ⟨?_, ?_, ?_, ?_⟩
  · intro call hcall
    cases hcall
  · intro call call' hcall
    cases hcall
  · intro call errand hcall
    cases hcall
  · intro hfenced
    cases hfenced

/-- A change of the record keeps a publisher sound when its own descriptor does
not appear under what it was told. -/
theorem Sound.of_record {record record' : Option Descriptor} {owner : Str} {p : Publisher}
    (hp : Sound record owner p)
    (hrecord : (∃ call errand, p.place call = .refreshing errand (.reply false)) ∨
      p.fenced = true → Foreign record' owner) : Sound record' owner p :=
  ⟨hp.held, hp.alone, fun call errand h => hrecord (Or.inl ⟨call, errand, h⟩),
    fun h => hrecord (Or.inr h)⟩

/-- The call whose script wrote was the only one inside the lock. -/
theorem not_told_of_writes {config : Config} {s : System} {a : Action} {owner : Str}
    (hs : Consistent s) (hwrites : Writes s a owner)
    (hnot : (s.publisher owner).fenced = false) :
    ¬ ((∃ call errand, ((step config s a).publisher owner).place call =
        .refreshing errand (.reply false)) ∨ ((step config s a).publisher owner).fenced = true) := by
  obtain ⟨⟨call, rfl, hscripts⟩, hclaimable⟩ := hwrites
  obtain ⟨errand, hscript⟩ : ∃ errand, (s.publisher owner).place call =
      .refreshing errand .script := by
    rw [Publisher.scripts] at hscripts
    split at hscripts
    · next errand hplace => exact ⟨errand, hplace⟩
    · cases hscripts
  have hmoved : (step config s (.await owner call .proceed)).publisher owner =
      (s.publisher owner).move call (.refreshing errand (.reply true)) := by
    simp [step, Publisher.handle, hscript, hclaimable]
  rw [hmoved]
  rintro (⟨other, errand', hreply⟩ | hfenced)
  · rw [Publisher.place_move] at hreply
    split_ifs at hreply with hcall
    · cases hreply
    · exact hcall ((hs owner).alone other call (by rw [hreply]; rfl) (by rw [hscript]; rfl))
  · have hfenced' : (s.publisher owner).fenced = true := hfenced
    rw [hnot] at hfenced'
    cases hfenced'

theorem Consistent.step {config : Config} {s : System} {a : Action} (hs : Consistent s)
    (hnot : ∀ owner, Writes s a owner → (s.publisher owner).fenced = false) :
    Consistent (step config s a) := by
  -- first the publisher whose call moves, then the record
  have hmoved : ∀ owner, Sound s.record owner ((Lease.step config s a).publisher owner) := by
    intro owner
    cases a with
    | expire => exact hs owner
    | await actor call event =>
      simp only [Lease.step, Function.update_apply]
      split_ifs with howner
      · subst howner
        exact (handle_change config s.record owner _ call event).sound (hs owner)
      · exact hs owner
  intro owner
  rcases step_record config s a with ⟨rfl, hnone⟩ | hsame | ⟨writer, hwrites, hwritten⟩
  · rw [hnone]
    refine (hmoved owner).of_record ?_
    intro _ old hold
    cases hold
  · rw [hsame]
    exact hmoved owner
  · refine (hmoved owner).of_record ?_
    intro htold old hold
    rw [hwritten] at hold
    obtain rfl := Option.some.inj hold
    rintro rfl
    exact not_told_of_writes hs hwrites (hnot writer hwrites) htold

/-- A fenced publisher's script runs while the run has no live record. -/
def Overtaken (s : System) (a : Action) : Prop :=
  ∃ owner, (s.publisher owner).fenced = true ∧ RunsScript s a owner ∧ s.record = none

theorem fenced_writes_iff {s : System} {a : Action} (hs : Consistent s) :
    (∃ owner, (s.publisher owner).fenced = true ∧ Writes s a owner) ↔ Overtaken s a := by
  constructor
  · rintro ⟨owner, hfenced, hruns, hclaimable⟩
    refine ⟨owner, hfenced, hruns, ?_⟩
    -- what a fenced publisher could still claim is no record of another, nor its own
    cases hrecord : s.record with
    | none => rfl
    | some old => exact absurd (hclaimable old hrecord) ((hs owner).fenced hfenced old hrecord)
  · rintro ⟨owner, hfenced, hruns, hnone⟩
    refine ⟨owner, hfenced, hruns, ?_⟩
    intro old hold
    rw [hnone] at hold
    cases hold

/-- **A fenced publisher writes only into an expired record.** In every
interleaving of the calls of any number of publishers with the expiries of the
record, no fenced publisher ever writes the descriptor of the run again exactly
when the script of no fenced publisher runs while the run has no live record. -/
theorem fenced_never_writes_iff (config : Config) (actions : List Action) :
    Runs.EveryStep (step config)
        (fun s a => ∀ owner, (s.publisher owner).fenced = true → ¬ Writes s a owner) {} actions ↔
      Runs.EveryStep (step config) (fun s a => ¬ Overtaken s a) {} actions := by
  suffices h : ∀ s, Consistent s →
      (Runs.EveryStep (step config)
        (fun s a => ∀ owner, (s.publisher owner).fenced = true → ¬ Writes s a owner) s actions ↔
      Runs.EveryStep (step config) (fun s a => ¬ Overtaken s a) s actions) from
    h {} consistent_initial
  induction actions with
  | nil => exact fun _ _ => Iff.rfl
  | cons a rest ih =>
    intro s hs
    have hhere : (∀ owner, (s.publisher owner).fenced = true → ¬ Writes s a owner) ↔
        ¬ Overtaken s a := by
      rw [← fenced_writes_iff hs]
      simp only [not_exists, not_and]
    have hnext : ¬ Overtaken s a → Consistent (step config s a) := by
      intro hnot
      apply hs.step
      intro owner hwrites
      by_contra hfenced
      exact hhere.mpr hnot owner (by simpa using hfenced) hwrites
    constructor
    · rintro ⟨hfirst, hrest⟩
      exact ⟨hhere.mp hfirst, (ih _ (hnext (hhere.mp hfirst))).mp hrest⟩
    · rintro ⟨hfirst, hrest⟩
      exact ⟨hhere.mpr hfirst, (ih _ (hnext hfirst)).mpr hrest⟩

/-- A publish is broadcasting while its publisher is replaced and fenced; the
replacement's lease ends before it goes on. -/
def overtakenRun : List Action :=
  let proceed (owner : String) (call : Nat) : Action := .await (str owner) call .proceed
  .await (str "a") 0 .start :: List.replicate 5 (proceed "a" 0) ++
    [.await (str "a") 1 (.publish 0),
      .await (str "a") 1 (.packed (List.replicate 64 (.ofChar '0')) 17), .expire,
      .await (str "b") 0 .start] ++ List.replicate 5 (proceed "b" 0) ++
    List.replicate 4 (proceed "a" 0) ++ .expire :: List.replicate 4 (proceed "a" 1)

theorem fenced_publisher_writes :
    ¬ ∀ (config : Config) (actions : List Action), Runs.EveryStep (step config)
      (fun s a => ∀ owner, (s.publisher owner).fenced = true → ¬ Writes s a owner) {} actions := by
  intro claim
  let config : Config := ⟨str "run", str "model", 2⟩
  have hlast := (claim config (overtakenRun ++ [.await (str "a") 1 .proceed])).here
  refine hlast (str "a") (by decide +kernel) ⟨⟨1, rfl, by decide +kernel⟩, ?_⟩
  have hnone : (overtakenRun.foldl (step config) {}).record = none :=
    Option.isNone_iff_eq_none.mp (by decide +kernel)
  intro old hold
  rw [hnone] at hold
  cases hold

end Litecast.Lease
