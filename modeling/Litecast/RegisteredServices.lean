import Litecast.MiddleSession
import Litecast.SourceFailover

/-! What a session has registered it has verified, it keeps no registration past
its version, and it leaves none behind. -/

namespace Litecast.MiddleSession

/-! ## Traces -/

/-- A service is registered and has not been withdrawn since. -/
def Live (trace : List Event) (service : Str) : Prop :=
  ∃ before version after, trace = before ++ .registered service version :: after ∧
    .withdrawn service ∉ after

theorem not_live_nil (service : Str) : ¬ Live [] service := by
  rintro ⟨before, version, after, h, -⟩
  simp at h

theorem live_concat {trace : List Event} {event : Event} {service : Str} :
    Live (trace ++ [event]) service ↔
      (∃ version, event = .registered service version) ∨
        (Live trace service ∧ event ≠ .withdrawn service) := by
  constructor
  · rintro ⟨before, version, after, h, hkept⟩
    rcases List.eq_nil_or_concat after with rfl | ⟨more, last, rfl⟩
    · obtain ⟨-, hlast⟩ := List.append_inj' h rfl
      exact Or.inl ⟨version, List.singleton_inj.mp hlast⟩
    · rw [List.concat_eq_append] at h hkept
      rw [← List.cons_append, ← List.append_assoc] at h
      obtain ⟨rfl, hlast⟩ := List.append_inj' h rfl
      obtain rfl := List.singleton_inj.mp hlast
      rw [List.mem_append, not_or, List.mem_singleton] at hkept
      exact Or.inr ⟨⟨before, version, more, rfl, hkept.1⟩, fun h => hkept.2 h.symm⟩
  · rintro (⟨version, rfl⟩ | ⟨⟨before, version, after, rfl, hkept⟩, hne⟩)
    · exact ⟨trace, version, [], rfl, by simp⟩
    · refine ⟨before, version, after ++ [event], by simp, ?_⟩
      rw [List.mem_append, not_or, List.mem_singleton]
      exact ⟨hkept, fun h => hne h.symm⟩

/-- Withdrawing ends what is registered, and registers nothing. -/
theorem live_append_withdrawn {trace : List Event} {services : List Str} {service : Str} :
    Live (trace ++ services.map Event.withdrawn) service ↔
      Live trace service ∧ service ∉ services := by
  induction services generalizing trace with
  | nil => simp
  | cons first rest ih =>
    rw [List.map_cons, ← List.singleton_append, ← List.append_assoc, ih, live_concat, List.mem_cons]
    simp only [reduceCtorEq, exists_false, false_or, ne_eq, Event.withdrawn.injEq, not_or,
      eq_comm (a := first), and_assoc]

/-- Bytes the middle itself served under this version were verified for the
service's publication before it was registered. -/
def Vouched [Library] [BundleLibrary] (args : Args) (trace : List Event) (service version : Str) :
    Prop :=
  ∃ (publication : Publication) (payload : Bytes) (before between after : List Event),
    trace = before ++ .downloaded version payload ::
      (between ++ .registered service version :: after) ∧
    publication.runId = args.runId ∧ service = peerService args.runId publication.digest ∧
    publication.verify args.nestingLimit payload = .ok ()

theorem Vouched.append [Library] [BundleLibrary] {args : Args} {trace : List Event}
    {service version : Str} (h : Vouched args trace service version) (more : List Event) :
    Vouched args (trace ++ more) service version := by
  obtain ⟨publication, payload, before, between, after, rfl, hrun, hservice, hverify⟩ := h
  exact ⟨publication, payload, before, between, after ++ more, by simp, hrun, hservice, hverify⟩

/-- The events of the pass that began by reading this. -/
def SinceRead (trace : List Event) (descriptor : Option Descriptor) (events : List Event) : Prop :=
  ∃ before, trace = before ++ .read descriptor :: events ∧
    ∀ other, Event.read other ∉ events

theorem SinceRead.append {trace : List Event} {descriptor : Option Descriptor}
    {events : List Event} (h : SinceRead trace descriptor events) {more : List Event}
    (hmore : ∀ other, Event.read other ∉ more) :
    SinceRead (trace ++ more) descriptor (events ++ more) := by
  obtain ⟨before, rfl, hnone⟩ := h
  refine ⟨before, by simp, fun other => ?_⟩
  rw [List.mem_append, not_or]
  exact ⟨hnone other, hmore other⟩

theorem SinceRead.single {trace : List Event} {descriptor : Option Descriptor} {events : List Event}
    (h : SinceRead trace descriptor events) {event : Event} (hevent : ∀ other, .read other ≠ event) :
    SinceRead (trace ++ [event]) descriptor (events ++ [event]) :=
  h.append fun other hmem => hevent other (List.mem_singleton.mp hmem)

theorem sinceRead_now (trace : List Event) (descriptor : Option Descriptor) :
    SinceRead (trace ++ [.read descriptor]) descriptor [] :=
  ⟨trace, rfl, fun _ h => nomatch h⟩

/-! ## Invariants -/

def services (args : Args) (publications : List Publication) : List Str :=
  publications.map fun p => peerService args.runId p.digest

/-- A registration belongs to the publications of the pass, and its version was
found in the store. -/
def Kept (args : Args) (publications : List Publication) (events : List Event)
    (service version : Str) : Prop :=
  service ∈ services args publications ∧ .held service version ∈ events

theorem Kept.append {args : Args} {publications : List Publication} {events : List Event}
    {service version : Str} (h : Kept args publications events service version)
    (more : List Event) : Kept args publications (events ++ more) service version :=
  ⟨h.1, List.mem_append_left _ h.2⟩

/-- At the end of a pass. -/
def PassKept (args : Args) (s : Session) : Prop :=
  ∃ descriptor events, SinceRead s.trace descriptor events ∧
    match descriptor with
    | none => s.registrations.keys = []
    | some desired => ∃ publications, desired.publications = .ok publications ∧
        ∀ service version, s.registrations.get? service = some version →
          Kept args publications events service version

/-- The pass serves the publications of the descriptor it read. -/
def Following (s : Session) (publications : List Publication) : Prop :=
  ∃ desired events, SinceRead s.trace (some desired) events ∧
    desired.publications = .ok publications ∧ s.owner = some desired.owner

/-- All registrations but those left have been checked. -/
def Checked (args : Args) (s : Session) (publications : List Publication)
    (left : List (Str × Str)) : Prop :=
  ∃ desired events, SinceRead s.trace (some desired) events ∧
    desired.publications = .ok publications ∧
    ∀ service version, s.registrations.get? service = some version →
      (service, version) ∈ left ∨ Kept args publications events service version

/-- What holds of the pass so far. -/
def PassSound (args : Args) (s : Session) : Prop :=
  match s.phase with
  | .top => True
  | .withdrawing left => (∃ events, SinceRead s.trace none events) ∧
      ∀ service, Live s.trace service → service ∈ left
  | .serving _ publications _ => Following s publications
  | .keeping publications left => Checked args s publications left
  | .waiting => PassKept args s
  | .ended => ∀ service, ¬ Live s.trace service

section
variable [Library] [BundleLibrary]

/-- What holds wherever the session is. -/
structure Sound (args : Args) (s : Session) : Prop where
  vouched : ∀ service version, s.registrations.get? service = some version →
    Vouched args s.trace service version
  started : s.registrations.keys ≠ [] ∨ s.middle = true → ∃ owner, .started owner ∈ s.trace
  owned : ∀ owner, .started owner ∈ s.trace → s.owner = owner ∧ owner.isSome = true ∧ s.middle = true
  live : ∀ service, Live s.trace service → service ∈ s.registrations.keys

variable {args : Args} {s : Session}

theorem leave_sound (hs : Sound args s) : Sound args s.leave ∧ PassSound args s.leave := by
  have hgone (service : Str) : ¬ Live s.leave.trace service := by
    intro hlive
    obtain ⟨hlive, hnot⟩ := live_append_withdrawn.mp hlive
    exact hnot (hs.live service hlive)
  have hstarted (owner : Option Str) (h : Event.started owner ∈ s.leave.trace) :
      .started owner ∈ s.trace := by
    rcases List.mem_append.mp h with h | h
    · exact h
    · obtain ⟨service, -, h⟩ := List.mem_map.mp h
      cases h
  refine ⟨⟨?_, ?_, ?_, ?_⟩, hgone⟩
  · intro service version hregistered
    exact (hs.vouched service version hregistered).append _
  · intro h
    obtain ⟨owner, howner⟩ := hs.started h
    exact ⟨owner, List.mem_append_left _ howner⟩
  · exact fun owner h => hs.owned owner (hstarted owner h)
  · exact fun service hlive => absurd hlive (hgone service)

/-- An event that neither registers nor starts anything. -/
theorem log_sound (hs : Sound args s) {event : Event}
    (hregistered : ∀ service version, event ≠ .registered service version)
    (hstarted : ∀ owner, event ≠ .started owner) : Sound args (s.log [event]) where
  vouched := fun service version h => (hs.vouched service version h).append _
  started := by
    intro h
    obtain ⟨owner, howner⟩ := hs.started h
    exact ⟨owner, List.mem_append_left _ howner⟩
  owned := by
    intro owner h
    rcases List.mem_append.mp h with h | h
    · exact hs.owned owner h
    · exact absurd (List.mem_singleton.mp h).symm (hstarted owner)
  live := by
    intro service hlive
    rcases live_concat.mp hlive with ⟨version, h⟩ | ⟨h, -⟩
    · exact absurd h (hregistered service version)
    · exact hs.live service h

/-! ## One turn -/

theorem Sound.phase (hs : Sound args s) (phase : Phase) : Sound args { s with phase := phase } :=
  ⟨hs.vouched, hs.started, hs.owned, hs.live⟩

namespace Session

theorem readDescriptor_sound (hs : Sound args s) (a : Answer) :
    Sound args (s.readDescriptor a) ∧ PassSound args (s.readDescriptor a) := by
  unfold readDescriptor
  have hread (descriptor : Option Descriptor) : Sound args (s.log [.read descriptor]) :=
    log_sound hs (fun _ _ h => nomatch h) fun _ h => nomatch h
  cases a.raw with
  | error e => exact leave_sound hs
  | ok raw =>
    cases raw with
    | none =>
      refine ⟨(hread none).phase _, ⟨[], sinceRead_now _ _⟩, ?_⟩
      exact fun service hlive => (hread none).live service hlive
    | some desired =>
      simp only
      split
      · exact leave_sound (hread _)
      · split
        · exact leave_sound (hread _)
        · next hguard =>
          have hfollowed :
              Sound args { s.log [.read (some desired)] with owner := some desired.owner } := by
            refine ⟨(hread _).vouched, (hread _).started, fun owner howner => ?_, (hread _).live⟩
            obtain ⟨hsame, hsome, hmiddle⟩ := (hread _).owned owner howner
            refine ⟨?_, hsome, hmiddle⟩
            -- a middle that runs bars every other owner
            by_contra hne
            apply hguard
            refine ⟨hsame ▸ hsome, ?_, Or.inl hmiddle⟩
            intro h
            exact hne (h.symm.trans hsame)
          split
          · next publications models hpublications _ =>
            exact ⟨hfollowed.phase _, desired, [], sinceRead_now _ _, hpublications, rfl⟩
          · exact leave_sound hfollowed

theorem startMiddle_sound {publications : List Publication} {a : Answer} {s' : Session}
    (hs : Sound args s) (hfollowing : Following s publications) (h : s.startMiddle a = .ok s') :
    Sound args s' ∧ Following s' publications ∧ s'.middle = true ∧ s'.phase = s.phase := by
  unfold startMiddle at h
  split at h
  · next hmiddle =>
    obtain rfl := Except.ok.inj h
    exact ⟨hs, hfollowing, hmiddle, rfl⟩
  · next hmiddle =>
    obtain ⟨desired, events, hsince, hpublications, howner⟩ := hfollowing
    cases hnew : a.middle with
    | error e => rw [hnew] at h; cases h
    | ok _ =>
      rw [hnew] at h
      obtain rfl := Except.ok.inj h
      refine ⟨⟨?_, ?_, ?_, ?_⟩, ?_, rfl, rfl⟩
      · exact fun service version h => (hs.vouched service version h).append _
      · exact fun _ => ⟨s.owner, List.mem_append_right _ List.mem_cons_self⟩
      · intro other hother
        rcases List.mem_append.mp hother with h | h
        · exact absurd (hs.owned other h).2.2 hmiddle
        · cases List.mem_singleton.mp h
          exact ⟨rfl, by rw [howner]; rfl, rfl⟩
      · intro service hlive
        rcases live_concat.mp hlive with ⟨version, h⟩ | ⟨h, -⟩
        · cases h
        · exact hs.live service h
      · have hstarted : SinceRead (s.trace ++ [.started s.owner]) (some desired)
            (events ++ [.started s.owner]) := hsince.single fun _ h => nomatch h
        exact ⟨desired, _, hstarted, hpublications, howner⟩

theorem register_sound {models : Models} {publications left : List Publication}
    {publication : Publication} {version : Str} {a : Answer} (hs : Sound args s)
    (hphase : s.phase = .serving models publications left) (hfollowing : Following s publications)
    (hmiddle : s.middle = true) (hrun : publication.runId = args.runId) :
    Sound args (s.register args publication version a) ∧
      PassSound args (s.register args publication version a) := by
  unfold register
  split
  · next payload hpayload =>
    split
    · next hverify _ =>
      obtain ⟨owner, howner⟩ := hs.started (Or.inr hmiddle)
      obtain ⟨desired, events, hsince, hpublications, hfollowed⟩ := hfollowing
      refine ⟨⟨?_, ?_, ?_, ?_⟩, ?_⟩
      · intro service other hget
        rw [OrderedDict.get?_insert] at hget
        split at hget
        · next hservice =>
          cases hget
          subst hservice
          exact ⟨publication, payload, s.trace, [], [], rfl, hrun, rfl, hverify⟩
        · exact (hs.vouched service other hget).append _
      · exact fun _ => ⟨owner, List.mem_append_left _ howner⟩
      · intro other hother
        rcases List.mem_append.mp hother with h | h
        · exact hs.owned other h
        · simp at h
      · intro service hlive
        rw [OrderedDict.mem_keys_iff]
        simp only [OrderedDict.get?_insert]
        replace hlive : Live (s.trace ++ [.downloaded version payload] ++
            [.registered (peerService args.runId publication.digest) version]) service := by
          rw [List.append_assoc]
          exact hlive
        rw [live_concat, live_concat] at hlive
        rcases hlive with ⟨other, h⟩ | ⟨⟨other, h⟩ | ⟨h, -⟩, -⟩
        · cases h
          exact ⟨version, if_pos rfl⟩
        · cases h
        · obtain ⟨other, hother⟩ := OrderedDict.mem_keys_iff.mp (hs.live service h)
          split
          · exact ⟨version, rfl⟩
          · exact ⟨other, hother⟩
      · show PassSound args _
        unfold PassSound
        rw [show ({ s.log _ with registrations := _ } : Session).phase = _ from hphase]
        exact ⟨desired, _, hsince.append (by simp), hpublications, hfollowed⟩
    · exact leave_sound hs
  · exact leave_sound hs

theorem serveOne_sound {models : Models} {publications left : List Publication}
    {publication : Publication} (hs : Sound args s)
    (hphase : s.phase = .serving models publications left) (hfollowing : Following s publications)
    (a : Answer) :
    Sound args (s.serveOne args models publication a) ∧
      PassSound args (s.serveOne args models publication a) := by
  have hpass {s : Session} (hphase : s.phase = .serving models publications left)
      (h : Following s publications) : PassSound args s := by
    unfold PassSound
    rw [hphase]
    exact h
  unfold serveOne
  split
  · exact leave_sound hs
  · next hlimits =>
    simp only
    split
    · exact ⟨hs, hpass hphase hfollowing⟩
    · exact leave_sound hs
    · split
      · exact leave_sound hs
      · next started hstarted =>
        obtain ⟨hs', hfollowing', hmiddle, hsame⟩ := startMiddle_sound hs hfollowing hstarted
        rw [hphase] at hsame
        split
        · exact ⟨hs', hpass hsame hfollowing'⟩
        · exact register_sound hs' hsame hfollowing' hmiddle (by grind)

theorem keepOne_sound {publications : List Publication} {left : List (Str × Str)}
    {service version : Str} (hs : Sound args s) (hphase : s.phase = .keeping publications left)
    (hchecked : Checked args s publications ((service, version) :: left)) (a : Answer) :
    Sound args (s.keepOne args publications service version a) ∧
      PassSound args (s.keepOne args publications service version a) := by
  obtain ⟨desired, events, hsince, hpublications, hall⟩ := hchecked
  have hpass {s : Session} (hphase : s.phase = .keeping publications left)
      (h : Checked args s publications left) : PassSound args s := by
    unfold PassSound
    rw [hphase]
    exact h
  unfold keepOne
  simp only
  split
  · cases a.deregister with
    | error e => exact leave_sound hs
    | ok _ =>
      have hlogged : Sound args (s.log [.withdrawn service]) :=
        log_sound hs (fun _ _ h => by cases h) fun _ h => by cases h
      have hother {other kept : Str} (h : (s.registrations.erase service).get? other = some kept) :
          other ≠ service ∧ s.registrations.get? other = some kept := by
        rw [OrderedDict.get?_erase] at h
        split at h
        · cases h
        · exact ⟨‹_›, h⟩
      refine ⟨⟨?_, ?_, hlogged.owned, ?_⟩, hpass hphase ?_⟩
      · exact fun other kept h => hlogged.vouched other kept (hother h).2
      · rintro (hsome | hmiddle)
        · obtain ⟨other, hmem⟩ := List.exists_mem_of_ne_nil _ hsome
          obtain ⟨kept, hget⟩ := OrderedDict.mem_keys_iff.mp hmem
          apply hlogged.started
          left
          exact List.ne_nil_of_mem (OrderedDict.mem_keys_iff.mpr ⟨kept, (hother hget).2⟩)
        · exact hlogged.started (Or.inr hmiddle)
      · intro other hlive
        rcases live_concat.mp hlive with ⟨kept, h⟩ | ⟨h, hne⟩
        · cases h
        · obtain ⟨kept, hget⟩ := OrderedDict.mem_keys_iff.mp (hs.live other h)
          refine OrderedDict.mem_keys_iff.mpr ⟨kept, ?_⟩
          rw [OrderedDict.get?_erase, if_neg, hget]
          rintro rfl
          exact hne rfl
      · have hwithdrawn : SinceRead (s.trace ++ [.withdrawn service]) (some desired)
            (events ++ [.withdrawn service]) := hsince.single fun _ h => by cases h
        refine ⟨desired, _, hwithdrawn, hpublications, ?_⟩
        intro other kept h
        obtain ⟨hne, hget⟩ := hother h
        rcases hall other kept hget with hmem | hkept
        · rcases List.mem_cons.mp hmem with h | h
          · cases h
            exact absurd rfl hne
          · exact Or.inl h
        · exact Or.inr (hkept.append _)
  · next hheld =>
    cases a.heartbeat with
    | error e => exact leave_sound hs
    | ok _ =>
      have hlogged : Sound args (s.log [.held service version]) :=
        log_sound hs (fun _ _ h => by cases h) fun _ h => by cases h
      have hchecked : SinceRead (s.trace ++ [.held service version]) (some desired)
          (events ++ [.held service version]) := hsince.single fun _ h => by cases h
      rw [not_or, not_not] at hheld
      refine ⟨hlogged, hpass hphase ⟨desired, _, hchecked, hpublications, ?_⟩⟩
      intro other kept hget
      rcases hall other kept hget with hmem | hkept
      · rcases List.mem_cons.mp hmem with h | h
        · cases h
          exact Or.inr ⟨hheld.1, List.mem_append_right _ List.mem_cons_self⟩
        · exact Or.inl h
      · exact Or.inr (hkept.append _)

/-! ## Runs -/

theorem step_sound (h : Sound args s ∧ PassSound args s) (a : Answer) :
    Sound args (s.step args a) ∧ PassSound args (s.step args a) := by
  obtain ⟨hs, hpass⟩ := h
  unfold PassSound at hpass
  unfold step
  cases hphase : s.phase with
  | top =>
    simp only
    split
    · exact leave_sound hs
    · exact readDescriptor_sound hs a
  | withdrawing left =>
    rw [hphase] at hpass
    obtain ⟨⟨events, hsince⟩, hleft⟩ := hpass
    cases left with
    | nil =>
      refine ⟨⟨?_, ?_, hs.owned, ?_⟩, none, events, hsince, rfl⟩
      · exact fun _ _ h => nomatch h
      · rintro (h | h)
        · exact absurd rfl h
        · exact hs.started (Or.inr h)
      · exact fun service hlive => absurd (hleft service hlive) List.not_mem_nil
    | cons service left =>
      cases a.deregister with
      | error e => exact leave_sound hs
      | ok _ =>
        have hlogged : Sound args (s.log [.withdrawn service]) :=
          log_sound hs (fun _ _ h => nomatch h) fun _ h => nomatch h
        refine ⟨hlogged.phase _, ⟨_, hsince.single fun _ h => nomatch h⟩, ?_⟩
        intro other hlive
        rcases live_concat.mp hlive with ⟨version, h⟩ | ⟨h, hne⟩
        · cases h
        · rcases List.mem_cons.mp (hleft other h) with rfl | h
          · exact absurd rfl hne
          · exact h
  | serving models publications left =>
    rw [hphase] at hpass
    cases left with
    | nil =>
      obtain ⟨desired, events, hsince, hpublications, -⟩ := hpass
      refine ⟨hs.phase _, desired, events, hsince, hpublications, ?_⟩
      exact fun service version h => Or.inl (OrderedDict.get?_eq_some_iff.mp h)
    | cons publication left => exact serveOne_sound (hs.phase _) rfl hpass a
  | keeping publications left =>
    rw [hphase] at hpass
    cases left with
    | nil =>
      obtain ⟨desired, events, hsince, hpublications, hall⟩ := hpass
      refine ⟨hs.phase _, some desired, events, hsince, publications, hpublications, ?_⟩
      intro service version h
      rcases hall service version h with h | h
      · cases h
      · exact h
    | cons registration left =>
      obtain ⟨service, version⟩ := registration
      exact keepOne_sound (hs.phase _) rfl hpass a
  | waiting =>
    cases a.wait with
    | error e => exact leave_sound hs
    | ok _ => exact ⟨hs.phase _, trivial⟩
  | ended =>
    rw [hphase] at hpass
    refine ⟨hs, ?_⟩
    unfold PassSound
    rw [hphase]
    exact hpass

theorem start_sound (args : Args) : Sound args (start args) ∧ PassSound args (start args) := by
  have hs (phase : Phase) : Sound args { phase := phase } := by
    refine ⟨?_, ?_, ?_, ?_⟩
    · exact fun _ _ h => nomatch h
    · rintro (h | h)
      · exact absurd rfl h
      · cases h
    · exact fun _ h => nomatch h
    · exact fun service h => absurd h (not_live_nil service)
  unfold start
  split
  · exact ⟨hs _, trivial⟩
  · exact ⟨hs _, not_live_nil⟩

theorem serve_sound (args : Args) (answers : List Answer) :
    Sound args (serve args answers) ∧ PassSound args (serve args answers) := by
  have hkeep (s : Session) (a : Answer) (h : Sound args s ∧ PassSound args s) :
      Sound args (step args s a) ∧ PassSound args (step args s a) := step_sound h a
  exact Runs.foldl_keeps hkeep (start_sound args) answers

/-- In every run: what is registered was verified in this session, and the owner
is the one the middle was started under. A completed pass keeps registrations of
its own publications only, each with its version in the store. A session that
ended has nothing registered. -/
theorem registered_verified (args : Args) (answers : List Answer) :
    (∀ service version, (serve args answers).registrations.get? service = some version →
      Vouched args (serve args answers).trace service version ∧
        (∃ owner, .started owner ∈ (serve args answers).trace) ∧
        ∀ owner, .started owner ∈ (serve args answers).trace →
          (serve args answers).owner = owner ∧ owner.isSome = true) ∧
      ((serve args answers).phase = .waiting → PassKept args (serve args answers)) ∧
      ((serve args answers).phase = .ended →
        ∀ service, ¬ Live (serve args answers).trace service) := by
  obtain ⟨hs, hpass⟩ := serve_sound args answers
  unfold PassSound at hpass
  refine ⟨?_, ?_, ?_⟩
  · intro service version hget
    refine ⟨hs.vouched service version hget, ?_, ?_⟩
    · apply hs.started
      left
      exact List.ne_nil_of_mem (OrderedDict.mem_keys_iff.mpr ⟨version, hget⟩)
    · intro owner howner
      obtain ⟨hsame, hsome, -⟩ := hs.owned owner howner
      exact ⟨hsame, hsome⟩
  · intro hphase
    rw [hphase] at hpass
    exact hpass
  · intro hphase
    rw [hphase] at hpass
    exact hpass

end Session

end

def Phase.isWaiting : Phase → Bool
  | .waiting => true
  | _ => false

/-- One service is verified, registered and kept in the first pass. -/
theorem Session.registered_verified_one_service :
    let _ := asciiLibrary
    let _ := bundleLibrary
    let args : Args := ⟨str "run", 64, 1000⟩
    let desired : Descriptor := ⟨.int 1, str "publisher", .ok [bundlePublication]⟩
    let answer : Answer := {
      stopped := false, raw := .ok (some desired), models := .ok bundleModels, middle := .ok ()
      cached := true, payload := .ok (some bundle), register := .ok (), deregister := .ok ()
      held := true, heartbeat := .ok (), wait := .ok () }
    let s := Session.serve args (List.replicate 5 answer)
    let service := peerService (str "run") bundleDigest
    s.registrations.get? service = some (str "v1") ∧
      Vouched args s.trace service (str "v1") ∧ PassKept args s := by
  intro _ _ args desired answer s service
  have hregistered : s.registrations.get? service = some (str "v1") := by decide +kernel
  have hwaiting : s.phase = .waiting := by
    have hend : s.phase.isWaiting = true := by decide +kernel
    cases hphase : s.phase with
    | waiting => rfl
    | _ => simp [hphase, Phase.isWaiting] at hend
  obtain ⟨hvouched, hpass, -⟩ := Session.registered_verified args (List.replicate 5 answer)
  exact ⟨hregistered, (hvouched service (str "v1") hregistered).1, hpass hwaiting⟩

end Litecast.MiddleSession
