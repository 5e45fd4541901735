import Litecast.Publication
import Mathlib.Data.List.Induction

/-! `registry/middle.py`: the supervisor and its publisher sessions. -/

namespace Litecast

/-! ## The publishers file -/

structure Arguments where
  /-- A publishers file is given. -/
  publishers : Bool
  runId : List Str
  maxPublishers : Nat
  port : Nat

/-- What reading the publishers file gives. -/
inductive PublishersFile where
  | unreadable (message : Str)
  | contents (data : Bytes)

/-- The value is a list of strings. -/
def runList? : Json → Option (List Str)
  | .arr items => items.mapM Json.string?
  | _ => none

def checkRuns (args : Arguments) (runs : List Str) : Except Exc (List Str) :=
  if args.maxPublishers < runs.length ∨ ¬ runs.Nodup then
    .error ⟨.valueError, str "publisher IDs must be unique and within max-publishers"⟩
  else match runs.findSome? validateRunId with
    | some e => .error e
    | none => .ok runs

section
variable [Library]

/-- `publisher_ids`. `limit` is the nesting of JSON the interpreter bears. -/
def publisherIds (limit : Nat) (args : Arguments) (file : PublishersFile) :
    Except Exc (List Str) :=
  if args.publishers = false then checkRuns args args.runId
  else match file with
    | .unreadable message => .error ⟨.osError, message⟩
    | .contents data =>
      if limit < nesting data then
        .error ⟨.recursionError, str "maximum recursion depth exceeded"⟩
      else match loads data with
        | none => .error ⟨.valueError, str "not a JSON document"⟩
        | some value =>
          match runList? value with
          | none =>
            .error ⟨.valueError, str "publishers must be a JSON list of run ID strings"⟩
          | some runs => checkRuns args runs

end

/-! ## Sessions -/

/-- A running `supervise_publisher`: its task, with the stop event it was
started with, and the port it was given. -/
structure Session where
  task : Nat
  port : Nat
  deriving DecidableEq

structure Supervisor where
  /-- The latest list accepted. -/
  runs : List Str
  sessions : OrderedDict Str Session := .empty
  /-- How many tasks were started. -/
  started : Nat := 0
  /-- The tasks whose stop event is set. -/
  stopped : List Nat := []
  /-- The loop of `serve` goes on. -/
  serving : Bool := true

namespace Supervisor

/-- The stop event of a session is set; its task then returns. -/
def detachRun (s : Supervisor) (run : Str) : Supervisor :=
  match s.sessions.get? run with
  | none => s
  | some session =>
    { s with sessions := s.sessions.erase run, stopped := session.task :: s.stopped }

/-- Everything that is no longer listed. -/
def detach (s : Supervisor) : Supervisor :=
  (s.sessions.keys.filter (· ∉ s.runs)).foldl detachRun s

/-- Only a single fixed run is given the port of the command line. -/
def subscriptionPort (args : Arguments) (runs : List Str) : Nat :=
  if args.publishers = false ∧ runs.length = 1 then args.port else 0

def attachRun (args : Arguments) (s : Supervisor) (run : Str) : Supervisor :=
  if s.sessions.contains run then s
  else
    { s with sessions := s.sessions.insert run ⟨s.started, subscriptionPort args s.runs⟩
             started := s.started + 1 }

def attach (args : Arguments) (s : Supervisor) : Supervisor :=
  s.runs.foldl (attachRun args) s

/-- `finally`: every session is stopped. -/
def shutdown (s : Supervisor) : Supervisor :=
  { s with stopped := s.sessions.values.map Session.task ++ s.stopped, serving := false }

/-- One pass of the loop. The file is checked as a whole; what `except` does not
catch leaves the loop. -/
def pass [Library] (limit : Nat) (args : Arguments) (s : Supervisor) (file : PublishersFile) :
    Supervisor :=
  if s.serving = false then s
  else match publisherIds limit args file with
    | .ok runs => (detach { s with runs }).attach args
    | .error e =>
      if e.cls = .osError ∨ e.cls.isValueError then s.detach.attach args else s.shutdown

/-! ## The two loops of a pass -/

theorem get?_detachRun (s : Supervisor) (run other : Str) :
    (s.detachRun run).sessions.get? other =
      if other = run then none else s.sessions.get? other := by
  rw [detachRun]
  split
  · next hnone =>
    split_ifs with heq
    · rw [heq, hnone]
    · rfl
  · rw [OrderedDict.get?_erase]

theorem mem_stopped_detachRun {s : Supervisor} {run : Str} {task : Nat} :
    task ∈ (s.detachRun run).stopped ↔
      task ∈ s.stopped ∨ ∃ session, s.sessions.get? run = some session ∧ session.task = task := by
  rw [detachRun]
  split
  · next hnone => simp [hnone]
  · next session hsome =>
    simp only [List.mem_cons, hsome, Option.some.injEq, exists_eq_left']
    rw [or_comm, eq_comm]

/-- Nothing but the sessions and the stop events changes. -/
theorem detachRun_frame (s : Supervisor) (run : Str) :
    (s.detachRun run).runs = s.runs ∧ (s.detachRun run).started = s.started ∧
      (s.detachRun run).serving = s.serving := by
  rw [detachRun]
  split <;> exact ⟨rfl, rfl, rfl⟩

theorem foldl_detachRun (gone : List Str) (s : Supervisor) :
    (gone.foldl detachRun s).runs = s.runs ∧ (gone.foldl detachRun s).started = s.started ∧
      (gone.foldl detachRun s).serving = s.serving ∧
      (∀ run, (gone.foldl detachRun s).sessions.get? run =
        if run ∈ gone then none else s.sessions.get? run) ∧
      ∀ task, task ∈ (gone.foldl detachRun s).stopped ↔ task ∈ s.stopped ∨
        ∃ run ∈ gone, ∃ session, s.sessions.get? run = some session ∧ session.task = task := by
  induction gone generalizing s with
  | nil => simp
  | cons first rest ih =>
    obtain ⟨hruns, hstarted, hserving⟩ := detachRun_frame s first
    obtain ⟨hruns', hstarted', hserving', hget, hstopped⟩ := ih (s.detachRun first)
    refine ⟨hruns'.trans hruns, hstarted'.trans hstarted, hserving'.trans hserving, ?_, ?_⟩
    · intro run
      rw [List.foldl_cons, hget, get?_detachRun]
      by_cases hfirst : run = first <;> by_cases hrest : run ∈ rest <;> simp [hfirst, hrest]
    · intro task
      rw [List.foldl_cons, hstopped, mem_stopped_detachRun]
      constructor
      · rintro ((hold | ⟨session, hsession, rfl⟩) | ⟨run, hrun, session, hsession, rfl⟩)
        · exact Or.inl hold
        · exact Or.inr ⟨first, by simp, session, hsession, rfl⟩
        · rw [get?_detachRun] at hsession
          split_ifs at hsession
          exact Or.inr ⟨run, by simp [hrun], session, hsession, rfl⟩
      · rintro (hold | ⟨run, hrun, session, hsession, rfl⟩)
        · exact Or.inl (Or.inl hold)
        · by_cases hfirst : run = first
          · exact Or.inl (Or.inr ⟨session, hfirst ▸ hsession, rfl⟩)
          · refine Or.inr ⟨run, (List.mem_cons.mp hrun).resolve_left hfirst, session, ?_, rfl⟩
            rw [get?_detachRun, if_neg hfirst, hsession]

/-- What detaching leaves. -/
structure Detached (s s' : Supervisor) : Prop where
  runs : s'.runs = s.runs
  started : s'.started = s.started
  serving : s'.serving = s.serving
  get? : ∀ run, s'.sessions.get? run = if run ∈ s.runs then s.sessions.get? run else none
  stopped : ∀ task, task ∈ s'.stopped ↔ task ∈ s.stopped ∨
    ∃ run, run ∉ s.runs ∧ ∃ session, s.sessions.get? run = some session ∧ session.task = task

theorem detach_detached (s : Supervisor) : Detached s s.detach := by
  obtain ⟨hruns, hstarted, hserving, hget, hstopped⟩ :=
    foldl_detachRun (s.sessions.keys.filter (· ∉ s.runs)) s
  refine ⟨hruns, hstarted, hserving, ?_, ?_⟩
  · intro run
    rw [detach, hget]
    by_cases hlisted : run ∈ s.runs
    · simp [hlisted]
    · by_cases hkey : run ∈ s.sessions.keys
      · simp [hlisted, hkey]
      · simp [hlisted, hkey, OrderedDict.get?_eq_none_iff.mpr hkey]
  · intro task
    rw [detach, hstopped]
    refine or_congr_right ⟨?_, ?_⟩
    · rintro ⟨run, hrun, hsession⟩
      exact ⟨run, by simpa using (List.mem_filter.mp hrun).2, hsession⟩
    · rintro ⟨run, hlisted, session, hsession, rfl⟩
      have hkey : run ∈ s.sessions.keys := OrderedDict.mem_keys_iff.mpr ⟨session, hsession⟩
      exact ⟨run, List.mem_filter.mpr ⟨hkey, by simpa using hlisted⟩, session, hsession, rfl⟩

/-- The tasks of the sessions were started once each and are not stopped. -/
structure Live (s : Supervisor) : Prop where
  serving : s.serving = true
  started : ∀ run session, s.sessions.get? run = some session → session.task < s.started
  running : ∀ run session, s.sessions.get? run = some session → session.task ∉ s.stopped
  stopped : ∀ task ∈ s.stopped, task < s.started
  apart : ∀ run run' session session', s.sessions.get? run = some session →
    s.sessions.get? run' = some session' → session.task = session'.task → run = run'

theorem Detached.live {s s' : Supervisor} (h : Detached s s') (hs : s.Live) : s'.Live := by
  have hkept : ∀ run session, s'.sessions.get? run = some session →
      run ∈ s.runs ∧ s.sessions.get? run = some session := by
    intro run session hsession
    rw [h.get?] at hsession
    split_ifs at hsession with hlisted
    exact ⟨hlisted, hsession⟩
  refine ⟨h.serving.trans hs.serving, ?_, ?_, ?_, ?_⟩
  · intro run session hsession
    rw [h.started]
    exact hs.started run session (hkept run session hsession).2
  · intro run session hsession hstopped
    obtain ⟨hlisted, hbefore⟩ := hkept run session hsession
    rcases (h.stopped _).mp hstopped with hold | ⟨gone, hgone, other, hother, htask⟩
    · exact hs.running run session hbefore hold
    · exact hgone (hs.apart gone run other session hother hbefore htask ▸ hlisted)
  · intro task htask
    rw [h.started]
    rcases (h.stopped task).mp htask with hold | ⟨run, _, session, hsession, rfl⟩
    · exact hs.stopped task hold
    · exact hs.started run session hsession
  · intro run run' session session' hsession hsession'
    exact hs.apart run run' session session' (hkept run session hsession).2
      (hkept run' session' hsession').2

theorem Live.attachRun {s : Supervisor} (hs : s.Live) (args : Arguments) (run : Str) :
    (attachRun args s run).Live := by
  rw [Supervisor.attachRun]
  split
  · exact hs
  · have hget : ∀ other session,
        (s.sessions.insert run ⟨s.started, subscriptionPort args s.runs⟩).get? other =
          some session →
        (other = run ∧ session.task = s.started) ∨ s.sessions.get? other = some session := by
      intro other session hsession
      rw [OrderedDict.get?_insert] at hsession
      split_ifs at hsession with heq
      · obtain rfl := Option.some.inj hsession
        exact Or.inl ⟨heq, rfl⟩
      · exact Or.inr hsession
    refine ⟨hs.serving, ?_, ?_, ?_, ?_⟩
    · intro other session hsession
      rcases hget other session hsession with ⟨_, htask⟩ | hold
      · exact htask ▸ Nat.lt_succ_self _
      · exact Nat.lt_succ_of_lt (hs.started other session hold)
    · intro other session hsession hstopped
      rcases hget other session hsession with ⟨_, htask⟩ | hold
      · exact absurd (hs.stopped _ hstopped) (by omega)
      · exact hs.running other session hold hstopped
    · exact fun task htask => Nat.lt_succ_of_lt (hs.stopped task htask)
    · intro one other session session' hone hother htask
      rcases hget one session hone with ⟨rfl, hnew⟩ | hold
      · rcases hget other session' hother with ⟨rfl, _⟩ | hold'
        · rfl
        · exact absurd (hs.started other session' hold') (by omega)
      · rcases hget other session' hother with ⟨rfl, hnew'⟩ | hold'
        · exact absurd (hs.started one session hold) (by omega)
        · exact hs.apart one other session session' hold hold' htask

/-- What attaching leaves. -/
structure Attached (listed : List Str) (s s' : Supervisor) : Prop where
  runs : s'.runs = s.runs
  stopped : s'.stopped = s.stopped
  kept : ∀ run session, s.sessions.get? run = some session →
    s'.sessions.get? run = some session
  added : ∀ run, s'.sessions.contains run = true ↔ s.sessions.contains run = true ∨ run ∈ listed
  same : (∀ run ∈ listed, s.sessions.contains run = true) → s' = s

theorem attachRun_attached (args : Arguments) (s : Supervisor) (run : Str) :
    Attached [run] s (attachRun args s run) := by
  rw [attachRun]
  split
  · next hpresent =>
    refine ⟨rfl, rfl, fun _ _ h => h, ?_, fun _ => rfl⟩
    intro other
    rw [List.mem_singleton]
    refine ⟨Or.inl, ?_⟩
    rintro (h | rfl)
    · exact h
    · exact hpresent
  · next habsent =>
    refine ⟨rfl, rfl, ?_, ?_, fun h => absurd (h run (by simp)) habsent⟩
    · intro other session hsession
      have hne : other ≠ run := by
        rintro rfl
        exact habsent (by rw [OrderedDict.contains, hsession]; rfl)
      simp only [OrderedDict.get?_insert, if_neg hne, hsession]
    · intro other
      simp only [OrderedDict.contains, OrderedDict.get?_insert, List.mem_singleton]
      by_cases heq : other = run
      · simp [heq]
      · simp [heq]

theorem foldl_attachRun (args : Arguments) (listed : List Str) (s : Supervisor) (hs : s.Live) :
    (listed.foldl (attachRun args) s).Live ∧
      Attached listed s (listed.foldl (attachRun args) s) := by
  induction listed generalizing s with
  | nil => exact ⟨hs, rfl, rfl, fun _ _ h => h, by simp, fun _ => rfl⟩
  | cons first rest ih =>
    have hfirst := attachRun_attached args s first
    obtain ⟨hlive, hrest⟩ := ih (attachRun args s first) (hs.attachRun args first)
    refine ⟨hlive, hrest.runs.trans hfirst.runs, hrest.stopped.trans hfirst.stopped, ?_, ?_, ?_⟩
    · exact fun run session h => hrest.kept run session (hfirst.kept run session h)
    · intro run
      rw [List.foldl_cons, hrest.added, hfirst.added, List.mem_singleton, List.mem_cons, or_assoc]
    · intro hpresent
      have hsame := hfirst.same (by simpa using hpresent first (by simp))
      rw [List.foldl_cons]
      rw [hsame] at hrest ⊢
      exact hrest.same fun run hrun => hpresent run (by simp [hrun])

/-! ## One pass -/

/-- What the two loops make of the sessions for the list in force. -/
structure Settled (s s' : Supervisor) : Prop where
  live : s'.Live
  runs : s'.runs = s.runs
  listed : ∀ run, s'.sessions.contains run = true ↔ run ∈ s.runs
  kept : ∀ run session, s.sessions.get? run = some session → run ∈ s.runs →
    s'.sessions.get? run = some session
  stopped : ∀ run session, s.sessions.get? run = some session → session.task ∈ s'.stopped →
    run ∉ s.runs
  same : (∀ run, s.sessions.contains run = true ↔ run ∈ s.runs) → s' = s

theorem detach_eq_self {s : Supervisor} (h : ∀ run ∈ s.sessions.keys, run ∈ s.runs) :
    s.detach = s := by
  have hnone : s.sessions.keys.filter (· ∉ s.runs) = [] := by
    rw [List.filter_eq_nil_iff]
    intro run hrun
    simpa using h run hrun
  rw [detach, hnone, List.foldl_nil]

theorem contains_iff_mem_keys (s : Supervisor) (run : Str) :
    s.sessions.contains run = true ↔ run ∈ s.sessions.keys := by
  rw [OrderedDict.contains, Option.isSome_iff_exists, OrderedDict.mem_keys_iff]

theorem settle_settled {s : Supervisor} (hs : s.Live) (args : Arguments) :
    Settled s (s.detach.attach args) := by
  have hdetached := s.detach_detached
  obtain ⟨hlive, hattached⟩ :=
    foldl_attachRun args s.detach.runs s.detach (hdetached.live hs)
  have hkept : ∀ run session, s.sessions.get? run = some session → run ∈ s.runs →
      (s.detach.attach args).sessions.get? run = some session := by
    intro run session hsession hlisted
    refine hattached.kept run session ?_
    rw [hdetached.get?, if_pos hlisted, hsession]
  refine ⟨hlive, hattached.runs.trans hdetached.runs, ?_, hkept, ?_, ?_⟩
  · intro run
    rw [attach, hattached.added, hdetached.runs, OrderedDict.contains, hdetached.get?]
    by_cases hlisted : run ∈ s.runs <;> simp [hlisted]
  · intro run session hsession hstopped hlisted
    exact hlive.running run session (hkept run session hsession hlisted) hstopped
  · intro hexact
    have hself : s.detach = s :=
      detach_eq_self fun run hrun => (hexact run).mp ((s.contains_iff_mem_keys run).mpr hrun)
    rw [hself] at hattached ⊢
    exact hattached.same fun run hrun => (hexact run).mpr hrun

theorem checkRuns_error {args : Arguments} {runs : List Str} {e : Exc}
    (h : checkRuns args runs = .error e) :
    e.cls = .valueError := by
  rw [checkRuns] at h
  split at h
  · obtain rfl := Except.error.inj h
    rfl
  · cases hfind : runs.findSome? validateRunId with
    | none => simp [hfind] at h
    | some first =>
      simp only [hfind, Except.error.injEq] at h
      obtain ⟨run, _, hrun⟩ := List.exists_of_findSome?_eq_some hfind
      rw [validateRunId] at hrun
      split_ifs at hrun
      rw [← h, ← Option.some.inj hrun]

section
variable [Library] (limit : Nat) (args : Arguments)

/-- The file nests deeper than the interpreter bears. -/
def TooDeep (file : PublishersFile) : Prop :=
  args.publishers = true ∧ ∃ data, file = .contents data ∧ limit < nesting data

variable {limit args}

/-- Every rejection is caught but one. -/
theorem publisherIds_error {file : PublishersFile} {e : Exc}
    (h : publisherIds limit args file = .error e) :
    (e.cls = .osError ∨ e.cls.isValueError = true) ↔ ¬ TooDeep limit args file := by
  have hvalue : e.cls = .valueError → (e.cls = .osError ∨ e.cls.isValueError = true) :=
    fun hcls => Or.inr (by rw [hcls]; rfl)
  unfold publisherIds at h
  split at h
  · next hfixed =>
    exact iff_of_true (hvalue (checkRuns_error h)) fun hdeep => by simp [hdeep.1] at hfixed
  · next hfile =>
    cases file with
    | unreadable message =>
      obtain rfl := Except.error.inj h
      refine iff_of_true (Or.inl rfl) ?_
      rintro ⟨_, data, hdata, _⟩
      cases hdata
    | contents data =>
      simp only at h
      split at h
      · next hdeep =>
        obtain rfl := Except.error.inj h
        refine iff_of_false ?_ (not_not.mpr ⟨by simpa using hfile, data, rfl, hdeep⟩)
        rintro (hos | hvalue)
        · cases hos
        · cases hvalue
      · next hshallow =>
        refine iff_of_true (hvalue ?_) ?_
        · split at h
          · rw [← Except.error.inj h]
          · split at h
            · rw [← Except.error.inj h]
            · exact checkRuns_error h
        · rintro ⟨_, other, hother, hdeep⟩
          cases hother
          exact hshallow hdeep

/-- The list in force after a snapshot. -/
def follow (limit : Nat) (args : Arguments) (runs : List Str) (file : PublishersFile) : List Str :=
  match publisherIds limit args file with
  | .ok runs => runs
  | .error _ => runs

theorem pass_settled {s : Supervisor} (hs : s.Live) {file : PublishersFile}
    (hfile : ¬ TooDeep limit args file) :
    Settled { s with runs := follow limit args s.runs file } (s.pass limit args file) := by
  rw [pass, if_neg (by simp [hs.serving]), follow]
  cases hids : publisherIds limit args file with
  | ok runs =>
    have hlive : Live { s with runs } := ⟨hs.serving, hs.started, hs.running, hs.stopped, hs.apart⟩
    exact settle_settled hlive args
  | error e =>
    simp only [(publisherIds_error hids).mpr hfile, if_true]
    exact settle_settled hs args

/-- A snapshot nested too deep ends the loop. -/
theorem pass_tooDeep (s : Supervisor) {file : PublishersFile} (hfile : TooDeep limit args file) :
    (s.pass limit args file).serving = false := by
  rw [pass]
  split_ifs with hserving
  · exact hserving
  · cases hids : publisherIds limit args file with
    | ok runs =>
      obtain ⟨hpublishers, data, rfl, hdeep⟩ := hfile
      simp [publisherIds, hpublishers, hdeep] at hids
    | error e =>
      have hnot := mt (publisherIds_error hids).mp (not_not.mpr hfile)
      simp only [hnot, if_false]
      rfl

end

/-! ## Whole runs -/

section
variable [Library] (limit : Nat) (args : Arguments) (start : List Str)

/-- The supervisor after it has seen these contents of the file. -/
def serve (files : List PublishersFile) : Supervisor :=
  files.foldl (pass limit args) { runs := start }

/-- The most recent valid snapshot. -/
def latest (files : List PublishersFile) : List Str := files.foldl (follow limit args) start

/-- A session for the run whose stop event is not set. -/
def Active (s : Supervisor) (run : Str) : Prop :=
  ∃ session, s.sessions.get? run = some session ∧ session.task ∉ s.stopped

/-- The pass over `file` after those over `before` follows the reload rules. -/
structure Reloaded (before : List PublishersFile) (file : PublishersFile) : Prop where
  serving : (serve limit args start (before ++ [file])).serving = true
  active : ∀ run, (serve limit args start (before ++ [file])).Active run ↔
    run ∈ latest limit args start (before ++ [file])
  kept : ∀ run session, (serve limit args start before).sessions.get? run = some session →
    run ∈ latest limit args start (before ++ [file]) →
      (serve limit args start (before ++ [file])).sessions.get? run = some session
  /-- Before the first pass nothing is attached yet. -/
  rejected : ∀ e, publisherIds limit args file = .error e → before ≠ [] →
    serve limit args start (before ++ [file]) = serve limit args start before
  stopped : ∀ run session, (serve limit args start before).sessions.get? run = some session →
    session.task ∈ (serve limit args start (before ++ [file])).stopped →
      ∃ runs, publisherIds limit args file = .ok runs ∧ run ∉ runs

/-- What holds between two passes. -/
structure Between (files : List PublishersFile) : Prop where
  live : (serve limit args start files).Live
  runs : (serve limit args start files).runs = latest limit args start files
  listed : files ≠ [] → ∀ run, (serve limit args start files).sessions.contains run = true ↔
    run ∈ latest limit args start files

variable {limit args start}

theorem serve_append (before : List PublishersFile) (file : PublishersFile) :
    serve limit args start (before ++ [file]) =
      (serve limit args start before).pass limit args file := by
  rw [serve, serve, List.foldl_append, List.foldl_cons, List.foldl_nil]

theorem latest_append (before : List PublishersFile) (file : PublishersFile) :
    latest limit args start (before ++ [file]) =
      follow limit args (latest limit args start before) file := by
  rw [latest, latest, List.foldl_append, List.foldl_cons, List.foldl_nil]

theorem between {files : List PublishersFile} (hfiles : ∀ file ∈ files, ¬ TooDeep limit args file) :
    Between limit args start files := by
  induction files using List.reverseRecOn with
  | nil =>
    refine ⟨⟨rfl, ?_, ?_, ?_, ?_⟩, rfl, fun h => absurd rfl h⟩ <;> simp [serve]
  | append_singleton before file ih =>
    have hbefore := ih fun earlier hearlier => hfiles earlier (by simp [hearlier])
    have hsettled := pass_settled hbefore.live (hfiles file (by simp))
    rw [hbefore.runs, ← latest_append, ← serve_append] at hsettled
    exact ⟨hsettled.live, hsettled.runs, fun _ => hsettled.listed⟩

theorem reloaded {before : List PublishersFile} {file : PublishersFile}
    (hbefore : ∀ earlier ∈ before, ¬ TooDeep limit args earlier)
    (hfile : ¬ TooDeep limit args file) : Reloaded limit args start before file := by
  have hbetween : Between limit args start before := between hbefore
  have hsettled := pass_settled hbetween.live hfile
  rw [hbetween.runs, ← latest_append, ← serve_append] at hsettled
  refine ⟨hsettled.live.serving, ?_, hsettled.kept, ?_, ?_⟩
  · intro run
    rw [← hsettled.listed run, OrderedDict.contains, Option.isSome_iff_exists]
    constructor
    · rintro ⟨session, hsession, _⟩
      exact ⟨session, hsession⟩
    · rintro ⟨session, hsession⟩
      exact ⟨session, hsession, hsettled.live.running run session hsession⟩
  · intro e hids hne
    have hfollow : latest limit args start (before ++ [file]) = latest limit args start before := by
      rw [latest_append, follow, hids]
    rw [hfollow] at hsettled
    rw [hsettled.same (hbetween.listed hne), ← hbetween.runs]
  · intro run session hsession hstopped
    have hgone := hsettled.stopped run session hsession hstopped
    cases hids : publisherIds limit args file with
    | ok runs =>
      refine ⟨runs, rfl, ?_⟩
      rwa [latest_append, follow, hids] at hgone
    | error e =>
      -- a rejected list leaves the runs of the sessions listed
      rw [latest_append, follow, hids] at hgone
      cases before with
      | nil => simp [serve] at hsession
      | cons first rest =>
        refine absurd ((hbetween.listed (by simp) run).mp ?_) hgone
        rw [OrderedDict.contains, hsession]
        rfl

/-- **The reload rules hold while the file nests within the limit.** After a
valid start, every pass over the publishers file leaves exactly the runs of the
most recent valid snapshot with an active session, keeps the sessions of listed
runs, changes none for a rejected snapshot, and stops only what a valid snapshot
omits, exactly when no snapshot nests deeper than the interpreter bears. -/
theorem reloaded_iff_shallow (limit : Nat) (args : Arguments) (start : List Str)
    (files : List PublishersFile) :
    (∀ before file after, files = before ++ file :: after →
      Reloaded limit args start before file) ↔
        ∀ file ∈ files, ¬ TooDeep limit args file := by
  constructor
  · intro hreloaded file hfile hdeep
    obtain ⟨before, after, hsplit⟩ := List.append_of_mem hfile
    have hserving := (hreloaded before file after hsplit).serving
    rw [serve_append, pass_tooDeep _ hdeep] at hserving
    cases hserving
  · rintro hshallow before file after rfl
    exact reloaded (fun earlier hearlier => hshallow earlier (by simp [hearlier]))
      (hshallow file (by simp))

end

/-! ## A file of brackets -/

section

theorem skipWhite_brackets (n : Nat) :
    JsonText.skipWhite (List.replicate n (.ofChar '[')) = List.replicate n (.ofChar '[') := by
  cases n with
  | zero => rfl
  | succ n => exact List.dropWhile_cons_of_neg (by decide)

theorem head_brackets_ne (n : Nat) :
    (List.replicate n (CodePoint.ofChar '[')).head? ≠ some (.ofChar ']') := by
  cases n with
  | zero => decide
  | succ n =>
    rw [List.replicate_succ, List.head?_cons]
    decide

theorem decodeUtf8_brackets (n : Nat) :
    decodeUtf8 (List.replicate n 91) = some (List.replicate n (.ofChar '[')) := by
  have hchars : List.replicate n (CodePoint.ofChar '[') =
      (List.replicate n '[').map CodePoint.ofChar := List.map_replicate.symm
  have hbytes : (List.replicate n '[').flatMap String.utf8EncodeChar = List.replicate n 91 := by
    induction n with
    | zero => rfl
    | succ n ih =>
      rw [List.replicate_succ, List.flatMap_cons, ih List.map_replicate.symm]
      rfl
  rw [decodeUtf8_eq_some_iff, encodeUtf8, mapM_toChar.mpr hchars, Option.map_some, hbytes]

variable [Library]

theorem scanValue_brackets (n fuel : Nat) :
    JsonText.scanValue fuel (List.replicate n (.ofChar '[')) = none := by
  induction n generalizing fuel with
  | zero => cases fuel <;> rfl
  | succ n ih =>
    have hitems : JsonText.scanItems (fuel - 1) (List.replicate n (.ofChar '[')) = none := by
      cases fuel - 1 with
      | zero => rfl
      | succ fuel => rw [JsonText.scanItems, ih]
    cases fuel with
    | zero => rfl
    | succ fuel =>
      rw [List.replicate_succ, JsonText.scanValue, if_neg (by decide), if_neg (by decide),
        if_pos rfl, skipWhite_brackets, if_neg (head_brackets_ne n)]
      exact congrArg (Option.map _) hitems

theorem valueDepth_brackets (n more : Nat) :
    JsonText.valueDepth (2 * n + 1 + more) (List.replicate n (.ofChar '[')) = n := by
  induction n with
  | zero =>
    rw [Nat.mul_zero, Nat.zero_add, Nat.add_comm]
    rfl
  | succ n ih =>
    have hfuel : 2 * (n + 1) + 1 + more = (2 * n + 1 + more) + 1 + 1 := by omega
    rw [List.replicate_succ, hfuel, JsonText.valueDepth, if_neg (by decide), if_pos rfl,
      skipWhite_brackets, if_neg (head_brackets_ne n), JsonText.itemsDepth, ih, scanValue_brackets]
    simp

theorem nesting_brackets (n : Nat) : nesting (List.replicate n 91) = n := by
  have hhead : (List.replicate n (CodePoint.ofChar '[')).head? ≠ some (.ofChar '\uFEFF') := by
    cases n with
    | zero => decide
    | succ n =>
      rw [List.replicate_succ, List.head?_cons]
      decide
  rw [nesting, decodeUtf8_brackets]
  simp only [hhead, if_false, List.length_replicate, skipWhite_brackets]
  exact valueDepth_brackets n 0

end

/-- A thousand and one opening brackets in place of the list. -/
theorem brackets_end_supervisor :
    letI := asciiLibrary
    ¬ ∀ (args : Arguments) (first : PublishersFile) (start : List Str),
      publisherIds 1000 args first = .ok start → ∀ files before file after,
        files = before ++ file :: after → Reloaded 1000 args start before file := by
  intro claim
  let _ := asciiLibrary
  have hstart : publisherIds 1000 ⟨true, [], 8, 0⟩ (.contents [91, 34, 97, 34, 93]) =
      .ok [str "a"] := by rfl
  have hreloaded := claim _ _ _ hstart _ [] (.contents (List.replicate 1001 91)) [] rfl
  have hserving := hreloaded.serving
  rw [serve_append, pass_tooDeep _ ⟨rfl, _, rfl, by rw [nesting_brackets]; decide⟩] at hserving
  cases hserving

end Supervisor

end Litecast
