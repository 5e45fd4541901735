import Litecast.Coroutines
import Litecast.Lib.Runs

/-! The endpoint a `UCXXTransport` keeps from one call to the next, with the
handler at its other end: what is on it when a request is sent. -/

namespace Litecast.Ucxx.Persistent

open Protocol

/-- A message for the client and the request it answers, if one was read. -/
structure Arrival where
  request : Option Nat
  message : Message

/-- One connection: what is on its way in each direction, and the handler. -/
structure Endpoint where
  requests : List (Nat × Bytes) := []
  inbox : List Arrival := []
  outgoing : List Arrival := []
  servedRequest : Bool := false
  isOpen : Bool := true

section
variable [Library]

/-! ## The handler -/

/-- What `_handle_endpoint` sends for an exception. -/
def failureReply (e : Exc) : List Message :=
  let message := e.message.take 1024
  match encodeError (if message = [] then str "invalid request" else message) with
  | .ok reply => [.obj reply]
  | .error _ => []

namespace Endpoint

/-- The exception is reported where no request was served, and the report need
not be sent either. -/
def report (endpoint : Endpoint) (e : Exc) (reported : Bool) : List Message :=
  if reported = true ∧ endpoint.servedRequest = false then failureReply e else []

/-- The handler ends. -/
def fail (endpoint : Endpoint) (request : Option Nat) (e : Exc) (reported : Bool) : Endpoint :=
  { endpoint with
    requests := []
    inbox := endpoint.inbox ++ (endpoint.report e reported).map (⟨request, ·⟩)
    outgoing := []
    isOpen := false }

/-- The handler reads a request and begins to answer it. -/
def serve (endpoint : Endpoint) (server : Server) (reported : Bool) : Endpoint :=
  match endpoint.isOpen, endpoint.outgoing, endpoint.requests with
  | true, [], (request, raw) :: rest =>
    match decodeFrame raw maxMetadataSize >>= serveRequest server with
    | .ok messages =>
      { endpoint with
        requests := rest
        outgoing := messages.map (⟨some request, ·⟩)
        servedRequest := endpoint.servedRequest || messages.isEmpty }
    | .error e => endpoint.fail (some request) e reported
  | _, _, _ => endpoint

/-- The message being sent arrives. -/
def deliver (endpoint : Endpoint) : Endpoint :=
  match endpoint.outgoing with
  | [] => endpoint
  | message :: rest =>
    { endpoint with
      inbox := endpoint.inbox ++ [message]
      outgoing := rest
      servedRequest := endpoint.servedRequest || rest.isEmpty }

/-- The handler's `await` raises. A message being sent may have arrived all the same. -/
def raise (endpoint : Endpoint) (e : Exc) (arrived reported : Bool) : Endpoint :=
  match endpoint.isOpen, endpoint.outgoing with
  | true, [] => endpoint.fail (endpoint.requests.head?.map Prod.fst) e reported
  | true, message :: _ =>
    { endpoint with inbox := endpoint.inbox ++ if arrived then [message] else [] }.fail
      message.request e reported
  | _, _ => endpoint

/-- A request is sent; with the handler gone nothing reads it. -/
def send (endpoint : Endpoint) (request : Nat) (raw : Bytes) : Endpoint :=
  if endpoint.isOpen then { endpoint with requests := endpoint.requests ++ [(request, raw)] }
  else endpoint

end Endpoint

/-! ## The transport -/

/-- How far the call that holds the lock has come. -/
inductive Progress where
  | connecting (call : Call)
  | sending (call : Call)
  | reading (request : Nat) (rest : Reading)

structure Transport where
  endpoint : Option Endpoint := none
  running : Option Progress := none
  /-- The requests sent so far. -/
  sent : Nat := 0

namespace Transport

/-- The `except` clauses of the persistent calls. -/
def finish (s : Transport) (result : Except Exc Fetched) : Transport :=
  { s with
    running := none
    endpoint := if KeepsEndpoint result then s.endpoint else none }

end Transport

/-- `fail` is an exception at an `await` of the running call, `cancel` the
cancellation of its task, which no `except` clause catches. -/
inductive Action where
  | warm
  | call (call : Call)
  | connect
  | send
  | receive
  | fail
  | cancel
  | serve (server : Server) (reported : Bool)
  | deliver
  | raise (e : Exc) (arrived reported : Bool)

def step (s : Transport) : Action → Transport
  | .warm =>
    match s.running, s.endpoint with
    | none, none => { s with endpoint := some {} }
    | _, _ => s
  | .call call =>
    match s.running, call.check with
    | none, .ok () =>
      { s with running := some (if s.endpoint.isSome then .sending call else .connecting call) }
    | _, _ => s
  | .connect =>
    match s.running with
    | some (.connecting call) => { s with endpoint := some {}, running := some (.sending call) }
    | _ => s
  | .send =>
    match s.running, s.endpoint with
    | some (.sending call), some endpoint =>
      match call.request.encode with
      | .error e => s.finish (.error e)
      | .ok raw =>
        { endpoint := some (endpoint.send s.sent raw)
          running := some (.reading s.sent call.reading)
          sent := s.sent + 1 }
    | _, _ => s
  | .receive =>
    match s.running, s.endpoint with
    | some (.reading request (.next read)), some endpoint =>
      match endpoint.inbox with
      | [] => s
      | first :: unread =>
        let s := { s with endpoint := some { endpoint with inbox := unread } }
        match read first.message with
        | .done result => s.finish result
        | rest => { s with running := some (.reading request rest) }
    | _, _ => s
  | .fail => if s.running.isSome then s.finish (.error transferFailed) else s
  | .cancel => { s with running := none }
  | .serve server reported => { s with endpoint := s.endpoint.map (·.serve server reported) }
  | .deliver => { s with endpoint := s.endpoint.map (·.deliver) }
  | .raise e arrived reported =>
    { s with endpoint := s.endpoint.map (·.raise e arrived reported) }

/-! ## What is asked of a run -/

/-- Nothing of any request is unread or in flight. -/
structure Endpoint.Clear (endpoint : Endpoint) : Prop where
  requests : endpoint.requests = []
  outgoing : endpoint.outgoing = []
  inbox : ∀ a ∈ endpoint.inbox, a.request = none

/-- A request is sent on a clear endpoint. -/
def SendsOnClear (s : Transport) : Action → Prop
  | .send => ∀ call endpoint, s.running = some (.sending call) → s.endpoint = some endpoint →
      endpoint.Clear
  | _ => True

/-- A call reads what answers its request, or the report of a handler that read none. -/
def ReadsOwn (s : Transport) : Action → Prop
  | .receive => ∀ request rest endpoint, s.running = some (.reading request rest) →
      s.endpoint = some endpoint → ∀ a ∈ endpoint.inbox.head?,
        a.request = some request ∨ a.request = none
  | _ => True

/-- The call returns with what has arrived and is being sent, and keeps the endpoint. -/
def Endpoint.Satisfies (endpoint : Endpoint) (rest : Reading) : Prop :=
  ∃ result left, rest.run ((endpoint.inbox ++ endpoint.outgoing).map Arrival.message) =
    (some result, left) ∧ KeepsEndpoint result

/-- No call is cancelled while something of its request is under way, and no
handler reports the failure of a last message that has arrived and satisfies the
call. -/
def Allowed (s : Transport) : Action → Prop
  | .cancel => ∀ endpoint, s.endpoint = some endpoint → endpoint.Clear
  | .raise e arrived reported => ∀ endpoint request rest, s.endpoint = some endpoint →
      s.running = some (.reading request rest) → endpoint.outgoing.length = 1 → arrived = true →
        endpoint.report e reported ≠ [] → ¬ endpoint.Satisfies rest
  | _ => True

/-! ## Invariant -/

/-- An endpoint that no call has a request on. -/
structure Endpoint.Idle (endpoint : Endpoint) : Prop where
  requests : endpoint.requests = []
  outgoing : endpoint.outgoing = []
  inbox : endpoint.inbox = [] ∨
    ∃ report, endpoint.inbox = [report] ∧ report.request = none ∧ endpoint.isOpen = false

/-- An endpoint whose call has a request on it. -/
inductive Endpoint.Answering (request : Nat) (rest : Reading) (endpoint : Endpoint) : Prop
  | waiting (call : Call) (raw : Bytes) (encoded : call.request.encode = .ok raw)
      (reading : rest = call.reading) (requests : endpoint.requests = [(request, raw)])
      (inbox : endpoint.inbox = []) (outgoing : endpoint.outgoing = [])
      (isOpen : endpoint.isOpen = true)
  | answered (requests : endpoint.requests = [])
      (exhausts : rest.Exhausts KeepsEndpoint
        ((endpoint.inbox ++ endpoint.outgoing).map Arrival.message))
      (own : ∀ a ∈ endpoint.inbox ++ endpoint.outgoing, a.request = some request)
      (served : endpoint.outgoing = [] → endpoint.isOpen = true → endpoint.servedRequest = true)
      (closed : endpoint.isOpen = false → endpoint.outgoing = [])
  | refused (report : Arrival) (read : Message → Reading) (reading : rest = .next read)
      (requests : endpoint.requests = []) (inbox : endpoint.inbox = [report])
      (untagged : report.request = none) (outgoing : endpoint.outgoing = [])
      (isOpen : endpoint.isOpen = false)

/-- What the persistent endpoint is left in by every allowed step. -/
def Orderly (s : Transport) : Prop :=
  ∀ endpoint, s.endpoint = some endpoint →
    match s.running with
    | some (.reading request rest) => endpoint.Answering request rest
    | _ => endpoint.Idle

omit [Library] in
theorem Endpoint.Idle.clear {endpoint : Endpoint} (h : endpoint.Idle) : endpoint.Clear := by
  refine ⟨h.requests, h.outgoing, fun a ha => ?_⟩
  rcases h.inbox with hnil | ⟨report, hone, huntagged, -⟩
  · rw [hnil] at ha
    cases ha
  · rw [hone, List.mem_singleton] at ha
    rw [ha, huntagged]

/-! ## One step of the handler -/

theorem Call.reading_waits (call : Call) : ∃ read, call.reading = .next read := by
  cases call <;> exact ⟨_, rfl⟩

omit [Library] in
theorem length_failureReply (e : Exc) : (failureReply e).length ≤ 1 := by
  simp only [failureReply]
  split <;> simp

namespace Endpoint

omit [Library] in
theorem length_report (endpoint : Endpoint) (e : Exc) (reported : Bool) :
    (endpoint.report e reported).length ≤ 1 := by
  unfold report
  split_ifs
  · exact length_failureReply e
  · simp

omit [Library] in
theorem report_of_served {endpoint : Endpoint} (h : endpoint.servedRequest = true) (e : Exc)
    (reported : Bool) : endpoint.report e reported = [] := by
  simp [report, h]

omit [Library] in
theorem Idle.raise {endpoint : Endpoint} (h : endpoint.Idle) (e : Exc) (arrived reported : Bool) :
    (endpoint.raise e arrived reported).Idle := by
  obtain ⟨requests, inbox, outgoing, served, isOpen⟩ := endpoint
  obtain ⟨hrequests, houtgoing, hinbox⟩ := h
  simp only at hrequests houtgoing hinbox
  subst hrequests houtgoing
  cases isOpen with
  | false => exact ⟨rfl, rfl, hinbox⟩
  | true =>
    have hempty : inbox = [] := hinbox.resolve_right (by simp)
    subst hempty
    refine ⟨rfl, rfl, ?_⟩
    simp only [Endpoint.raise, fail, List.head?_nil, Option.map_none, List.nil_append]
    match hreport : Endpoint.report ⟨[], [], [], served, true⟩ e reported,
      length_report ⟨[], [], [], served, true⟩ e reported with
    | [], _ => exact Or.inl rfl
    | [message], _ => exact Or.inr ⟨⟨none, message⟩, rfl, rfl, trivial⟩

theorem serve_of_no_requests {endpoint : Endpoint} (h : endpoint.requests = []) (server : Server)
    (reported : Bool) : endpoint.serve server reported = endpoint := by
  rw [Endpoint.serve]
  split
  · next _ _ hrequests =>
    rw [h] at hrequests
    cases hrequests
  · rfl

theorem Idle.serve {endpoint : Endpoint} (h : endpoint.Idle) (server : Server) (reported : Bool) :
    (endpoint.serve server reported).Idle := by
  rw [serve_of_no_requests h.requests]
  exact h

omit [Library] in
theorem Idle.deliver {endpoint : Endpoint} (h : endpoint.Idle) : endpoint.deliver.Idle := by
  rw [Endpoint.deliver, h.outgoing]
  exact h

variable {request : Nat} {rest : Reading} {endpoint : Endpoint}

/-- The report of a handler that answers nothing else. -/
theorem Answering.of_report {read : Message → Reading} (hreading : rest = .next read)
    (hinbox : endpoint.inbox = []) (e : Exc) (reported : Bool) :
    (endpoint.fail (some request) e reported).Answering request rest := by
  apply Answering.answered
  · rfl
  · rw [hreading]
    apply Receiver.exhausts_of_length_le
    simpa [fail, hinbox] using length_report endpoint e reported
  · simp [fail, hinbox]
  · intro _ hopen
    cases hopen
  · intro _
    rfl

theorem Answering.serve (h : endpoint.Answering request rest) (server : Server) (reported : Bool) :
    (endpoint.serve server reported).Answering request rest := by
  cases h with
  | waiting call raw encoded reading requests inbox outgoing isOpen =>
    simp only [Endpoint.serve, isOpen, outgoing, requests]
    cases hserve : decodeFrame raw maxMetadataSize >>= serveRequest server with
    | ok messages =>
      have hexhausts := exhausts_answer encoded hserve
      refine .answered rfl ?_ ?_ ?_ ?_
      · simpa [inbox, reading, Function.comp_def] using hexhausts
      · simp [inbox]
      · intro hnone _
        simp [List.map_eq_nil_iff.mp hnone]
      · intro hclosed
        cases hclosed
    | error e =>
      obtain ⟨read, hread⟩ := call.reading_waits
      exact .of_report (reading.trans hread) inbox e reported
  | answered requests exhausts own served closed =>
    rw [serve_of_no_requests requests]
    exact .answered requests exhausts own served closed
  | refused report read reading requests inbox untagged outgoing isOpen =>
    rw [serve_of_no_requests requests]
    exact .refused report read reading requests inbox untagged outgoing isOpen

theorem Answering.deliver (h : endpoint.Answering request rest) :
    endpoint.deliver.Answering request rest := by
  rw [Endpoint.deliver]
  split
  · exact h
  · next message others houtgoing =>
    cases h with
    | waiting _ _ _ _ _ _ outgoing =>
      rw [outgoing] at houtgoing
      cases houtgoing
    | refused _ _ _ _ _ _ outgoing =>
      rw [outgoing] at houtgoing
      cases houtgoing
    | answered requests exhausts own served closed =>
      rw [houtgoing] at exhausts own closed
      refine .answered requests ?_ ?_ ?_ ?_
      · simpa using exhausts
      · simpa using own
      · rintro rfl _
        simp
      · intro hclosed
        exact absurd (closed hclosed) (by simp)

/-- Where the handler fails, at most one message takes the place of those it has
still to send. -/
theorem Answering.raise (h : endpoint.Answering request rest) (e : Exc) {arrived reported : Bool}
    (hallowed : endpoint.outgoing.length = 1 → arrived = true → endpoint.report e reported ≠ [] →
      ¬ endpoint.Satisfies rest) :
    (endpoint.raise e arrived reported).Answering request rest := by
  cases h with
  | waiting call raw encoded reading requests inbox outgoing isOpen =>
    obtain ⟨read, hread⟩ := call.reading_waits
    simp only [Endpoint.raise, isOpen, outgoing, requests, List.head?_cons, Option.map_some]
    exact .of_report (reading.trans hread) inbox e reported
  | refused report read reading requests inbox untagged outgoing isOpen =>
    simp only [Endpoint.raise, isOpen]
    exact .refused report read reading requests inbox untagged outgoing isOpen
  | answered requests exhausts own served closed =>
    rw [Endpoint.raise]
    split
    · next isOpen outgoing =>
      have hreport := report_of_served (served outgoing isOpen) e reported
      rw [outgoing, List.append_nil] at exhausts own
      refine .answered rfl ?_ ?_ ?_ ?_
      · simpa [fail, hreport] using exhausts
      · simpa [fail, hreport] using own
      · intro _ hopen
        cases hopen
      · intro _
        rfl
    · next message others isOpen outgoing =>
      rw [Endpoint.Satisfies, outgoing] at hallowed
      rw [outgoing] at exhausts own
      have htag : message.request = some request := own message (by simp)
      rw [htag]
      refine .answered rfl ?_ ?_ ?_ ?_
      · have hshort := length_report endpoint e reported
        have hsame (inbox : List Arrival) :
            Endpoint.report { endpoint with inbox } e reported = endpoint.report e reported := rfl
        simp only [List.map_append, List.map_cons] at exhausts
        simp only [fail, hsame, List.append_nil, List.map_append, List.map_map, Function.comp_def,
          List.map_id']
        cases arrived with
        | false =>
          simpa using exhausts.replace (by simp) hshort
        | true =>
          rw [← List.singleton_append, ← List.append_assoc] at exhausts
          by_cases hothers : others = []
          · -- the last message has arrived: a report behind it is read only by a call that goes on
            subst hothers
            match hreport : endpoint.report e reported, hshort with
            | [], _ => simpa using exhausts
            | [report], _ =>
              simp only [List.map_nil, List.append_nil] at exhausts
              simp only [if_true, List.map_cons, List.map_nil]
              apply (exhausts.append_iff report).mpr
              intro result left hrun hkeep
              refine hallowed rfl rfl (by simp [hreport]) ⟨result, left, ?_, hkeep⟩
              simpa using hrun
          · simpa using exhausts.replace (by simpa using hothers) hshort
      · intro a ha
        simp only [fail, List.append_nil, List.mem_append, List.mem_map] at ha
        rcases ha with (ha | ha) | ⟨report, -, rfl⟩
        · exact own a (by simp [ha])
        · split_ifs at ha
          · rw [List.mem_singleton.mp ha, htag]
          · cases ha
        · rfl
      · intro _ hopen
        cases hopen
      · intro _
        rfl
    · exact .answered requests exhausts own served closed

/-- A request on an idle endpoint. With the handler gone its report may be all
there is to read. -/
theorem Idle.send (h : endpoint.Idle) {call : Call} {raw : Bytes}
    (hraw : call.request.encode = .ok raw) :
    (endpoint.send request raw).Answering request call.reading := by
  obtain ⟨read, hread⟩ := call.reading_waits
  cases hopen : endpoint.isOpen with
  | true =>
    have hempty : endpoint.inbox = [] := h.inbox.resolve_right (by simp [hopen])
    simp only [Endpoint.send, hopen, if_true]
    exact .waiting call raw hraw rfl (by rw [h.requests]; rfl) hempty h.outgoing rfl
  | false =>
    simp only [Endpoint.send, hopen, Bool.false_eq_true, if_false]
    rcases h.inbox with hempty | ⟨report, hone, huntagged, -⟩
    · refine .answered h.requests ?_ ?_ ?_ ?_
      · rw [hempty, h.outgoing]
        exact Receiver.exhausts_nil _
      · simp [hempty, h.outgoing]
      · intro _ hsame
        rw [hopen] at hsame
        cases hsame
      · intro _
        exact h.outgoing
    · exact .refused report read hread h.requests hone huntagged h.outgoing hopen

variable {read : Message → Reading} {first : Arrival} {unread : List Arrival}

/-- The call goes on. -/
theorem Answering.read_on (h : endpoint.Answering request (.next read))
    (hinbox : endpoint.inbox = first :: unread) :
    { endpoint with inbox := unread }.Answering request (read first.message) := by
  cases h with
  | waiting _ _ _ _ _ inbox =>
    rw [inbox] at hinbox
    cases hinbox
  | answered requests exhausts own served closed =>
    rw [hinbox] at exhausts own
    refine .answered requests ?_ ?_ served closed
    · exact Receiver.exhausts_cons_iff.mp exhausts
    · intro a ha
      exact own a (List.mem_cons_of_mem _ ha)
  | refused report _ _ requests inbox untagged outgoing isOpen =>
    rw [hinbox] at inbox
    obtain ⟨rfl, rfl⟩ := List.cons.inj inbox
    refine .answered requests ?_ ?_ ?_ ?_
    · rw [outgoing]
      exact Receiver.exhausts_nil _
    · simp [outgoing]
    · intro _ hopen
      simp only [isOpen] at hopen
      cases hopen
    · intro _
      exact outgoing

/-- The call returns and its endpoint is kept. -/
theorem Answering.idle {result : Except Exc Fetched}
    (h : endpoint.Answering request (.done result)) (hkeep : KeepsEndpoint result) :
    endpoint.Idle := by
  cases h with
  | waiting call _ _ reading =>
    obtain ⟨read, hread⟩ := call.reading_waits
    rw [hread] at reading
    cases reading
  | answered requests exhausts own served closed =>
    have hnone := Receiver.exhausts_done_iff.mp exhausts hkeep
    obtain ⟨hinbox, houtgoing⟩ := List.append_eq_nil_iff.mp (List.map_eq_nil_iff.mp hnone)
    exact ⟨requests, houtgoing, Or.inl hinbox⟩
  | refused _ _ reading => cases reading

/-- A call that stops where nothing of its request is under way. -/
theorem Answering.idle_of_clear (h : endpoint.Answering request rest) (hclear : endpoint.Clear) :
    endpoint.Idle := by
  refine ⟨hclear.requests, hclear.outgoing, ?_⟩
  cases h with
  | waiting _ _ _ _ _ inbox => exact Or.inl inbox
  | answered requests exhausts own served closed =>
    left
    cases hinbox : endpoint.inbox with
    | nil => rfl
    | cons first unread =>
      have huntagged := hclear.inbox first (by simp [hinbox])
      have htagged := own first (by simp [hinbox])
      rw [huntagged] at htagged
      cases htagged
  | refused report _ _ _ inbox untagged _ isOpen => exact Or.inr ⟨report, inbox, untagged, isOpen⟩

end Endpoint

/-! ## Runs -/

theorem orderly_of_idle {s : Transport}
    (hrunning : ∀ request rest, s.running ≠ some (.reading request rest))
    (h : ∀ endpoint, s.endpoint = some endpoint → endpoint.Idle) : Orderly s := by
  intro endpoint hendpoint
  split
  · next request rest hreading => exact absurd hreading (hrunning request rest)
  · exact h endpoint hendpoint

theorem Orderly.idle {s : Transport} (h : Orderly s)
    (hrunning : ∀ request rest, s.running ≠ some (.reading request rest)) {endpoint : Endpoint}
    (hendpoint : s.endpoint = some endpoint) : endpoint.Idle := by
  have hthis := h endpoint hendpoint
  split at hthis
  · next request rest hreading => exact absurd hreading (hrunning request rest)
  · exact hthis

theorem Orderly.answering {s : Transport} (h : Orderly s) {request : Nat} {rest : Reading}
    (hrunning : s.running = some (.reading request rest)) {endpoint : Endpoint}
    (hendpoint : s.endpoint = some endpoint) : endpoint.Answering request rest := by
  have hthis := h endpoint hendpoint
  simpa only [hrunning] using hthis

theorem orderly_finish {s : Transport} {result : Except Exc Fetched}
    (h : KeepsEndpoint result → ∀ endpoint, s.endpoint = some endpoint → endpoint.Idle) :
    Orderly (s.finish result) := by
  apply orderly_of_idle
  · intro request rest hrunning
    cases hrunning
  · intro endpoint hendpoint
    simp only [Transport.finish] at hendpoint
    split_ifs at hendpoint with hkeep
    exact h hkeep endpoint hendpoint

theorem Orderly.map {s : Transport} (h : Orderly s) {f : Endpoint → Endpoint}
    (hidle : ∀ endpoint : Endpoint, endpoint.Idle → (f endpoint).Idle)
    (hanswering : ∀ endpoint request rest, s.endpoint = some endpoint →
      s.running = some (.reading request rest) → endpoint.Answering request rest →
        (f endpoint).Answering request rest) :
    Orderly { s with endpoint := s.endpoint.map f } := by
  intro moved hmoved
  obtain ⟨endpoint, hendpoint, rfl⟩ := Option.map_eq_some_iff.mp hmoved
  have hthis := h endpoint hendpoint
  split at hthis
  · next request rest hreading =>
    simp only [hreading]
    exact hanswering endpoint request rest hendpoint hreading hthis
  · exact hidle endpoint hthis

theorem step_orderly {s : Transport} {a : Action} (h : Orderly s) (hallowed : Allowed s a) :
    Orderly (step s a) := by
  have hfresh : Endpoint.Idle {} := ⟨rfl, rfl, Or.inl rfl⟩
  cases a with
  | warm =>
    simp only [step]
    split
    · next hrunning _ =>
      apply orderly_of_idle
      · simp [hrunning]
      · rintro endpoint ⟨⟩
        exact hfresh
    · exact h
  | call call =>
    simp only [step]
    split
    · next hrunning _ =>
      apply orderly_of_idle
      · intro request rest
        split_ifs <;> simp
      · intro endpoint hendpoint
        exact h.idle (by simp [hrunning]) hendpoint
    · exact h
  | connect =>
    simp only [step]
    split
    · apply orderly_of_idle
      · simp
      · rintro endpoint ⟨⟩
        exact hfresh
    · exact h
  | send =>
    simp only [step]
    split
    · next call endpoint hrunning hendpoint =>
      have hidle := h.idle (by simp [hrunning]) hendpoint
      split
      · apply orderly_finish
        intro _ other hother
        rw [hendpoint] at hother
        exact Option.some.inj hother ▸ hidle
      · next raw hraw =>
        rintro moved ⟨⟩
        exact hidle.send hraw
    · exact h
  | receive =>
    simp only [step]
    split
    · next request read endpoint hrunning hendpoint =>
      split
      · exact h
      · next first unread hinbox =>
        have hread := (h.answering hrunning hendpoint).read_on hinbox
        split
        · next result hresult =>
          rw [hresult] at hread
          apply orderly_finish
          rintro hkeep moved ⟨⟩
          exact hread.idle hkeep
        · rintro moved ⟨⟩
          exact hread
    · exact h
  | fail =>
    simp only [step]
    split_ifs
    · apply orderly_finish
      intro hkeep
      cases hkeep
    · exact h
  | cancel =>
    apply orderly_of_idle
    · intro request rest hrunning
      cases hrunning
    · intro endpoint hendpoint
      have hclear := hallowed endpoint hendpoint
      have hthis := h endpoint hendpoint
      split at hthis
      · exact hthis.idle_of_clear hclear
      · exact hthis
  | serve server reported =>
    exact h.map (fun endpoint hidle => hidle.serve server reported)
      fun endpoint request rest _ _ hanswering => hanswering.serve server reported
  | deliver =>
    exact h.map (fun endpoint hidle => hidle.deliver)
      fun endpoint request rest _ _ hanswering => hanswering.deliver
  | raise e arrived reported =>
    refine h.map (fun endpoint hidle => hidle.raise e arrived reported) ?_
    intro endpoint request rest hendpoint hrunning hanswering
    exact hanswering.raise e (hallowed endpoint request rest hendpoint hrunning)

theorem Orderly.sends_on_clear {s : Transport} (h : Orderly s) (a : Action) : SendsOnClear s a := by
  cases a with
  | send =>
    intro call endpoint hrunning hendpoint
    exact (h.idle (by simp [hrunning]) hendpoint).clear
  | _ => trivial

theorem Orderly.reads_own {s : Transport} (h : Orderly s) (a : Action) : ReadsOwn s a := by
  cases a with
  | receive =>
    intro request rest endpoint hrunning hendpoint first hfirst
    obtain ⟨unread, hinbox⟩ := List.head?_eq_some_iff.mp hfirst
    cases h.answering hrunning hendpoint with
    | waiting _ _ _ _ _ inbox =>
      rw [inbox] at hinbox
      cases hinbox
    | answered _ _ own => exact Or.inl (own first (by simp [hinbox]))
    | refused report _ _ _ inbox untagged =>
      rw [hinbox] at inbox
      obtain ⟨rfl, -⟩ := List.cons.inj inbox
      exact Or.inr untagged
  | _ => trivial

theorem orderly_initial : Orderly {} := by
  rintro endpoint ⟨⟩

/-- **No request is sent while something of an earlier one is under way**, and no
call reads what answers another's. The stores may change between requests and a
call may fail at any `await`. Left out are a call cancelled while something of
its request is under way, and a handler that reports a failure after a last
message that satisfies the call has arrived. -/
theorem requests_meet_clear_endpoint {actions : List Action}
    (h : Runs.EveryStep step Allowed {} actions) :
    Runs.EveryStep step (fun s a => SendsOnClear s a ∧ ReadsOwn s a) {} actions := by
  have halways := Runs.always_of_everyStep (fun _ _ => step_orderly) orderly_initial h
  exact halways.everyStep fun _ a horderly => ⟨horderly.sends_on_clear a, horderly.reads_own a⟩

theorem connected {call : Call} (hcheck : call.check = .ok ()) :
    step (step {} (.call call)) .connect =
      { endpoint := some {}, running := some (.sending call) } := by
  simp only [step, hcheck]
  rfl

omit [Library] in
/-- A wait cancelled before its request is sent, then one that is answered. -/
theorem requests_meet_clear_endpoint_announced :
    let _ := asciiLibrary
    Runs.EveryStep step (fun s a => SendsOnClear s a ∧ ReadsOwn s a) {}
      [.call (.waitForVersion (str "v1")), .connect, .cancel, .call (.waitForVersion (str "v1")),
        .send, .serve threeBytesServer true, .deliver, .receive,
        .call (.fetchShard (str "v1") 0 none none), .send, .fail] := by
  intro _
  have hcheck : (Call.waitForVersion (str "v1")).check = .ok () := by decide
  refine requests_meet_clear_endpoint ⟨trivial, trivial, ?_, trivial, trivial, trivial, trivial,
    trivial, trivial, trivial, trivial, trivial⟩
  intro endpoint hendpoint
  rw [connected hcheck] at hendpoint
  obtain rfl := Option.some.inj hendpoint
  exact ⟨rfl, rfl, by simp⟩

/-! ## What is left behind -/

/-- The next call sends its request on the endpoint that was kept. -/
theorem sends_on_kept {s : Transport} (hrunning : s.running = none) {endpoint : Endpoint}
    (hendpoint : s.endpoint = some endpoint) {call : Call} (hcheck : call.check = .ok ())
    (h : Runs.EveryStep step SendsOnClear s [.call call, .send]) : endpoint.Clear := by
  have hcalled : step s (.call call) = { s with running := some (.sending call) } := by
    simp only [step, hrunning, hcheck, hendpoint, Option.isSome_some, if_true]
  rw [Runs.EveryStep, Runs.EveryStep, hcalled] at h
  exact h.2.1 call endpoint rfl hendpoint

/-- A cancellation keeps the endpoint as it is. -/
theorem cancelled_keeps {s : Transport} {endpoint : Endpoint} (hendpoint : s.endpoint = some endpoint)
    {call : Call} (hcheck : call.check = .ok ())
    (h : Runs.EveryStep step SendsOnClear (step s .cancel) [.call call, .send]) : endpoint.Clear :=
  sends_on_kept (s := step s .cancel) rfl hendpoint hcheck h

/-- A call that is satisfied with `front` leaves what is behind it. -/
theorem receives_front {s : Transport} {request : Nat} {rest : Reading} (endpoint : Endpoint)
    (front back : List Arrival) (hfront : front ≠ [])
    (hrunning : s.running = some (.reading request rest)) (hendpoint : s.endpoint = some endpoint)
    (hinbox : endpoint.inbox = front ++ back) {result : Except Exc Fetched}
    (hrun : rest.run (front.map Arrival.message) = (some result, [])) (hkeep : KeepsEndpoint result) :
    ((List.replicate front.length Action.receive).foldl step s).running = none ∧
      ((List.replicate front.length Action.receive).foldl step s).endpoint =
        some { endpoint with inbox := back } := by
  induction front generalizing s rest endpoint with
  | nil => exact absurd rfl hfront
  | cons first others ih =>
    cases rest with
    | done other => cases hrun
    | next read =>
      rw [List.length_cons, List.replicate_succ, List.foldl_cons]
      have hread : (read first.message).run (others.map Arrival.message) = (some result, []) := hrun
      cases hnext : read first.message with
      | done other =>
        rw [hnext, Receiver.run] at hread
        obtain ⟨hother, hothers⟩ := Prod.mk.inj hread
        obtain rfl := Option.some.inj hother
        obtain rfl := List.map_eq_nil_iff.mp hothers
        have hstep : step s .receive = { s with
            running := none, endpoint := some { endpoint with inbox := back } } := by
          simp only [step, hrunning, hendpoint, hinbox, List.cons_append, List.nil_append, hnext,
            Transport.finish, if_pos hkeep]
        rw [hstep]
        exact ⟨rfl, rfl⟩
      | next goesOn =>
        have hstep : step s .receive = { s with
            running := some (.reading request (.next goesOn))
            endpoint := some { endpoint with inbox := others ++ back } } := by
          simp only [step, hrunning, hendpoint, hinbox, List.cons_append, hnext]
        rw [hnext] at hread
        have hne : others ≠ [] := by
          rintro rfl
          cases hread
        rw [hstep]
        exact ih { endpoint with inbox := others ++ back } hne rfl rfl rfl hread

/-- A report behind the message that satisfies a call is there when the next
request is sent. -/
theorem reported_keeps {s : Transport} (horderly : Orderly s) {e : Exc} {arrived reported : Bool}
    (hforbidden : ¬ Allowed s (.raise e arrived reported)) {call : Call}
    (hcheck : call.check = .ok ()) :
    ∃ n, ¬ Runs.EveryStep step SendsOnClear (step s (.raise e arrived reported))
      (List.replicate n .receive ++ [.call call, .send]) := by
  simp only [Allowed, not_forall, not_not] at hforbidden
  obtain ⟨endpoint, request, rest, hendpoint, hrunning, hone, rfl, hreport, result, left, hrun,
    hkeep⟩ := hforbidden
  obtain ⟨last, houtgoing⟩ := List.length_eq_one_iff.mp hone
  rw [houtgoing] at hrun
  cases horderly.answering hrunning hendpoint with
  | waiting _ _ _ _ _ _ outgoing =>
    rw [outgoing] at houtgoing
    cases houtgoing
  | refused _ _ _ _ _ _ outgoing =>
    rw [outgoing] at houtgoing
    cases houtgoing
  | answered requests exhausts own served closed =>
    rw [houtgoing] at exhausts own
    obtain rfl := exhausts result left hrun hkeep
    have hopen : endpoint.isOpen = true := by
      by_contra hclosed
      have hnone := closed (by simpa using hclosed)
      rw [hnone] at houtgoing
      cases houtgoing
    have hstep : step s (.raise e true reported) = { s with
        endpoint := some ({ endpoint with inbox := endpoint.inbox ++ [last] }.fail last.request e
          reported) } := by
      simp only [step, hendpoint, Option.map_some, Endpoint.raise, hopen, houtgoing, if_true]
    obtain ⟨hnone, hkept⟩ := receives_front (s := step s (.raise e true reported)) _
      (endpoint.inbox ++ [last]) ((endpoint.report e reported).map (⟨last.request, ·⟩))
      (by simp) (by rw [hstep, hrunning]) (by rw [hstep]) rfl hrun hkeep
    refine ⟨(endpoint.inbox ++ [last]).length, fun hsends => ?_⟩
    have hclear := sends_on_kept hnone hkept hcheck ((Runs.everyStep_append_iff _ _).mp hsends).2
    obtain ⟨report, others, hsome⟩ := List.exists_cons_of_ne_nil hreport
    have huntagged := hclear.inbox ⟨last.request, report⟩ (by simp [hsome])
    rw [own last (by simp)] at huntagged
    cases huntagged

/-- Neither a cancellation nor a failure of the handler. -/
def Action.Quiet : Action → Prop
  | .cancel => False
  | .raise _ _ _ => False
  | _ => True

omit [Library] in
theorem Action.Quiet.allowed {a : Action} (h : a.Quiet) (s : Transport) : Allowed s a := by
  cases a with
  | cancel => exact h.elim
  | raise => exact h.elim
  | _ => trivial

/-- Whatever the calls do from here, each request is sent on a clear endpoint. -/
def Unspoiled (s : Transport) : Prop :=
  ∀ later : List Action, (∀ a ∈ later, a.Quiet) → Runs.EveryStep step SendsOnClear s later

theorem Orderly.sends {s : Transport} (h : Orderly s) {later : List Action}
    (hlater : Runs.EveryStep step Allowed s later) : Runs.EveryStep step SendsOnClear s later :=
  (Runs.always_of_everyStep (fun _ _ => step_orderly) h hlater).everyStep
    fun _ a horderly => horderly.sends_on_clear a

theorem Orderly.unspoiled {s : Transport} (h : Orderly s) : Unspoiled s :=
  fun _ hquiet => h.sends (Runs.everyStep_of_forall fun a ha s => (hquiet a ha).allowed s)

/-- What is not allowed leaves something behind. -/
theorem spoiled {s : Transport} (h : Orderly s) {a : Action} (hforbidden : ¬ Allowed s a) :
    ¬ Unspoiled (step s a) := by
  have hcheck : (Call.waitForVersion (str "v1")).check = .ok () := by decide
  intro hunspoiled
  cases a with
  | cancel =>
    apply hforbidden
    intro endpoint hendpoint
    exact cancelled_keeps hendpoint hcheck (hunspoiled _ (by simp [Action.Quiet]))
  | raise e arrived reported =>
    obtain ⟨n, hsends⟩ := reported_keeps h hforbidden hcheck
    refine hsends (hunspoiled _ fun b hb => ?_)
    rcases List.mem_append.mp hb with hb | hb
    · rw [List.eq_of_mem_replicate hb]
      trivial
    · rcases List.mem_pair.mp hb with rfl | rfl <;> trivial
  | _ => exact hforbidden trivial

/-- **The endpoint is left clear for the next request exactly by the runs whose
steps are all allowed.** In these each request is sent with nothing of an earlier
one unread or in flight; after any other step a later request meets what the step
left behind. -/
theorem clear_iff_allowed (actions : List Action) :
    (Runs.EveryStep step Allowed {} actions → Runs.EveryStep step SendsOnClear {} actions) ∧
      (Runs.Always step Unspoiled {} actions ↔ Runs.EveryStep step Allowed {} actions) := by
  constructor
  · exact orderly_initial.sends
  · exact Runs.always_iff_everyStep Orderly
      (fun _ _ h (_ : True) hallowed => step_orderly h hallowed) (fun _ h => h.unspoiled)
      (fun _ _ h _ hforbidden => spoiled h hforbidden) orderly_initial fun _ _ => trivial

omit [Library] in
/-- A wait whose request is on its way. -/
theorem waiting_sent :
    let _ := asciiLibrary
    ∃ raw, [Action.call (.waitForVersion (str "v1")), .connect, .send].foldl step {} =
      { endpoint := some { requests := [(0, raw)] }
        running := some (.reading 0 (Call.waitForVersion (str "v1")).reading), sent := 1 } := by
  intro _
  have hcheck : (Call.waitForVersion (str "v1")).check = .ok () := by decide
  have haccepted : (Request.waitVersion (str "v1")).Accepted := hcheck
  obtain ⟨raw, hraw, -⟩ := haccepted.sent
  refine ⟨raw, ?_⟩
  simp only [List.foldl_cons, List.foldl_nil, connected hcheck]
  simp only [step, Call.request, hraw]
  rfl

omit [Library] in
/-- A wait is cancelled with its request sent, and the next request follows it. -/
theorem cancelled_wait_left_behind :
    let _ := asciiLibrary
    ¬ Runs.EveryStep step SendsOnClear {}
      [.call (.waitForVersion (str "v1")), .connect, .send, .cancel,
        .call (.waitForVersion (str "v1")), .send] := by
  intro _ hsends
  have hcheck : (Call.waitForVersion (str "v1")).check = .ok () := by decide
  obtain ⟨raw, hsent⟩ := waiting_sent
  have hlater := (Runs.everyStep_append_iff [Action.call (.waitForVersion (str "v1")),
    .connect, .send, .cancel] _).mp hsends
  have hkept : ([Action.call (.waitForVersion (str "v1")), .connect, .send, .cancel].foldl step
      {}).endpoint = some { requests := [(0, raw)] } := congrArg Transport.endpoint hsent
  cases (sends_on_kept rfl hkept hcheck hlater.2).requests

/-! ## Cancellation -/

/-- **A cancellation is harmless exactly when nothing of the request is under
way.** Otherwise the endpoint is kept, and the next call sends its request with
that still to be read. -/
theorem cancel_allowed_iff {actions : List Action} (h : Runs.EveryStep step Allowed {} actions) :
    let s := actions.foldl step {}
    (Allowed s .cancel ↔ ∀ later, Runs.EveryStep step Allowed (step s .cancel) later →
      Runs.EveryStep step SendsOnClear (step s .cancel) later) ∧
    (¬ Allowed s .cancel → (step s .cancel).endpoint = s.endpoint ∧ s.endpoint.isSome = true ∧
      ∀ call : Call, call.check = .ok () →
        ¬ Runs.EveryStep step SendsOnClear (step s .cancel) [.call call, .send]) := by
  intro s
  have horderly : Orderly s :=
    Runs.always_foldl (Runs.always_of_everyStep (fun _ _ => step_orderly) orderly_initial h)
  have hcheck : (Call.waitForVersion (str "v1")).check = .ok () := by decide
  refine ⟨⟨fun hallowed later hlater => ?_, fun hlater endpoint hendpoint => ?_⟩, fun hforbidden => ?_⟩
  · exact (step_orderly horderly hallowed).sends hlater
  · exact cancelled_keeps hendpoint hcheck (hlater _ ⟨trivial, trivial, trivial⟩)
  · simp only [Allowed, not_forall] at hforbidden
    obtain ⟨endpoint, hendpoint, hunclear⟩ := hforbidden
    refine ⟨rfl, by rw [hendpoint]; rfl, fun call hvalid hsends => ?_⟩
    exact hunclear (cancelled_keeps hendpoint hvalid hsends)

omit [Library] in
/-- A wait is cancelled with its request sent: the next request follows it. -/
theorem cancel_allowed_iff_waiting :
    let _ := asciiLibrary
    let s := [Action.call (.waitForVersion (str "v1")), .connect, .send].foldl step {}
    (step s .cancel).endpoint.isSome = true ∧
      ¬ Runs.EveryStep step SendsOnClear (step s .cancel)
        [.call (.waitForVersion (str "v1")), .send] := by
  intro _ s
  have hcheck : (Call.waitForVersion (str "v1")).check = .ok () := by decide
  obtain ⟨raw, hsent⟩ := waiting_sent
  have hstart : Runs.EveryStep step Allowed {}
      [.call (.waitForVersion (str "v1")), .connect, .send] := ⟨trivial, trivial, trivial, trivial⟩
  have hforbidden : ¬ Allowed s .cancel := by
    intro hallowed
    have hendpoint : s.endpoint = some { requests := [(0, raw)] } := congrArg Transport.endpoint hsent
    cases (hallowed _ hendpoint).requests
  obtain ⟨hkept, hthere, hbehind⟩ := (cancel_allowed_iff hstart).2 hforbidden
  exact ⟨hkept ▸ hthere, hbehind _ hcheck⟩

end

end Litecast.Ucxx.Persistent
