import Litecast.Fetching

/-! `serve_publisher` of `registry/middle.py`: the session in which a middle follows
a publisher and registers what it has verified. -/

namespace Litecast.MiddleSession

structure Args where
  runId : Str
  maxAdapterBytes : Nat
  /-- The nesting of JSON the interpreter bears. -/
  nestingLimit : Nat

/-- What a publisher keeps under `desired_key`. -/
structure Descriptor where
  schema : Json
  /-- The publisher's name, a string as publishers write it. A `null`, which would
  slip past `owner is not None`, is left out. -/
  owner : Str
  /-- `[Publication(**p) for p in desired["publications"]]` -/
  publications : Except Exc (List Publication)

/-- What the next calls and awaits of the session come to. -/
structure Answer where
  stopped : Bool
  raw : Except Exc (Option Descriptor)
  models : Except Exc Models
  /-- `MiddleNode(...)` -/
  middle : Except Exc Unit
  /-- The version is processed and in the store. -/
  cached : Bool
  /-- `client.download_version_buffer` from the middle's own port. -/
  payload : Except Exc (Option Bytes)
  register : Except Exc Unit
  deregister : Except Exc Unit
  /-- The version is in the store when its registration is checked. -/
  held : Bool
  heartbeat : Except Exc Unit
  wait : Except Exc Unit

inductive Event where
  | read (descriptor : Option Descriptor)
  /-- The middle is created under the owner followed then. -/
  | started (owner : Option Str)
  | downloaded (version : Str) (payload : Bytes)
  | registered (service version : Str)
  | held (service version : Str)
  | withdrawn (service : Str)

/-- Where the session is. -/
inductive Phase where
  | top
  | withdrawing (left : List Str)
  | serving (models : Models) (publications left : List Publication)
  | keeping (publications : List Publication) (left : List (Str × Str))
  | waiting
  | ended

structure Session where
  phase : Phase := .top
  owner : Option Str := none
  middle : Bool := false
  /-- Services with the version each is registered for. -/
  registrations : OrderedDict Str Str := .empty
  trace : List Event := []

namespace Session

def log (s : Session) (events : List Event) : Session := { s with trace := s.trace ++ events }

/-- `finally` -/
def leave (s : Session) : Session :=
  { s.log (s.registrations.keys.map Event.withdrawn) with phase := .ended }

/-- The start of a pass. -/
def readDescriptor (s : Session) (a : Answer) : Session :=
  match a.raw with
  | .error _ => s.leave
  | .ok none => { s.log [.read none] with phase := .withdrawing s.registrations.keys }
  | .ok (some desired) =>
    let s := s.log [.read (some desired)]
    if desired.schema.eqInt 1 = false then s.leave
    else if s.owner.isSome ∧ s.owner ≠ some desired.owner ∧
        (s.middle = true ∨ s.registrations.keys ≠ []) then s.leave
    else
      let s := { s with owner := some desired.owner }
      match desired.publications, a.models with
      | .ok publications, .ok models =>
        { s with phase := .serving models publications publications }
      | _, _ => s.leave

/-- The versions the origins have a service's publication under. -/
def originVersions (models : Models) (service : Str) : List (Option Str) :=
  (((models.get? service).getD []).filter fun record =>
    record.sourceRole = some (str "origin")).map SourceRecord.litecastVersion

/-- `if middle is None` -/
def startMiddle (s : Session) (a : Answer) : Except Exc Session :=
  if s.middle then .ok s
  else a.middle.map fun _ => { s.log [.started s.owner] with middle := true }

variable [Library] [BundleLibrary]

/-- The cache is validated before it is advertised. -/
def register (args : Args) (s : Session) (publication : Publication) (version : Str) (a : Answer) :
    Session :=
  let service := peerService args.runId publication.digest
  match a.payload with
  | .ok (some payload) =>
    match publication.verify args.nestingLimit payload, a.register with
    | .ok (), .ok () =>
      { s.log [.downloaded version payload, .registered service version] with
        registrations := s.registrations.insert service version }
    | _, _ => s.leave
  | _ => s.leave

/-- The body of `for publication in publications`. -/
def serveOne (args : Args) (s : Session) (models : Models) (publication : Publication)
    (a : Answer) : Session :=
  if publication.runId ≠ args.runId ∨ args.maxAdapterBytes < publication.size then s.leave
  else
    let service := peerService args.runId publication.digest
    match originVersions models service with
    | [] => s
    | none :: _ => s.leave
    | some version :: _ =>
      match s.startMiddle a with
      | .error _ => s.leave
      | .ok s =>
        if a.cached = false ∨ s.registrations.contains service = true then s
        else s.register args publication version a

/-- The body of `for service, registration in list(registrations.items())`. -/
def keepOne (args : Args) (s : Session) (publications : List Publication)
    (service version : Str) (a : Answer) : Session :=
  let keep := publications.map fun p => peerService args.runId p.digest
  if service ∉ keep ∨ s.middle = false ∨ a.held = false then
    match a.deregister with
    | .ok () =>
      { s.log [.withdrawn service] with registrations := s.registrations.erase service }
    | .error _ => s.leave
  else
    match a.heartbeat with
    | .ok () => s.log [.held service version]
    | .error _ => s.leave

/-- One turn of the loop the session is in. -/
def step (args : Args) (s : Session) (a : Answer) : Session :=
  match s.phase with
  | .top => if a.stopped then s.leave else s.readDescriptor a
  | .withdrawing [] => { s with registrations := .empty, phase := .waiting }
  | .withdrawing (service :: left) =>
    match a.deregister with
    | .ok () => { s.log [.withdrawn service] with phase := .withdrawing left }
    | .error _ => s.leave
  | .serving _ publications [] =>
    { s with phase := .keeping publications s.registrations.entries }
  | .serving models publications (publication :: left) =>
    { s with phase := .serving models publications left }.serveOne args models publication a
  | .keeping _ [] => { s with phase := .waiting }
  | .keeping publications ((service, version) :: left) =>
    { s with phase := .keeping publications left }.keepOne args publications service version a
  | .waiting =>
    match a.wait with
    | .ok () => { s with phase := .top }
    | .error _ => s.leave
  | .ended => s

/-- An invalid run id raises before the session. -/
def start (args : Args) : Session :=
  if validateRunId args.runId = none then {} else { phase := .ended }

def serve (args : Args) (answers : List Answer) : Session := answers.foldl (step args) (start args)

end Session

end Litecast.MiddleSession
