import Litecast.JsonKeys
import Litecast.Protocol
import Litecast.Url

/-! `endpoints.py`: the document that tells clients of an optional UCXX path. -/

namespace Litecast

structure UCXXEndpoint where
  host : Str
  port : Int
  interface : Option Str := none
  verifiedRdma : Bool := false
  deriving DecidableEq

structure EndpointMetadata where
  httpBaseUrl : Str
  ucxx : Option UCXXEndpoint := none
  schema : Int := 1
  middleId : Option Str := none
  capabilities : List Str := []
  deriving DecidableEq

namespace EndpointMetadata

def endpointSchema : Int := 1
def streamingEndpointSchema : Int := 2
def maxEndpointsJsonSize : Nat := 16 * 1024
def maxUrlSize : Nat := 4096
def maxHostSize : Nat := 255
def maxInterfaceSize : Nat := 64

abbrev error {α : Type} (message : Str) : Except Exc α := .error ⟨.endpointMetadataError, message⟩

/-! ## Writing -/

def ucxxDict (endpoint : UCXXEndpoint) : Json :=
  .obj ([(str "host", .str endpoint.host), (str "port", .int endpoint.port),
    (str "verified_rdma", .bool endpoint.verifiedRdma)] ++
    endpoint.interface.elim [] fun interface => [(str "interface", .str interface)])

def toDict (metadata : EndpointMetadata) : Json :=
  .obj ([(str "schema", .int metadata.schema),
      (str "http", .obj [(str "base_url", .str metadata.httpBaseUrl)])] ++
    (metadata.ucxx.elim [] fun endpoint => [(str "ucxx", ucxxDict endpoint)]) ++
    if streamingEndpointSchema ≤ metadata.schema then
      [(str "capabilities", .arr (metadata.capabilities.map .str))] ++
        metadata.middleId.elim [] fun middleId => [(str "middle_id", .str middleId)]
    else [])

/-! ## Reading -/

/-- `", ".join(sorted(fields))` -/
def joinSorted (fields : List Str) : Str :=
  (str ", ").intercalate (fields.insertionSort fun a b => Str.le a b)

def requireKeys (value : Json) (required optional : List Str) (label : Str) : Except Exc Unit :=
  let missing := required.filter fun key => key ∉ value.keys
  let unknown := value.keys.filter fun key => key ∉ required ∧ key ∉ optional
  if missing ≠ [] then error (label ++ str " is missing fields: " ++ joinSorted missing)
  else if unknown ≠ [] then error (label ++ str " has unknown fields: " ++ joinSorted unknown)
  else .ok ()

theorem nul_lt : 0 < 0x110000 := by decide

def validateText (value : Json) (label : Str) (maximum : Nat) : Except Exc Str :=
  match value.string? with
  | none => error (label ++ str " must be a string")
  | some text =>
    let refused {α : Type} : Except Exc α := error (label ++ str " is empty or too long")
    if text = [] then refused
    else
      match encodeUtf8 text with
      | none => .error ⟨.unicodeEncodeError, []⟩
      | some encoded =>
        if maximum < encoded.length ∨ ⟨0, nul_lt⟩ ∈ text then refused else .ok text

section
variable (checkNetloc : Str → Except Exc Unit)

def validateHttpUrl (value : Json) : Except Exc Str := do
  let url ← validateText value (str "http base_url") maxUrlSize
  let parsed ← urlsplit checkNetloc url
  if (parsed.scheme ≠ str "http" ∧ parsed.scheme ≠ str "https") ∨ parsed.netloc = [] then
    error (str "http base_url must be an absolute HTTP URL")
  else if parsed.query ≠ [] ∨ parsed.fragment ≠ [] ∨ parsed.username ≠ [] ∨ parsed.password ≠ [] then
    error (str "http base_url must not contain credentials, query, or fragment")
  else .ok (Str.rstrip (.ofChar '/') url)

variable [Library]

/-- A text without white space. -/
def parseName (value : Json) (label : Str) (maximum : Nat) : Except Exc Str := do
  let name ← validateText value label maximum
  if name.any isSpace then error (label ++ str " must not contain whitespace") else .ok name

def parsePort (value : Json) : Except Exc Int :=
  match value.plainInt? with
  | some port =>
    if 1 ≤ port ∧ port ≤ 65535 then .ok port
    else error (str "ucxx port must be between 1 and 65535")
  | none => error (str "ucxx port must be between 1 and 65535")

/-- A field that may be missing or `null`. -/
def parseOptional {α : Type} (parse : Json → Except Exc α) (value : Json) (key : Str) :
    Except Exc (Option α) :=
  match (value.get? key).getD .null with
  | .null => .ok none
  | found => some <$> parse found

def parseUcxx (value : Json) : Except Exc UCXXEndpoint := do
  let item (key : Str) := (value.get? key).getD .null
  if value.isObject = false then error (str "ucxx must be an object")
  else
    requireKeys value [str "host", str "port"] [str "interface", str "verified_rdma"] (str "ucxx")
    let host ← parseName (item (str "host")) (str "ucxx host") maxHostSize
    let port ← parsePort (item (str "port"))
    let interface ← parseOptional
      (fun found => parseName found (str "ucxx interface") maxInterfaceSize) value (str "interface")
    match (value.get? (str "verified_rdma")).getD (.bool false) with
    | .bool verifiedRdma => .ok { host, port, interface, verifiedRdma }
    | _ => error (str "verified_rdma must be boolean")

def parseSchema (value : Json) : Except Exc Int :=
  match ((value.get? (str "schema")).getD .null).plainInt? with
  | some schema =>
    if schema = endpointSchema ∨ schema = streamingEndpointSchema then .ok schema
    else error (str "unsupported endpoint metadata schema")
  | none => error (str "unsupported endpoint metadata schema")

def parseBaseUrl (value : Json) : Except Exc Str := do
  let http := (value.get? (str "http")).getD .null
  if http.isObject = false then error (str "http must be an object")
  else
    requireKeys http [str "base_url"] [] (str "http")
    validateHttpUrl checkNetloc ((http.get? (str "base_url")).getD .null)

def parseCapabilities (value : Json) : Except Exc (List Str) :=
  let refused : Except Exc (List Str) := error (str "capabilities must be unique strings")
  match (value.get? (str "capabilities")).getD (.arr []) with
  | .arr items =>
    match items.mapM Json.string? with
    | some capabilities =>
      if capabilities.all (fun item => item ≠ [] ∧ item.length ≤ 64) ∧ capabilities.Nodup then
        .ok capabilities
      else refused
    | none => refused
  | _ => refused

/-- `_parse_mapping` -/
def parseMapping (value : Json) : Except Exc EndpointMetadata := do
  requireKeys value [str "schema", str "http"] [str "ucxx", str "middle_id", str "capabilities"]
    (str "endpoint metadata")
  let schema ← parseSchema value
  if schema = endpointSchema ∧
      (str "middle_id" ∈ value.keys ∨ str "capabilities" ∈ value.keys) then
    error (str "schema 1 does not support streaming fields")
  else
    let httpBaseUrl ← parseBaseUrl checkNetloc value
    let ucxx ← parseOptional parseUcxx value (str "ucxx")
    let middleId ← parseOptional (fun found => validateText found (str "middle_id") maxUrlSize) value
      (str "middle_id")
    let capabilities ← parseCapabilities value
    return { httpBaseUrl, ucxx, schema, middleId, capabilities }

def serialize (metadata : EndpointMetadata) : Except Exc Bytes := do
  let validated ← parseMapping checkNetloc metadata.toDict
  match dumpsUnicode validated.toDict with
  | none => .error ⟨.unicodeEncodeError, []⟩
  | some encoded =>
    if maxEndpointsJsonSize < encoded.length then
      error (str "endpoint metadata exceeds maximum size")
    else .ok encoded

/-- `parse_endpoint_metadata` of bytes. -/
def parse (raw : Bytes) (maxSize : Int := maxEndpointsJsonSize) : Except Exc EndpointMetadata :=
  if maxSize ≤ 0 then valueError (str "max_size must be a positive integer")
  else if maxSize < raw.length then error (str "endpoint metadata exceeds maximum size")
  else
    match repeatedKey raw with
    | some key => error (str "duplicate JSON field: " ++ key)
    | none =>
      match loads raw with
      | none => error (str "invalid endpoint metadata JSON")
      | some value =>
        if value.isObject = false then error (str "endpoint metadata must be a JSON object")
        else parseMapping checkNetloc value

end

end EndpointMetadata

end Litecast
