import Litecast.JsonText
import Litecast.Lib.BigEndian

/-! `registry/protocol.py`: run ids, adapter bundles and the publications of a
run. -/

namespace Litecast

/-- `[a-zA-Z0-9_-]` -/
def isRunIdChar (c : CodePoint) : Bool :=
  (97 ≤ c.val && c.val ≤ 122) || (65 ≤ c.val && c.val ≤ 90) || (48 ≤ c.val && c.val ≤ 57) ||
    c = .ofChar '_' || c = .ofChar '-'

def validateRunId (runId : Str) : Option Exc :=
  if runId ≠ [] ∧ runId.length ≤ 80 ∧ runId.all isRunIdChar then none
  else some ⟨.valueError, str "run_id must contain 1-80 letters, digits, underscores or hyphens"⟩

def peerService (runId digest : Str) : Str := str "litecast:" ++ runId ++ str ":" ++ digest

/-! ## Bundles -/

/-- What `registry` calls besides the functions of `Library`. -/
class BundleLibrary where
  /-- `hashlib.sha256(data).hexdigest()` -/
  sha256 : Bytes → Str
  /-- The text `json.loads` decodes bytes to, `none` where it has none. -/
  decodeJson : Bytes → Option Str

/-- `MAGIC` -/
def bundleMagic : Bytes := (encodeUtf8 (str "SC-LORA1")).getD []

def maxConfigBytes : Nat := 1024 * 1024

/-- `json.loads` of bytes; `nestingLimit` is the nesting the interpreter bears. -/
def loadsBytes [Library] [BundleLibrary] (nestingLimit : Nat) (data : Bytes) : Except Exc Json :=
  match BundleLibrary.decodeJson data with
  | none => .error ⟨.valueError, str "codec can't decode bytes"⟩
  | some text =>
    let text := JsonText.skipWhite text
    if nestingLimit < JsonText.valueDepth (2 * text.length + 1) text then
      .error ⟨.recursionError, str "maximum recursion depth exceeded"⟩
    else
      match JsonText.scanValue (2 * text.length + 1) text with
      | some (value, rest) =>
        if JsonText.skipWhite rest = [] then .ok value else .error ⟨.valueError, str "Extra data"⟩
      | none => .error ⟨.valueError, str "Expecting value"⟩

def splitAdapter [Library] [BundleLibrary] (nestingLimit : Nat) (payload : Bytes) :
    Except Exc (Bytes × Bytes) :=
  if payload.length < 16 ∨ payload.take 8 ≠ bundleMagic then
    .error ⟨.valueError, str "invalid adapter bundle"⟩
  else
    let length := BigEndian.decode ((payload.drop 8).take 8)
    if length = 0 ∨ maxConfigBytes < length ∨ payload.length ≤ 16 + length then
      .error ⟨.valueError, str "invalid adapter configuration length"⟩
    else
      let config := (payload.drop 16).take length
      let weights := payload.drop (16 + length)
      match loadsBytes nestingLimit config with
      | .error e => .error e
      | .ok value =>
        if value.isObject = false ∨
            ((value.get? (str "peft_type")).bind Json.string?) ≠ some (str "LORA") then
          .error ⟨.valueError, str "only PEFT LoRA adapters are supported"⟩
        else .ok (config, weights)

/-! ## Publications -/

/-- `[0-9a-f]{64}` -/
def isBundleDigest (digest : Str) : Bool :=
  digest.length = 64 &&
    digest.all fun c => (48 ≤ c.val && c.val ≤ 57) || (97 ≤ c.val && c.val ≤ 102)

structure Publication where
  runId : Str
  baseModel : Json
  step : Nat
  digest : Str
  size : Nat
  runId_valid : validateRunId runId = none
  size_valid : 16 < size
  digest_valid : isBundleDigest digest = true
  baseModel_given : baseModel.truthy = true

/-- `__post_init__` -/
def Publication.make (runId : Str) (baseModel : Json) (step : Int) (digest : Str) (size : Int) :
    Except Exc Publication :=
  if hrun : validateRunId runId = none then
    if step < 0 then .error ⟨.valueError, str "step must be a non-negative integer"⟩
    else if hsize : size ≤ 16 then .error ⟨.valueError, str "invalid bundle size"⟩
    else if hdigest : isBundleDigest digest then
      if hbase : baseModel.truthy then
        .ok ⟨runId, baseModel, step.toNat, digest, size.toNat, hrun, by omega, hdigest, hbase⟩
      else .error ⟨.valueError, str "base_model is required"⟩
    else .error ⟨.valueError, str "invalid bundle digest"⟩
  else .error ((validateRunId runId).getD ⟨.valueError, []⟩)

def Publication.modelName (publication : Publication) : Str :=
  str "sc-" ++ publication.runId ++ str "-s" ++ decimal publication.step ++ str "-" ++
    publication.digest

/-- `verify` -/
def Publication.verify [Library] [BundleLibrary] (nestingLimit : Nat) (publication : Publication)
    (payload : Bytes) : Except Exc Unit :=
  if payload.length ≠ publication.size ∨ BundleLibrary.sha256 payload ≠ publication.digest then
    .error ⟨.valueError, str "adapter bundle integrity failure"⟩
  else (splitAdapter nestingLimit payload).map fun _ => ()

end Litecast
