import Litecast.Downloads
import Litecast.ControlFrames
import Litecast.WholeVersion

/-! What a client downloads of an origin that also serves over UCXX. -/

namespace Litecast.UcxxDownloads

open Releases Downloads Ucxx Protocol OriginServer

section
variable [Library]

/-! ## A refused request -/

/-- The server has the version in RAM and sends it, and the client takes it. -/
def Sendable (server : Server) (maximum : Nat) (r : Release) : Prop :=
  validateVersion r.version = .ok () ∧ (server.store.get r.version).isSome = true ∧
    r.payload.length ≤ min maximum server.maxTotalSize ∧ r.shardSize ≤ maxShardSize

instance (server : Server) (maximum : Nat) (r : Release) : Decidable (Sendable server maximum r) :=
  inferInstanceAs (Decidable (_ ∧ _))

variable {server : Server} {r : Release} {v : StoredVersion} (served : Bool) (maximum : Nat)

section
variable (hcertified : server.store.Every Certified) (hlimit : server.maxTotalSize < 2 ^ 64)
  (hcount : r.shardCount ≤ maxShardCount)
include hcertified hlimit hcount

end

/-! ## Either way -/

variable {files : Files} {path : Str} {p : Catalogue} {s : OriginServer}

end

end Litecast.UcxxDownloads
