import Litecast.FrameErrors
import Litecast.MessageDomains
import Litecast.Lib.Receiver

/-! The coroutines of a `UCXXTransport` message by message: what each takes from
its endpoint before it returns, and what the server sends it. -/

namespace Litecast.Ucxx.Persistent

open Protocol JsonText

section
variable [Library]

/-- What one of the calls returns. -/
inductive Fetched where
  | shard (result : ShardFetchResult)
  | shards (result : BatchShardFetchResult)
  | announced

/-- A coroutine after its request has been sent. -/
abbrev Reading := Receiver Message (Except Exc Fetched)

/-- The endpoint is discarded after any other exception. -/
def KeepsEndpoint : Except Exc Fetched → Prop
  | .ok _ => True
  | .error e => e.cls = .versionUnavailableError

instance : DecidablePred KeepsEndpoint
  | .ok _ => inferInstanceAs (Decidable True)
  | .error e => inferInstanceAs (Decidable (e.cls = .versionUnavailableError))

/-! ## Coroutines -/

/-- `await endpoint.recv_obj()` -/
def awaitObj (read : Bytes → Reading) : Reading :=
  .next fun
    | .obj raw => read raw
    | _ => .done (.error transferFailed)

/-- `await endpoint.recv(target)`, left out for an empty target. -/
def awaitPayload (target : Bytes) (read : Bytes → Reading) : Reading :=
  if target = [] then read target
  else
    .next fun
      | .buffer data =>
        if data.length = target.length then read data else .done (.error transferFailed)
      | _ => .done (.error transferFailed)

/-- `_exchange_shard` -/
def readingShard (version : Str) (index : Nat) (expectedChecksum : Option Str)
    (target : Option Bytes) : Reading :=
  awaitObj fun raw =>
    match readShardReply raw version index with
    | .error e => .done (.error e)
    | .ok (size, checksum) =>
      if target.any (fun memory => memory.length ≠ size) then
        .done (protocolViolation (str "target size does not match shard"))
      else
        awaitPayload (target.getD (List.replicate size 0)) fun data =>
          let digest := hexdigest data
          if digest ≠ checksum ∨ expectedChecksum.any (digest ≠ ·) then
            .done (.error ⟨.transportIntegrityError, str "shard BLAKE3 checksum mismatch"⟩)
          else .done (.ok (.shard ⟨data, version, index, digest⟩))

/-- The loop that receives the announced shards; `completed` are those before. -/
def readingEach (expectedChecksums : Nat → Str) (unavailable : List Nat) :
    List (Nat × Str) → Targets → List Nat → Reading
  | [], _, completed => .done (.ok (.shards ⟨completed, unavailable⟩))
  | (index, checksum) :: rest, targets, completed =>
    awaitPayload ((targets.get? index).getD []) fun data =>
      let digest := hexdigest data
      if digest ≠ checksum ∨ digest ≠ expectedChecksums index then
        .done (.error ⟨.transportIntegrityError, str "batched shard BLAKE3 checksum mismatch"⟩)
      else
        readingEach expectedChecksums unavailable rest (targets.insert index data)
          (completed ++ [index])

/-- `_exchange_shards` -/
def readingShards (version : Str) (targets : Targets) (expectedChecksums : Nat → Str) : Reading :=
  awaitObj fun raw =>
    match readBatchReply raw version targets with
    | .error e => .done (.error e)
    | .ok (available, unavailable) =>
      readingEach expectedChecksums unavailable available targets []

/-- The reply to `WAIT_VERSION`. -/
def readAvailable (raw : Bytes) (version : Str) : Except Exc Unit := do
  let frame ← decodeFrame raw maxMetadataSize
  if frame.messageType = .error then
    let message ← decodeError frame
    .error ⟨.versionUnavailableError, message⟩
  else
    let announced ← decodeVersionAvailable frame
    if announced ≠ version then protocolViolation (str "version notification mismatch")

/-- `_wait_for_version_persistent` -/
def readingVersion (version : Str) : Reading :=
  awaitObj fun raw => .done ((readAvailable raw version).map fun _ => .announced)

/-! ## Calls -/

/-- A call that uses the persistent endpoint. `fetch_shard` allocates where
`fetch_shard_into` is given memory. -/
inductive Call where
  | fetchShard (version : Str) (index : Nat) (expectedChecksum : Option Str)
      (target : Option Bytes)
  | fetchShardsInto (version : Str) (targets : Targets) (expectedChecksums : Nat → Str)
  | waitForVersion (version : Str)

namespace Call

/-- What is checked before the coroutine is made. -/
def check : Call → Except Exc Unit
  | fetchShard version _ _ _ => validateVersion version
  | fetchShardsInto version targets _ => do
    validateVersion version
    if targets.keys = [] then
      valueError (str "targets and checksums must contain identical indices")
  | waitForVersion version => validateVersion version

def request : Call → Request
  | fetchShard version index _ _ => .getShard version index
  | fetchShardsInto version targets _ => .getShards version targets.keys
  | waitForVersion version => .waitVersion version

/-- The kind of frame the request is sent in. -/
def messageType : Call → MessageType
  | fetchShard .. => .getShard
  | fetchShardsInto .. => .getShards
  | waitForVersion .. => .waitVersion

def reading : Call → Reading
  | fetchShard version index expectedChecksum target =>
    readingShard version index expectedChecksum target
  | fetchShardsInto version targets expectedChecksums =>
    readingShards version targets expectedChecksums
  | waitForVersion version => readingVersion version

end Call

/-! ## Step by step and at once -/

omit [Library] in
theorem run_awaitObj {read : Bytes → Reading} {inbox left : List Message} {fetched : Fetched} :
    (awaitObj read).run inbox = (some (.ok fetched), left) ↔
      ∃ raw rest, recvObj inbox = (.ok raw, rest) ∧ (read raw).run rest = (some (.ok fetched), left) := by
  cases inbox with
  | nil => simp [awaitObj, Receiver.run, recvObj]
  | cons message rest =>
    cases message with
    | obj raw => simp [awaitObj, Receiver.run, recvObj]
    | buffer data | cut data => simp [awaitObj, Receiver.run, recvObj]

omit [Library] in
theorem run_awaitPayload {target : Bytes} {read : Bytes → Reading} {inbox left : List Message}
    {fetched : Fetched} :
    (awaitPayload target read).run inbox = (some (.ok fetched), left) ↔
      ∃ data rest, (if target = [] then (.ok (), target, inbox) else recv target inbox) =
        (.ok (), data, rest) ∧ (read data).run rest = (some (.ok fetched), left) := by
  by_cases hempty : target = []
  · simp [awaitPayload, hempty]
  · cases inbox with
    | nil => simp [awaitPayload, hempty, Receiver.run, recv]
    | cons message rest =>
      cases message with
      | buffer data =>
        by_cases hlength : data.length = target.length
        · simp [awaitPayload, hempty, Receiver.run, recv, hlength]
        · simp [awaitPayload, hempty, Receiver.run, recv, hlength]
      | obj raw | cut data => simp [awaitPayload, hempty, Receiver.run, recv]

/-- The shard a call returns and what it leaves unread are those of the whole exchange. -/
theorem run_readingShard_iff {peer : Peer} {version : Str} {index : Nat}
    {expectedChecksum : Option Str} {target : Option Bytes} {request : Bytes}
    (hrequest : encodeGetShard version index = .ok request) {result : ShardFetchResult}
    {left : List Message} :
    (readingShard version index expectedChecksum target).run (peer request) =
        (some (.ok (.shard result)), left) ↔
      ∃ memory, exchangeShard peer version index expectedChecksum target =
        ⟨.ok result, memory, left⟩ := by
  unfold readingShard exchangeShard
  rw [run_awaitObj]
  simp only [hrequest]
  rcases recvObj (peer request) with ⟨_ | raw, inbox⟩
  · simp
  · simp only [Prod.mk.injEq, Except.ok.injEq, ↓existsAndEq, true_and]
    cases readShardReply raw version index with
    | error e => simp [Receiver.run]
    | ok reply =>
      obtain ⟨size, checksum⟩ := reply
      by_cases hsize : (target.any fun memory => memory.length ≠ size) = true
      · simp only [if_pos hsize]
        simp [Receiver.run]
      · simp only [if_neg hsize, run_awaitPayload]
        generalize (if target.getD (List.replicate size 0) = [] then
          (.ok (), target.getD (List.replicate size 0), inbox)
          else recv (target.getD (List.replicate size 0)) inbox) = received
        obtain ⟨outcome, data, rest⟩ := received
        cases outcome with
        | error e => simp
        | ok =>
          simp only [Prod.mk.injEq, true_and, ↓existsAndEq]
          by_cases hdigest : hexdigest data ≠ checksum ∨
              (expectedChecksum.any (hexdigest data ≠ ·)) = true
          · simp only [if_pos hdigest]
            simp [Receiver.run]
          · simp only [if_neg hdigest]
            simp [Receiver.run, and_comm]

/-- Likewise for the loop over a batch. -/
theorem run_readingEach_iff {expectedChecksums : Nat → Str} {unavailable : List Nat}
    {available : List (Nat × Str)} {targets : Targets} {completed : List Nat}
    {inbox left : List Message} {result : BatchShardFetchResult} :
    (readingEach expectedChecksums unavailable available targets completed).run inbox =
        (some (.ok (.shards result)), left) ↔
      ∃ more memory, receiveShards expectedChecksums available targets inbox =
        ⟨.ok more, memory, left⟩ ∧ result = ⟨completed ++ more, unavailable⟩ := by
  induction available generalizing targets completed inbox with
  | nil => simp [readingEach, receiveShards, Receiver.run, eq_comm, and_comm]
  | cons entry rest ih =>
    obtain ⟨index, checksum⟩ := entry
    rw [readingEach, run_awaitPayload, receiveShards]
    generalize (if (targets.get? index).getD [] = [] then
      (.ok (), (targets.get? index).getD [], inbox)
      else recv ((targets.get? index).getD []) inbox) = received
    obtain ⟨outcome, data, inbox⟩ := received
    cases outcome with
    | error e => simp
    | ok =>
      simp only [Prod.mk.injEq, true_and, ↓existsAndEq]
      by_cases hdigest : hexdigest data ≠ checksum ∨ hexdigest data ≠ expectedChecksums index
      · simp only [if_pos hdigest]
        simp [Receiver.run]
      · simp only [if_neg hdigest, ih]
        generalize receiveShards expectedChecksums rest (targets.insert index data) inbox = received
        obtain ⟨outcome, memory, unread⟩ := received
        cases outcome with
        | error e => simp [Except.map]
        | ok more => simp [Except.map]

theorem run_readingShards_iff {peer : Peer} {version : Str} {targets : Targets}
    {expectedChecksums : Nat → Str} {request : Bytes}
    (hrequest : encodeGetShards version (targets.keys.map Int.ofNat) = .ok request)
    {result : BatchShardFetchResult} {left : List Message} :
    (readingShards version targets expectedChecksums).run (peer request) =
        (some (.ok (.shards result)), left) ↔
      ∃ memory, exchangeShards peer version targets expectedChecksums =
        ⟨.ok result, memory, left⟩ := by
  unfold readingShards exchangeShards
  rw [run_awaitObj]
  simp only [hrequest]
  rcases recvObj (peer request) with ⟨_ | raw, inbox⟩
  · simp
  · simp only [Prod.mk.injEq, Except.ok.injEq, ↓existsAndEq, true_and]
    cases readBatchReply raw version targets with
    | error e => simp [Receiver.run]
    | ok reply =>
      obtain ⟨available, unavailable⟩ := reply
      simp only [run_readingEach_iff]
      generalize receiveShards expectedChecksums available targets inbox = received
      obtain ⟨outcome, memory, unread⟩ := received
      cases outcome with
      | error e => simp [Except.map]
      | ok completed => simp [Except.map, and_comm, eq_comm]

/-! ## Answers -/

/-- A whole frame is refused when its payload is too long. -/
theorem decodeFrame_large {f : Frame} {limit : Nat} (hlarge : limit < f.payload.length) :
    ∃ e, decodeFrame f.wire limit = .error e ∧ e.cls = .protocolError := by
  have hnone (g : Frame) (hg : g.payload.length ≤ limit) : f.wire ≠ g.wire := by
    intro heq
    have hlength := congrArg List.length heq
    rw [Frame.length_wire, Frame.length_wire] at hlength
    omega
  cases hdecode : decodeFrame f.wire limit with
  | ok g =>
    obtain ⟨hg, hsame⟩ := decodeFrame_sound hdecode
    exact absurd hsame.symm (hnone g hg.fits)
  | error e =>
    rcases decodeFrame_cases limit f.wire with ⟨g, hg, hsame⟩ | hrefused
    · exact absurd hsame (hnone g hg.fits)
    · rw [hdecode, uncaught_error] at hrefused
      exact ⟨e, rfl, of_decide_eq_true (eq_true_of_ne_false hrefused)⟩

/-- An answer in JSON, as the client reads it: the members written, or refused. -/
theorem readReply_encodeObject {kind : MessageType} {decode : Frame → Except Exc Json}
    {members : List (Str × Json)} {raw : Bytes} (hraw : encodeObject kind members = .ok raw)
    (hdelivers : FitsControl (.obj members) → ∃ sent, encodeObject kind members = .ok sent ∧
      Delivers sent kind decode (rejoined (Json.obj members).sorted))
    (hvalid : validateMessage { messageType := kind, payload := dumps (.obj members) } = .ok ())
    (hkind : kind ≠ .error) :
    readReply raw decode = .ok (rejoined (Json.obj members).sorted) ∨
      ∃ e, readReply raw decode = .error e ∧ e.cls = .protocolError := by
  by_cases hfits : FitsControl (.obj members)
  · left
    obtain ⟨sent, hsent, hdelivers⟩ := hdelivers hfits
    obtain rfl := Except.ok.inj (hraw.symm.trans hsent)
    exact readReply_of_delivers hdelivers hkind
  · right
    simp only [encodeObject] at hraw
    split_ifs at hraw with hlarge
    have hsendable : Frame.Sendable maxPayloadSize
        { messageType := kind, payload := dumps (.obj members) } :=
      ⟨Nat.zero_le _, rfl, (Nat.le_of_not_lt hlarge).trans (by decide), hvalid⟩
    have hwire := encodeFrame_wire (Nat.le_refl _) hsendable
    obtain rfl := Except.ok.inj (hraw.symm.trans hwire)
    have hlong : maxMetadataSize < (dumps (.obj members)).length := Nat.lt_of_not_le hfits
    obtain ⟨e, hdecode, hcls⟩ :=
      decodeFrame_large (f := { messageType := kind, payload := dumps (.obj members) }) hlong
    exact ⟨e, by rw [readReply, hdecode]; rfl, hcls⟩

omit [Library] in
theorem isObject_rejoined_sorted (members : List (Str × Json)) :
    (rejoined (Json.obj members).sorted).isObject = true := by
  rw [Json.sorted, rejoined]
  rfl

theorem readReply_shardMetadata {members : List (Str × Json)} {raw : Bytes}
    (hwritable : Writable true (.obj members)) (hraw : encodeShardMetadata members = .ok raw) :
    readReply raw decodeShardMetadata = .ok (rejoined (Json.obj members).sorted) ∨
      ∃ e, readReply raw decodeShardMetadata = .error e ∧ e.cls = .protocolError := by
  have hloads := loads_dumps hwritable
  have hobject := isObject_rejoined_sorted members
  apply readReply_encodeObject hraw (delivers_shardMetadata hloads hobject) _ (by decide)
  simp [validateMessage, decodeShardMetadata, requireType, decodeObject, hloads, hobject, bind,
    Except.bind, Except.map]

theorem readReply_shardsMetadata {members : List (Str × Json)} {raw : Bytes}
    (hwritable : Writable true (.obj members)) (hraw : encodeShardsMetadata members = .ok raw) :
    readReply raw decodeShardsMetadata = .ok (rejoined (Json.obj members).sorted) ∨
      ∃ e, readReply raw decodeShardsMetadata = .error e ∧ e.cls = .protocolError := by
  have hloads := loads_dumps hwritable
  have hobject := isObject_rejoined_sorted members
  apply readReply_encodeObject hraw (delivers_shardsMetadata hloads hobject) _ (by decide)
  simp [validateMessage, decodeShardsMetadata, requireType, decodeObject, hloads, hobject, bind,
    Except.bind, Except.map]

/-- The client reads the size of the shard that is sent, or discards the endpoint. -/
theorem readShardReply_answer (version' : Str) (index' : Nat) {version checksum : Str} {index : Nat}
    {shard raw : Bytes}
    (hraw : encodeShardMetadata [(str "status", .str (str "ok")), (str "version", .str version),
      (str "index", .int index), (str "size", .int shard.length), (str "checksum", .str checksum)] =
        .ok raw) :
    (∃ checksum', readShardReply raw version' index' = .ok (shard.length, checksum')) ∨
      ∃ e, readShardReply raw version' index' = .error e ∧ e.cls ≠ .versionUnavailableError := by
  have hwritable := writable_shardReply version checksum index shard.length
  rcases readReply_shardMetadata hwritable hraw with hread | ⟨e, hread, hcls⟩
  · have hsize : (rejoined (.obj [(str "status", .str (str "ok")), (str "version", .str version),
        (str "index", .int index), (str "size", .int shard.length),
        (str "checksum", .str checksum)])).get? (str "size") = some (.int shard.length) := by
      simp only [rejoined, rejoinedMembers]
      rfl
    have hchecksum : (rejoined (.obj [(str "status", .str (str "ok")), (str "version", .str version),
        (str "index", .int index), (str "size", .int shard.length),
        (str "checksum", .str checksum)])).get? (str "checksum") =
          some (.str (rejoin checksum)) := by
      simp only [rejoined, rejoinedMembers]
      rfl
    rw [hwritable.rejoined_sorted] at hread
    simp only [readShardReply, hread, bind, Except.bind, Json.get?_sorted, hsize, hchecksum,
      Option.map_some, Option.getD_some, Json.sorted_int, Json.sorted_str, Json.plainInt?,
      Json.string?, Int.toNat_natCast]
    split_ifs with hmalformed hlimit
    · exact Or.inr ⟨_, rfl, by decide⟩
    · exact Or.inl ⟨_, rfl⟩
    · exact Or.inr ⟨_, rfl, by decide⟩
  · right
    refine ⟨e, by rw [readShardReply, hread]; rfl, by rw [hcls]; decide⟩

omit [Library] in
/-- An entry read is the one written, of the size of its target. -/
theorem readShardEntry_answer (targets : Targets) (seen : List Nat) (index : Nat) (shard : Bytes)
    (checksum : Str) :
    (∃ checksum', readShardEntry targets seen (rejoined (shardEntry index shard checksum)).sorted =
        .ok (index, checksum') ∧ ((targets.get? index).getD []).length = shard.length) ∨
      ∃ e, readShardEntry targets seen (rejoined (shardEntry index shard checksum)).sorted =
        .error e ∧ e.cls ≠ .versionUnavailableError := by
  have hindex : (rejoined (shardEntry index shard checksum)).get? (str "index") =
      some (.int index) := by
    simp only [shardEntry, rejoined, rejoinedMembers]
    rfl
  have hsize : (rejoined (shardEntry index shard checksum)).get? (str "size") =
      some (.int shard.length) := by
    simp only [shardEntry, rejoined, rejoinedMembers]
    rfl
  have hchecksum : (rejoined (shardEntry index shard checksum)).get? (str "checksum") =
      some (.str (rejoin checksum)) := by
    simp only [shardEntry, rejoined, rejoinedMembers]
    rfl
  simp only [readShardEntry, Json.get?_sorted, hindex, hsize, hchecksum, Option.map_some,
    Option.getD_some, Json.sorted_int, Json.sorted_str, Json.hashable, keyOf?_int, Json.string?,
    Bool.true_eq_false, if_false]
  split_ifs with hmalformed
  · exact Or.inr ⟨_, rfl, by decide⟩
  · cases htarget : targets.get? index with
    | none => exact Or.inr ⟨_, rfl, by decide⟩
    | some target =>
      simp only
      split_ifs with hwrong
      · exact Or.inr ⟨_, rfl, by decide⟩
      · left
        simp only [not_or, Json.eqInt, Json.number?, Bool.not_eq_false] at hwrong
        have hlength := Option.some.inj (of_decide_eq_true hwrong.2.1)
        exact ⟨_, rfl, by exact_mod_cast hlength.symm⟩

/-- The shards announced, each read with the size of its target. -/
def Announced (targets : Targets) (entries : List (Nat × Str))
    (available : List (Nat × Bytes × Str)) : Prop :=
  List.Forall₂ (fun entry item => ((targets.get? entry.1).getD []).length = item.2.1.length)
    entries available

omit [Library] in
theorem readShardEntries_answer {targets : Targets} (available : List (Nat × Bytes × Str))
    (seen : List Nat) :
    (∃ entries, readShardEntries targets seen (available.map fun (index, shard, checksum) =>
        (rejoined (shardEntry index shard checksum)).sorted) = .ok entries ∧
          Announced targets entries available) ∨
      ∃ e, readShardEntries targets seen (available.map fun (index, shard, checksum) =>
        (rejoined (shardEntry index shard checksum)).sorted) = .error e ∧
          e.cls ≠ .versionUnavailableError := by
  induction available generalizing seen with
  | nil => exact Or.inl ⟨[], rfl, .nil⟩
  | cons item rest ih =>
    obtain ⟨index, shard, checksum⟩ := item
    simp only [List.map_cons, readShardEntries]
    rcases readShardEntry_answer targets seen index shard checksum with
      ⟨checksum', hfirst, hlength⟩ | ⟨e, hfirst, hcls⟩
    · rw [hfirst]
      rcases ih (index :: seen) with ⟨entries, hrest, hannounced⟩ | ⟨e, hrest, hcls⟩
      · left
        refine ⟨(index, checksum') :: entries, ?_, .cons hlength hannounced⟩
        simp only [bind, Except.bind, hrest, pure, Except.pure]
      · right
        refine ⟨e, ?_, hcls⟩
        simp only [bind, Except.bind, hrest]
    · rw [hfirst]
      exact Or.inr ⟨e, rfl, hcls⟩

omit [Library] in
theorem readUnavailable_answer (targets : Targets) (seen : List Nat) (values : List Json) :
    (∃ missing, readUnavailable targets seen values = .ok missing) ∨
      readUnavailable targets seen values = inconsistentBatch := by
  unfold readUnavailable
  split
  · exact Or.inr rfl
  · simp only
    split_ifs
    · exact Or.inr rfl
    · exact Or.inl ⟨_, rfl⟩

theorem readBatchReply_answer (version' : Str) (targets : Targets) {version : Str}
    {available : List (Nat × Bytes × Str)} {unavailable : List Nat} {raw : Bytes}
    (hraw : encodeShardsMetadata [(str "version", .str version),
      (str "shards", .arr (available.map fun (index, shard, checksum) =>
        shardEntry index shard checksum)),
      (str "unavailable", .arr (unavailable.map fun index : Nat => .int index))] = .ok raw) :
    (∃ entries missing, readBatchReply raw version' targets = .ok (entries, missing) ∧
        Announced targets entries available) ∨
      ∃ e, readBatchReply raw version' targets = .error e ∧ e.cls ≠ .versionUnavailableError := by
  have hwritable := writable_batchReply version available unavailable
  rcases readReply_shardsMetadata hwritable hraw with hread | ⟨e, hread, hcls⟩
  · rw [hwritable.rejoined_sorted] at hread
    set value := rejoined (.obj [(str "version", .str version),
      (str "shards", .arr (available.map fun (index, shard, checksum) =>
        shardEntry index shard checksum)),
      (str "unavailable", .arr (unavailable.map fun index : Nat => .int index))]) with hvalue
    have hshards : (value.get? (str "shards")).map Json.sorted =
        some (.arr (available.map fun (index, shard, checksum) =>
          (rejoined (shardEntry index shard checksum)).sorted)) := by
      have hget : value.get? (str "shards") =
          some (rejoined (.arr (available.map fun (index, shard, checksum) =>
            shardEntry index shard checksum))) := by
        simp only [hvalue, rejoined, rejoinedMembers]
        rfl
      simp [hget, rejoined, rejoinedItems_eq_map, Json.sorted, Json.sortedItems_eq_map]
    have hunavailable : (value.get? (str "unavailable")).map Json.sorted =
        some (.arr (unavailable.map fun index : Nat => .int index)) := by
      have hget : value.get? (str "unavailable") =
          some (rejoined (.arr (unavailable.map fun index : Nat => .int index))) := by
        simp only [hvalue, rejoined, rejoinedMembers]
        rfl
      simp [hget, rejoined_indices, Json.sorted, Json.sortedItems_eq_map]
    simp only [readBatchReply, hread, bind, Except.bind, Json.get?_sorted, hshards, hunavailable,
      Option.getD_some]
    split_ifs with hmalformed
    · exact Or.inr ⟨_, rfl, by decide⟩
    · rcases readShardEntries_answer available [] with
        ⟨entries, hentries, hannounced⟩ | ⟨e, hentries, hcls⟩
      · rw [hentries]
        rcases readUnavailable_answer targets (entries.map Prod.fst)
          (unavailable.map fun index : Nat => .int index) with ⟨missing, hmissing⟩ | hmissing
        · exact Or.inl ⟨entries, missing, by simp only [hmissing, pure, Except.pure], hannounced⟩
        · exact Or.inr ⟨_, by simp only [hmissing]; rfl, by decide⟩
      · rw [hentries]
        exact Or.inr ⟨e, rfl, hcls⟩
  · right
    refine ⟨e, by rw [readBatchReply, hread]; rfl, by rw [hcls]; decide⟩

/-! ## Whole answers -/

omit [Library] in
theorem exhausts_awaitPayload {target shard : Bytes} {read : Bytes → Reading}
    {rest : List Message} (hlength : target.length = shard.length)
    (h : ∀ data, (read data).Exhausts KeepsEndpoint rest ∨ data.length ≠ target.length) :
    (awaitPayload target read).Exhausts KeepsEndpoint (payload shard ++ rest) := by
  unfold awaitPayload payload
  by_cases hempty : shard = []
  · have htarget : target = [] := List.length_eq_zero_iff.mp (by rw [hlength, hempty]; rfl)
    rw [if_pos htarget, if_pos hempty]
    exact (h target).resolve_right (by simp)
  · have htarget : target ≠ [] := by
      intro heq
      exact hempty (List.length_eq_zero_iff.mp (by rw [← hlength, heq]; rfl))
    rw [if_neg htarget, if_neg hempty]
    apply Receiver.exhausts_cons_iff.mpr
    simp only [if_pos hlength.symm]
    exact (h shard).resolve_right (by simp [hlength])

omit [Library] in
theorem Announced.insert {targets : Targets} {entries : List (Nat × Str)}
    {available : List (Nat × Bytes × Str)} (h : Announced targets entries available) {index : Nat}
    {data : Bytes} (hlength : data.length = ((targets.get? index).getD []).length) :
    Announced (targets.insert index data) entries available := by
  refine List.Forall₂.imp ?_ h
  intro entry item hentry
  rw [OrderedDict.get?_insert]
  split_ifs with heq
  · subst heq
    rw [Option.getD_some, hlength, hentry]
  · exact hentry

theorem exhausts_readingEach (expectedChecksums : Nat → Str) (missing : List Nat)
    {targets : Targets} {entries : List (Nat × Str)} {available : List (Nat × Bytes × Str)}
    (h : Announced targets entries available) (completed : List Nat) :
    (readingEach expectedChecksums missing entries targets completed).Exhausts KeepsEndpoint
      (available.flatMap fun (_, shard, _) => payload shard) := by
  induction entries generalizing targets available completed with
  | nil =>
    cases h
    exact Receiver.exhausts_nil _
  | cons entry rest ih =>
    obtain ⟨index, checksum⟩ := entry
    cases h with
    | @cons _ item _ others hlength hrest =>
      obtain ⟨_, shard, _⟩ := item
      rw [List.flatMap_cons, readingEach]
      apply exhausts_awaitPayload hlength
      intro data
      by_cases hdata : data.length = ((targets.get? index).getD []).length
      · left
        simp only
        split_ifs with hdigest
        · exact Receiver.exhausts_done_iff.mpr fun hkeep => absurd hkeep (by simp [KeepsEndpoint])
        · exact ih (Announced.insert hrest hdata) _
      · exact Or.inr hdata

omit [Library] in
theorem length_memory {target : Option Bytes} {size : Nat}
    (h : ¬ (target.any fun memory => memory.length ≠ size) = true) :
    (target.getD (List.replicate size 0)).length = size := by
  cases target with
  | none => exact List.length_replicate
  | some memory => simpa using h

omit [Library] in
theorem exhausts_error {e : Exc} {messages : List Message} (h : e.cls ≠ .versionUnavailableError) :
    Receiver.Exhausts KeepsEndpoint (.done (.error e) : Reading) messages :=
  Receiver.exhausts_done_iff.mpr fun hkeep => absurd hkeep h

/-- A request is answered with as much as the call takes that is of its kind. -/
theorem exhausts_served {server : Server} {frame : Frame} {messages : List Message} {call : Call}
    (hkind : frame.messageType = call.messageType)
    (hserve : serveRequest server frame = .ok messages) :
    call.reading.Exhausts KeepsEndpoint messages := by
  unfold serveRequest at hserve
  cases call with
  | waitForVersion version =>
    simp only [Call.messageType] at hkind
    simp only [hkind] at hserve
    obtain ⟨name, -, hserve⟩ := bind_eq_ok.mp hserve
    split_ifs at hserve
    · obtain ⟨reply, -, hserve⟩ := bind_eq_ok.mp hserve
      obtain rfl := Except.ok.inj hserve
      exact Receiver.exhausts_of_length_le (Nat.le_refl 1)
    · obtain ⟨reply, -, hserve⟩ := bind_eq_ok.mp hserve
      obtain rfl := Except.ok.inj hserve
      exact Receiver.exhausts_of_length_le (Nat.le_refl 1)
  | fetchShard version index expectedChecksum target =>
    simp only [Call.messageType] at hkind
    simp only [hkind] at hserve
    obtain ⟨⟨name, found⟩, -, hserve⟩ := bind_eq_ok.mp hserve
    cases hshard : server.store.getShardWithChecksum name found with
    | error e =>
      simp only [hshard] at hserve
      obtain ⟨reply, -, hserve⟩ := bind_eq_ok.mp hserve
      obtain rfl := Except.ok.inj hserve
      exact Receiver.exhausts_of_length_le (Nat.le_refl 1)
    | ok held =>
      obtain ⟨shard, checksum⟩ := held
      simp only [hshard] at hserve
      obtain ⟨reply, hreply, hserve⟩ := bind_eq_ok.mp hserve
      obtain rfl := Except.ok.inj hserve
      apply Receiver.exhausts_cons_iff.mpr
      simp only
      rcases readShardReply_answer version index hreply with
        ⟨announced, hread⟩ | ⟨e, hread, hcls⟩
      · simp only [hread]
        split_ifs with hsize
        · exact exhausts_error (by decide)
        · rw [← List.append_nil (payload shard)]
          apply exhausts_awaitPayload (length_memory hsize)
          intro data
          exact Or.inl (Receiver.exhausts_nil _)
      · simp only [hread]
        exact exhausts_error hcls
  | fetchShardsInto version targets expectedChecksums =>
    simp only [Call.messageType] at hkind
    simp only [hkind] at hserve
    obtain ⟨⟨name, indices⟩, -, hserve⟩ := bind_eq_ok.mp hserve
    obtain ⟨reply, hreply, hserve⟩ := bind_eq_ok.mp hserve
    obtain rfl := Except.ok.inj hserve
    apply Receiver.exhausts_cons_iff.mpr
    simp only
    rcases readBatchReply_answer version targets hreply with
      ⟨entries, missing, hread, hannounced⟩ | ⟨e, hread, hcls⟩
    · simp only [hread]
      exact exhausts_readingEach expectedChecksums missing hannounced []
    · simp only [hread]
      exact exhausts_error hcls

/-- A request that is encoded is decoded as one of its kind. -/
theorem decodeFrame_request {call : Call} {raw : Bytes} (hraw : call.request.encode = .ok raw) :
    ∃ frame, decodeFrame raw maxMetadataSize = .ok frame ∧
      frame.messageType = call.messageType := by
  cases call with
  | fetchShard version index expectedChecksum target =>
    obtain ⟨hfits, found, heq, hindex⟩ := encodeGetShard_ok hraw
    obtain rfl := Int.ofNat.inj heq
    have hdecode := decodeGetShard_dumps hfits hindex
    obtain ⟨sent, hsent, frame, hframe, hkind, -⟩ := delivers_frame .getShard decodeGetShard _
      (fitsControl_shardRequest hfits hindex) (by simp [validateMessage, hdecode, Except.map]) hdecode
    rw [← encodeGetShard_eq hfits hindex] at hsent
    obtain rfl := Except.ok.inj (hraw.symm.trans hsent)
    exact ⟨frame, hframe, hkind⟩
  | fetchShardsInto version targets expectedChecksums =>
    obtain ⟨indices, heq, hgood⟩ := encodeGetShards_ok_iff.mp ⟨raw, hraw⟩
    obtain rfl := List.map_injective_iff.mpr Int.ofNat_injective heq
    have hdecode := decodeGetShards_dumps hgood
    obtain ⟨sent, hsent, frame, hframe, hkind, -⟩ := delivers_frame .getShards decodeGetShards _
      (fitsControl_batchRequest hgood.name hgood.length_le hgood.uint32)
      (by simp [validateMessage, hdecode, Except.map]) hdecode
    rw [← encodeGetShards_eq hgood] at hsent
    obtain rfl := Except.ok.inj (hraw.symm.trans hsent)
    exact ⟨frame, hframe, hkind⟩
  | waitForVersion version =>
    obtain ⟨payload, hpayload, hraw⟩ := bind_eq_ok.mp hraw
    have hle : payload.length ≤ maxVersionNameSize := (encodeText_eq_ok.mp hpayload).2.2
    have hdecode : decodeWaitVersion { messageType := .waitVersion, payload } = .ok version := by
      simp [decodeWaitVersion, requireType, decodeText_of_encodeText hpayload, bind, Except.bind]
    obtain ⟨sent, hsent, frame, hframe, hkind, -⟩ := delivers_frame .waitVersion decodeWaitVersion
      payload (hle.trans (by decide)) (by simp [validateMessage, hdecode, Except.map]) hdecode
    obtain rfl := Except.ok.inj (hraw.symm.trans hsent)
    exact ⟨frame, hframe, hkind⟩

/-- What the server sends for a call's request, the call takes before it returns
with its endpoint kept. -/
theorem exhausts_answer {call : Call} {raw : Bytes} (hraw : call.request.encode = .ok raw)
    {server : Server} {messages : List Message}
    (hserve : decodeFrame raw maxMetadataSize >>= serveRequest server = .ok messages) :
    call.reading.Exhausts KeepsEndpoint messages := by
  obtain ⟨frame, hframe, hkind⟩ := decodeFrame_request hraw
  obtain ⟨found, hfound, hserve⟩ := bind_eq_ok.mp hserve
  obtain rfl := Except.ok.inj (hframe.symm.trans hfound)
  exact exhausts_served hkind hserve

end

end Litecast.Ucxx.Persistent
