import Litecast.ManifestRoundTrip
import Litecast.Streaming

/-! What the peers can make of the memory shards are received into: a call that
succeeds has put the shard there, and none writes elsewhere. -/

namespace Litecast

/-! ## One target -/

@[simp] theorem length_overwrite (target written : Bytes) :
    (overwrite target written).length = target.length := by
  apply Pieces.length_write
  rw [List.length_take]
  omega

@[simp] theorem length_downloadIntoFrom (target : Bytes) (answer : HttpGet) :
    (downloadIntoFrom target answer).2.length = target.length := by
  cases answer with
  | failed written => exact length_overwrite target written
  | response length body =>
    simp only [downloadIntoFrom]
    split_ifs
    · rfl
    · exact length_overwrite target body

section
variable [Library]

/-- A target after a call that may write to it: it is as long as before, and
after a success it holds the shard. -/
structure Filled (checksum : Str) (before : Bytes) (success : Prop) (after : Bytes) : Prop where
  length_eq : after.length = before.length
  digest_eq : success → hexdigest after = checksum

theorem Filled.failed {checksum : Str} {before after : Bytes} {success : Prop}
    (hlength : after.length = before.length) (hfailed : ¬ success) :
    Filled checksum before success after :=
  ⟨hlength, fun h => absurd h hfailed⟩

theorem Filled.trans {checksum : Str} {before middle after : Bytes} {earlier success : Prop}
    (h : Filled checksum before earlier middle) (hlater : Filled checksum middle success after) :
    Filled checksum before success after :=
  ⟨hlater.length_eq.trans h.length_eq, hlater.digest_eq⟩

namespace Ucxx

omit [Library] in
theorem length_recv (target : Bytes) (inbox : List Message) :
    (recv target inbox).2.1.length = target.length := by
  have hpart (data : Bytes) :
      (Pieces.write target 0 (data.take target.length)).length = target.length :=
    length_overwrite target data
  cases inbox with
  | nil => rfl
  | cons message rest =>
    cases message with
    | obj frame => rfl
    | cut data => exact hpart data
    | buffer data =>
      rw [recv]
      split_ifs with hlength
      · exact hlength
      · exact hpart data

omit [Library] in
/-- An empty target is not received into. -/
theorem length_received (target : Bytes) (inbox : List Message) :
    (if target = [] then (.ok (), target, inbox) else recv target inbox).2.1.length =
      target.length := by
  split_ifs
  · rfl
  · exact length_recv target inbox

theorem exchangeShard_fills {peer : Peer} {version : Str} {index : Nat} {checksum : Str}
    {target : Bytes} {exchange : Exchange ShardFetchResult (Option Bytes)}
    (h : exchangeShard peer version index (some checksum) (some target) = exchange) :
    ∃ after, exchange.memory = some after ∧
      Filled checksum target (exchange.result.isOk = true) after := by
  have hnone (e : Exc) (unread : List Message) :
      ∃ after, (⟨.error e, some target, unread⟩ :
          Exchange ShardFetchResult (Option Bytes)).memory = some after ∧
        Filled checksum target ((.error e : Except Exc ShardFetchResult).isOk = true) after :=
    ⟨target, rfl, .failed rfl Bool.false_ne_true⟩
  rw [exchangeShard] at h
  split at h
  · exact h ▸ hnone _ _
  split at h
  · exact h ▸ hnone _ _
  split at h
  · exact h ▸ hnone _ _
  next inbox _ _ _ _ _ =>
    have hlength := length_received target inbox
    simp only [Option.getD_some, Option.map_some] at h
    split at h
    · exact h ▸ hnone _ _
    generalize (if target = [] then _ else recv target inbox) = received at h hlength
    split at h
    · subst h
      exact ⟨_, rfl, .failed hlength Bool.false_ne_true⟩
    · split at h
      · subst h
        exact ⟨_, rfl, .failed hlength Bool.false_ne_true⟩
      next hmatch =>
        subst h
        rw [not_or] at hmatch
        exact ⟨_, rfl, hlength, fun _ => by simpa using hmatch.2⟩

theorem fetchShardInto_fills (answer : Answer Bytes) (version : Str) (index : Nat)
    (target : Bytes) (checksum : Str) :
    Filled checksum target ((fetchShardInto answer version index target checksum).1.isOk = true)
      (fetchShardInto answer version index target checksum).2 := by
  simp only [fetchShardInto]
  cases validateVersion version with
  | error e => exact .failed rfl Bool.false_ne_true
  | ok _ =>
    cases answer with
    | failed written => exact .failed (length_overwrite target written) Bool.false_ne_true
    | peer peer =>
      obtain ⟨after, hmemory, hfilled⟩ :=
        exchangeShard_fills (rfl : exchangeShard peer version index checksum target = _)
      simp only [hmemory, Option.getD_some]
      cases hresult : (exchangeShard peer version index checksum target).result with
      | error e => exact .failed hfilled.length_eq Bool.false_ne_true
      | ok r => exact ⟨hfilled.length_eq, fun _ => hfilled.digest_eq (by rw [hresult]; rfl)⟩

/-! ### A batch -/

/-- The same shards, with as many bytes for each. -/
def Alike (before after : Targets) : Prop :=
  ∀ index, (after.get? index).map List.length = (before.get? index).map List.length

omit [Library] in
theorem Alike.trans {before middle after : Targets} (h : Alike before middle)
    (hlater : Alike middle after) : Alike before after := by
  intro index
  rw [hlater, h]

omit [Library] in
theorem Alike.mem_keys_iff {before after : Targets} (h : Alike before after) (index : Nat) :
    index ∈ after.keys ↔ index ∈ before.keys := by
  have hlength := h index
  rw [← not_iff_not, ← OrderedDict.get?_eq_none_iff, ← OrderedDict.get?_eq_none_iff]
  constructor
  · intro hnone
    rw [hnone] at hlength
    exact Option.map_eq_none_iff.mp hlength.symm
  · intro hnone
    rw [hnone] at hlength
    exact Option.map_eq_none_iff.mp hlength

omit [Library] in
theorem alike_insert {targets : Targets} {index : Nat} (hmem : index ∈ targets.keys) {bytes : Bytes}
    (hlength : bytes.length = ((targets.get? index).getD []).length) :
    Alike targets (targets.insert index bytes) := by
  intro i
  rw [OrderedDict.get?_insert]
  split_ifs with hi
  · obtain ⟨target, htarget⟩ := OrderedDict.mem_keys_iff.mp hmem
    rw [htarget, Option.getD_some] at hlength
    rw [hi, htarget, Option.map_some, Option.map_some, hlength]
  · rfl

omit [Library] in
theorem readShardEntry_mem {targets : Targets} {seen : List Nat} {entry : Json} {item : Nat × Str}
    (h : readShardEntry targets seen entry = .ok item) : item.1 ∈ targets.keys := by
  simp only [readShardEntry] at h
  repeat' split at h
  all_goals cases h
  next hget _ _ => exact OrderedDict.mem_keys_iff.mpr ⟨_, hget⟩

omit [Library] in
theorem readShardEntries_mem {targets : Targets} {seen : List Nat} {entries : List Json}
    {available : List (Nat × Str)} (h : readShardEntries targets seen entries = .ok available) :
    ∀ item ∈ available, item.1 ∈ targets.keys := by
  induction entries generalizing seen available with
  | nil =>
    obtain rfl := Except.ok.inj h
    simp
  | cons entry rest ih =>
    rw [readShardEntries] at h
    obtain ⟨first, hfirst, h⟩ := bind_eq_ok.mp h
    obtain ⟨later, hlater, h⟩ := bind_eq_ok.mp h
    obtain rfl := Except.ok.inj h
    rw [List.forall_mem_cons]
    exact ⟨readShardEntry_mem hfirst, ih hlater⟩

omit [Library] in
theorem readUnavailable_covers {targets : Targets} {seen : List Nat} {values : List Json}
    {unavailable : List Nat} (h : readUnavailable targets seen values = .ok unavailable) :
    (∀ index ∈ targets.keys, index ∈ seen ∨ index ∈ unavailable) ∧
      ∀ index ∈ unavailable, index ∈ targets.keys := by
  rw [readUnavailable] at h
  split at h
  · cases h
  next numbers _ =>
    simp only at h
    split at h
    · cases h
    next hconsistent =>
      obtain rfl := Except.ok.inj h
      rw [not_or, not_or, not_or] at hconsistent
      obtain ⟨hinside, -, hcovered, -⟩ := hconsistent
      constructor
      · intro index hindex
        by_contra hmissing
        rw [not_or] at hmissing
        exact hcovered (List.any_eq_true.mpr ⟨index, hindex, decide_eq_true hmissing⟩)
      · intro index hindex
        obtain ⟨n, hn, rfl⟩ := List.mem_map.mp hindex
        by_contra habsent
        apply hinside
        rw [List.any_eq_true]
        refine ⟨n, hn, ?_⟩
        rw [← OrderedDict.get?_eq_none_iff] at habsent
        simp [OrderedDict.contains, habsent]

/-- The reply to a batch accounts for every shard asked for, and for no other. -/
theorem readBatchReply_covers {raw : Bytes} {version : Str} {targets : Targets}
    {available : List (Nat × Str)} {unavailable : List Nat}
    (h : readBatchReply raw version targets = .ok (available, unavailable)) :
    (∀ item ∈ available, item.1 ∈ targets.keys) ∧ (∀ index ∈ unavailable, index ∈ targets.keys) ∧
      ∀ index ∈ targets.keys, index ∈ available.map Prod.fst ∨ index ∈ unavailable := by
  rw [readBatchReply] at h
  obtain ⟨value, -, h⟩ := bind_eq_ok.mp h
  simp only at h
  split at h
  · cases h
  split at h
  · obtain ⟨entries, hentries, h⟩ := bind_eq_ok.mp h
    obtain ⟨missing, hmissing, h⟩ := bind_eq_ok.mp h
    obtain ⟨rfl, rfl⟩ := Prod.mk.inj (Except.ok.inj h)
    obtain ⟨hcovered, hinside⟩ := readUnavailable_covers hmissing
    exact ⟨readShardEntries_mem hentries, hinside, hcovered⟩
  · cases h

/-- What the loop over the announced shards may write to, and what it checks. -/
structure Received (expected : Nat → Str) (announced : List Nat) (before : Targets)
    (exchange : Exchange (List Nat) Targets) : Prop where
  alike : Alike before exchange.memory
  frame : ∀ index, index ∉ announced → exchange.memory.get? index = before.get? index
  completed : ∀ done, exchange.result = .ok done → done = announced ∧
    ∀ index ∈ done, hexdigest ((exchange.memory.get? index).getD []) = expected index

theorem Received.stopped {expected : Nat → Str} {index : Nat} {before : Targets} {bytes : Bytes}
    (hwritten : Alike before (before.insert index bytes)) (announced : List Nat) (e : Exc)
    (unread : List Message) :
    Received expected (index :: announced) before ⟨.error e, before.insert index bytes, unread⟩ where
  alike := hwritten
  frame := by
    intro i hi
    rw [OrderedDict.get?_insert, if_neg (List.ne_of_not_mem_cons hi)]
  completed := by
    intro done hdone
    cases hdone

theorem Received.cons {expected : Nat → Str} {index : Nat} {announced : List Nat} {before : Targets}
    {bytes : Bytes} {exchange : Exchange (List Nat) Targets}
    (hwritten : Alike before (before.insert index bytes)) (hdigest : hexdigest bytes = expected index)
    (h : Received expected announced (before.insert index bytes) exchange) :
    Received expected (index :: announced) before
      ⟨exchange.result.map (index :: ·), exchange.memory, exchange.unread⟩ where
  alike := hwritten.trans h.alike
  frame := by
    intro i hi
    rw [List.mem_cons, not_or] at hi
    rw [h.frame i hi.2, OrderedDict.get?_insert, if_neg hi.1]
  completed := by
    intro done hdone
    obtain ⟨more, hmore, rfl⟩ := map_eq_ok.mp hdone
    obtain ⟨rfl, hdigests⟩ := h.completed more hmore
    refine ⟨rfl, List.forall_mem_cons.mpr ⟨?_, hdigests⟩⟩
    -- A shard announced again would have been checked again.
    by_cases hagain : index ∈ more
    · exact hdigests index hagain
    · rw [h.frame index hagain, OrderedDict.get?_insert, if_pos rfl, Option.getD_some]
      exact hdigest

theorem receiveShards_received (expected : Nat → Str) {available : List (Nat × Str)}
    {targets : Targets} (hmem : ∀ item ∈ available, item.1 ∈ targets.keys)
    (inbox : List Message) :
    Received expected (available.map Prod.fst) targets
      (receiveShards expected available targets inbox) := by
  induction available generalizing targets inbox with
  | nil =>
    refine ⟨fun _ => rfl, fun _ _ => rfl, ?_⟩
    intro done hdone
    obtain rfl := Except.ok.inj hdone
    simp
  | cons item rest ih =>
    obtain ⟨index, checksum⟩ := item
    obtain ⟨hindex, hrest⟩ := List.forall_mem_cons.mp hmem
    have hlength := length_received ((targets.get? index).getD []) inbox
    simp only [receiveShards]
    generalize (if (targets.get? index).getD [] = [] then _
      else recv ((targets.get? index).getD []) inbox) = received at hlength
    have hwritten := alike_insert hindex hlength
    split
    · exact .stopped hwritten _ _ _
    split
    · exact .stopped hwritten _ _ _
    next hmatch =>
      rw [not_or, not_not, not_not] at hmatch
      apply Received.cons hwritten hmatch.2
      apply ih
      intro item hitem
      exact (hwritten.mem_keys_iff item.1).mpr (hrest item hitem)

/-- A batch in the memory of its targets: if the call succeeds, every shard is
there or is reported unavailable. -/
structure Exchanged (expected : Nat → Str) (before : Targets)
    (outcome : Except Exc BatchShardFetchResult × Targets) : Prop where
  alike : Alike before outcome.2
  completed : ∀ result, outcome.1 = .ok result →
    (∀ index ∈ result.completed ++ result.unavailable, index ∈ before.keys) ∧
    (∀ index ∈ before.keys, index ∈ result.completed ++ result.unavailable) ∧
    ∀ index ∈ result.completed, hexdigest ((outcome.2.get? index).getD []) = expected index

theorem Exchanged.failed {expected : Nat → Str} {before after : Targets}
    (halike : Alike before after) (e : Exc) : Exchanged expected before (.error e, after) :=
  ⟨halike, fun _ h => by cases h⟩

theorem exchangeShards_exchanged (peer : Peer) (version : Str) (targets : Targets)
    (expected : Nat → Str) :
    Exchanged expected targets ((exchangeShards peer version targets expected).result,
      (exchangeShards peer version targets expected).memory) := by
  have hnone : Alike targets targets := fun _ => rfl
  rw [exchangeShards]
  split
  · exact .failed hnone _
  split
  · exact .failed hnone _
  split
  · exact .failed hnone _
  next inbox _ _ available unavailable hreply =>
    obtain ⟨havailable, hunavailable, hcovered⟩ := readBatchReply_covers hreply
    have hreceived := receiveShards_received expected havailable inbox
    refine ⟨hreceived.alike, ?_⟩
    intro result hresult
    obtain ⟨done, hdone, rfl⟩ := map_eq_ok.mp hresult
    obtain ⟨rfl, hdigests⟩ := hreceived.completed done hdone
    refine ⟨?_, ?_, hdigests⟩
    · intro index hindex
      rcases List.mem_append.mp hindex with hfound | hmissing
      · obtain ⟨item, hitem, rfl⟩ := List.mem_map.mp hfound
        exact havailable item hitem
      · exact hunavailable index hmissing
    · intro index hindex
      exact List.mem_append.mpr (hcovered index hindex)

omit [Library] in
theorem alike_overwritten (targets : Targets) (written : Nat → Bytes) {keys : List Nat}
    (hkeys : ∀ index ∈ keys, index ∈ targets.keys) :
    Alike targets (keys.foldl (fun targets index =>
      targets.insert index (overwrite ((targets.get? index).getD []) (written index))) targets) := by
  induction keys generalizing targets with
  | nil => exact fun _ => rfl
  | cons index rest ih =>
    obtain ⟨hindex, hrest⟩ := List.forall_mem_cons.mp hkeys
    have hwritten := alike_insert hindex
      (length_overwrite ((targets.get? index).getD []) (written index))
    apply hwritten.trans
    apply ih
    intro i hi
    exact (hwritten.mem_keys_iff i).mpr (hrest i hi)

theorem fetchShardsInto_exchanged (answer : Answer (Nat → Bytes)) (version : Str)
    (targets : Targets) (expected : Nat → Str) :
    Exchanged expected targets (fetchShardsInto answer version targets expected) := by
  simp only [fetchShardsInto]
  cases validateVersion version with
  | error e => exact .failed (fun _ => rfl) e
  | ok _ =>
    cases answer with
    | failed written => exact .failed (alike_overwritten targets written fun _ h => h) _
    | peer peer =>
      have hexchange := exchangeShards_exchanged peer version targets expected
      refine ⟨hexchange.alike, ?_⟩
      intro result hresult
      exact hexchange.completed result (mapError_eq_ok.mp hresult)

end Ucxx

namespace ClientNode

theorem askOwner_fills (client : ClientNode) (manifest : ShardManifest) (index : Nat)
    (answer : OwnerAnswer) (target : Bytes) :
    Filled (manifest.shardChecksum index) target
      ((client.askOwner manifest index answer target).1 = true)
      (client.askOwner manifest index answer target).2 := by
  have hucxx := Ucxx.fetchShardInto_fills answer.ucxx manifest.name index target
    (manifest.shardChecksum index)
  have hhttp (target : Bytes) : Filled (manifest.shardChecksum index) target
      (((downloadIntoFrom target answer.http).1 && decide (hexdigest
        (downloadIntoFrom target answer.http).2 = manifest.shardChecksum index)) = true)
      (downloadIntoFrom target answer.http).2 := by
    refine ⟨length_downloadIntoFrom target answer.http, ?_⟩
    intro h
    exact of_decide_eq_true (Bool.and_eq_true_iff.mp h).2
  simp only [askOwner]
  split_ifs with hused hfetched hmode hnone hmode
  · exact ⟨hucxx.length_eq, fun _ => hucxx.digest_eq hfetched⟩
  · exact .failed hucxx.length_eq id
  · exact hucxx.trans (hhttp _)
  · exact hnone.elim
  · exact .failed rfl id
  · exact hhttp target

theorem askOwners_fills (client : ClientNode) (manifest : ShardManifest) (index : Nat)
    (round : Round) (owners : List Str) (target : Bytes) :
    Filled (manifest.shardChecksum index) target
      ((client.askOwners manifest index round owners target).1 = true)
      (client.askOwners manifest index round owners target).2 := by
  induction owners generalizing target with
  | nil => exact .failed rfl Bool.false_ne_true
  | cons owner rest ih =>
    have hfirst := client.askOwner_fills manifest index (round owner) target
    rw [askOwners]
    rcases hasked : client.askOwner manifest index (round owner) target with ⟨fetched, after⟩
    rw [hasked] at hfirst
    cases fetched with
    | true => exact hfirst
    | false => exact hfirst.trans (ih after)

theorem askRounds_fills (client : ClientNode) (manifest : ShardManifest) (index : Nat)
    (owners : List Str) (rounds : List Round) (target : Bytes) :
    Filled (manifest.shardChecksum index) target
      (∃ done, (client.askRounds manifest index owners rounds target).1 = .ok done)
      (client.askRounds manifest index owners rounds target).2 := by
  induction rounds generalizing target with
  | nil => exact .failed rfl (fun ⟨_, h⟩ => by cases h)
  | cons round later ih =>
    have hround := client.askOwners_fills manifest index round owners target
    rw [askRounds]
    rcases hasked : client.askOwners manifest index round owners target with ⟨fetched, after⟩
    rw [hasked] at hround
    cases fetched with
    | true => exact ⟨hround.length_eq, fun _ => hround.digest_eq rfl⟩
    | false => exact hround.trans (ih after)

theorem askRounds_eq_ok {client : ClientNode} {manifest : ShardManifest} {index done : Nat}
    {owners : List Str} {rounds : List Round} {target : Bytes}
    (h : (client.askRounds manifest index owners rounds target).1 = .ok done) : done = index := by
  induction rounds generalizing target with
  | nil => cases h
  | cons round later ih =>
    rw [askRounds] at h
    split at h
    · exact (Except.ok.inj h).symm
    · exact ih h

variable {S : Type} [LinearOrder S] {score : Str → Nat → Str → MemberProfile → S}

/-- **One shard**, from whichever owner in whichever round. -/
theorem receive_fills (client : ClientNode) (manifest : ShardManifest) (index : Nat)
    (rounds : List Round) (target : Bytes) :
    Filled (manifest.shardChecksum index) target
      (∃ done, (client.receive score manifest index rounds target).1 = .ok done)
      (client.receive score manifest index rounds target).2 := by
  rw [receive]
  cases client.askedOwners score manifest index with
  | error e => exact .failed rfl (fun ⟨_, h⟩ => by cases h)
  | ok owners => exact client.askRounds_fills manifest index owners rounds target

theorem receive_eq_ok {client : ClientNode} {manifest : ShardManifest} {index done : Nat}
    {rounds : List Round} {target : Bytes}
    (h : (client.receive score manifest index rounds target).1 = .ok done) : done = index := by
  rw [receive] at h
  split at h
  · cases h
  · exact askRounds_eq_ok h

end ClientNode

end

/-! ## The memory of a download -/

namespace Selection

/-- A buffer as long as the version, or targets as long as their shards. -/
def Fits (m : ShardManifest) : Selection → Prop
  | .whole data => data.length = m.totalSize
  | .targets given => ∀ index target, given.get? index = some target →
      m.shardLength index = .ok (target.length : Int)

/-- Only these shards have been written to. -/
structure Touches (m : ShardManifest) (touched : List Nat) (before after : Selection) : Prop where
  fits : after.Fits m
  isWhole_eq : after.isWhole = before.isWhole
  indices_eq : after.indices m = before.indices m
  frame : ∀ index ∈ before.indices m, index ∉ touched →
    after.target m index = before.target m index

variable {m : ShardManifest} {s t u : Selection} {touched : List Nat}

theorem Touches.refl (hs : s.Fits m) : s.Touches m touched s :=
  ⟨hs, rfl, rfl, fun _ _ _ => rfl⟩

theorem Touches.trans (h : s.Touches m touched t) (hlater : t.Touches m touched u) :
    s.Touches m touched u where
  fits := hlater.fits
  isWhole_eq := hlater.isWhole_eq.trans h.isWhole_eq
  indices_eq := hlater.indices_eq.trans h.indices_eq
  frame := by
    intro index hindex huntouched
    rw [hlater.frame index (h.indices_eq ▸ hindex) huntouched, h.frame index hindex huntouched]

theorem Touches.mono {more : List Nat} (h : s.Touches m touched t)
    (hmore : ∀ index ∈ touched, index ∈ more) : s.Touches m more t where
  fits := h.fits
  isWhole_eq := h.isWhole_eq
  indices_eq := h.indices_eq
  frame := fun index hindex huntouched =>
    h.frame index hindex fun htouched => huntouched (hmore index htouched)

/-- A shard of the selection is one of the manifest, and its target is as long. -/
theorem Fits.target (hs : s.Fits m) (hm : m.Counted) {index : Nat} (hindex : index ∈ s.indices m) :
    index < m.shardCount ∧ m.shardLength index = .ok ((s.target m index).length : Int) := by
  cases s with
  | whole data =>
    have hlt : index < m.shardCount := List.mem_range.mp hindex
    refine ⟨hlt, ?_⟩
    rw [hm.shardLength hlt, Selection.target, hm.targetSpan hlt]
    simp only
    rw [Pieces.length_slice (by rw [show data.length = m.totalSize from hs]; exact Nat.min_le_right _ _)]
  | targets given =>
    obtain ⟨target, htarget⟩ := OrderedDict.mem_keys_iff.mp hindex
    have hlength := hs index target htarget
    constructor
    · by_contra hout
      rw [ShardManifest.shardLength, if_pos (by omega)] at hlength
      cases hlength
    · rw [hlength, Selection.target, htarget, Option.getD_some]

/-- The targets of a buffer are its pieces. -/
theorem target_whole (hm : m.Counted) {data : Bytes} {index : Nat} (hindex : index < m.shardCount) :
    (whole data).target m index = Pieces.slice data (Pieces.span m.shardSize m.totalSize index).1
      (Pieces.span m.shardSize m.totalSize index).2 := by
  rw [Selection.target, hm.targetSpan hindex]

theorem fill_whole (hm : m.Counted) {data : Bytes} {index : Nat} (hindex : index < m.shardCount)
    (bytes : Bytes) : (whole data).fill m index bytes =
      .whole (Pieces.write data (Pieces.span m.shardSize m.totalSize index).1 bytes) := by
  rw [Selection.fill, hm.targetSpan hindex]

/-- The target of a shard is filled, and nothing else changes. -/
theorem Fits.fill (hs : s.Fits m) (hm : m.Counted) {index : Nat} (hindex : index ∈ s.indices m)
    {bytes : Bytes} (hlength : bytes.length = (s.target m index).length) :
    s.Touches m [index] (s.fill m index bytes) ∧
      (s.fill m index bytes).target m index = bytes := by
  cases s with
  | whole data =>
    have hdata : data.length = m.totalSize := hs
    have hlt : index < m.shardCount := List.mem_range.mp hindex
    have hspan := Pieces.span_nonempty hm.shardSize_pos (hm.shardCount_eq ▸ hlt)
    have hbound : (Pieces.span m.shardSize m.totalSize index).2 ≤ data.length := by
      rw [hdata]
      exact Nat.min_le_right _ _
    rw [target_whole hm hlt, Pieces.length_slice hbound] at hlength
    have hend : (Pieces.span m.shardSize m.totalSize index).1 + bytes.length =
        (Pieces.span m.shardSize m.totalSize index).2 := by omega
    have hfits : (Pieces.span m.shardSize m.totalSize index).1 + bytes.length ≤ data.length :=
      hend ▸ hbound
    rw [fill_whole hm hlt]
    constructor
    · constructor
      · exact (Pieces.length_write hfits).trans hdata
      · rfl
      · rfl
      · intro other hother hne
        have hother : other < m.shardCount := List.mem_range.mp hother
        rw [target_whole hm hother, target_whole hm hother]
        apply Pieces.slice_write_of_apart hfits
        rw [hend]
        exact Pieces.spans_apart (fun h => hne (List.mem_singleton.mpr h))
    · rw [target_whole hm hlt, ← hend]
      exact Pieces.slice_write_same hfits
  | targets given =>
    obtain ⟨target, htarget⟩ := OrderedDict.mem_keys_iff.mp hindex
    rw [Selection.target, htarget, Option.getD_some] at hlength
    constructor
    · constructor
      · intro other bytes' hget
        rw [OrderedDict.get?_insert] at hget
        split_ifs at hget with hsame
        · obtain rfl := Option.some.inj hget
          rw [hsame, hs index target htarget, hlength]
        · exact hs other bytes' hget
      · rfl
      · obtain ⟨front, back, hentries, hinserted⟩ := OrderedDict.entries_insert_of_present htarget
        simp only [indices, Selection.fill, OrderedDict.keys, hinserted, hentries, List.map_append,
          List.map_cons]
      · intro other _ hne
        rw [List.mem_singleton] at hne
        simp only [Selection.target, Selection.fill, OrderedDict.get?_insert, if_neg hne]
    · simp only [Selection.target, Selection.fill, OrderedDict.get?_insert, if_true,
        Option.getD_some]

end Selection

end Litecast
