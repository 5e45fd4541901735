import Litecast.Endpoints
import Litecast.ControlFrames

/-! Which endpoint documents are read back as the metadata they were made of. -/

namespace Litecast

open JsonText

theorem Json.mem_keys_iff {members : List (Str × Json)} {key : Str} :
    key ∈ (Json.obj members).keys ↔ ((Json.obj members).get? key).isSome = true := by
  induction members with
  | nil => simp [Json.keys, Json.get?, Json.lookupMember]
  | cons first rest ih =>
    simp only [Json.keys, Json.get?, List.map_cons, List.mem_cons, Json.lookupMember] at ih ⊢
    by_cases h : first.1 = key
    · simp [h]
    · rw [if_neg h, ← ih, or_iff_right (Ne.symm h)]

namespace EndpointMetadata

/-! ## The fields of a document -/

theorem get?_schema (metadata : EndpointMetadata) :
    metadata.toDict.get? (str "schema") = some (.int metadata.schema) := rfl

theorem get?_ucxx (metadata : EndpointMetadata) :
    metadata.toDict.get? (str "ucxx") = metadata.ucxx.map ucxxDict := by
  unfold toDict
  cases metadata.ucxx with
  | some endpoint => rfl
  | none => cases metadata.middleId <;> split_ifs <;> rfl

theorem get?_middleId (metadata : EndpointMetadata) : metadata.toDict.get? (str "middle_id") =
    if streamingEndpointSchema ≤ metadata.schema then metadata.middleId.map .str else none := by
  unfold toDict
  cases metadata.ucxx <;> cases metadata.middleId <;> split_ifs <;> rfl

theorem get?_capabilities (metadata : EndpointMetadata) :
    metadata.toDict.get? (str "capabilities") =
      if streamingEndpointSchema ≤ metadata.schema then
        some (.arr (metadata.capabilities.map .str)) else none := by
  unfold toDict
  cases metadata.ucxx <;> cases metadata.middleId <;> split_ifs <;> rfl

theorem requireKeys_toDict (metadata : EndpointMetadata) :
    requireKeys metadata.toDict [str "schema", str "http"]
      [str "ucxx", str "middle_id", str "capabilities"] (str "endpoint metadata") = .ok () := by
  unfold toDict
  cases metadata.ucxx <;> cases metadata.middleId <;> split_ifs <;> rfl

/-- With the first schema no streaming field is written. -/
theorem streaming_keys_toDict {metadata : EndpointMetadata} (h : metadata.schema = endpointSchema) :
    ¬ (str "middle_id" ∈ metadata.toDict.keys ∨ str "capabilities" ∈ metadata.toDict.keys) := by
  have hfirst : ¬ streamingEndpointSchema ≤ metadata.schema := by rw [h]; decide
  have hmiddle := get?_middleId metadata
  have hcapabilities := get?_capabilities metadata
  rw [if_neg hfirst] at hmiddle hcapabilities
  rw [toDict] at hmiddle hcapabilities ⊢
  rw [Json.mem_keys_iff, Json.mem_keys_iff, hmiddle, hcapabilities]
  decide

/-! ## Texts and addresses -/

theorem validateText_ok {value : Json} {label : Str} {maximum : Nat} {text : Str}
    (h : validateText value label maximum = .ok text) :
    value = .str text ∧ text ≠ [] ∧ ∃ encoded, encodeUtf8 text = some encoded ∧
      encoded.length ≤ maximum ∧ ⟨0, by decide⟩ ∉ text := by
  unfold validateText at h
  split at h
  · cases h
  · next found hfound =>
    simp only at h
    split_ifs at h with hempty
    split at h
    · cases h
    · next encoded hencoded =>
      split_ifs at h with hbad
      obtain rfl := Except.ok.inj h
      rw [not_or, Nat.not_lt] at hbad
      refine ⟨?_, hempty, encoded, hencoded, hbad⟩
      cases value <;> simp [Json.string?] at hfound
      rw [hfound]

theorem validateText_str {text : Str} {encoded : Bytes} {maximum : Nat} (hne : text ≠ [])
    (hencoded : encodeUtf8 text = some encoded) (hlength : encoded.length ≤ maximum)
    (hnul : ⟨0, by decide⟩ ∉ text) (label : Str) :
    validateText (.str text) label maximum = .ok text := by
  have hgood : ¬ (maximum < encoded.length ∨ (⟨0, by decide⟩ : CodePoint) ∈ text) :=
    not_or.mpr ⟨Nat.not_lt.mpr hlength, hnul⟩
  simp only [validateText, Json.string?, if_neg hne, hencoded, if_neg hgood]

/-- A part of a text takes no more room. -/
theorem encodeUtf8_prefix {front back : Str} {encoded : Bytes}
    (h : encodeUtf8 (front ++ back) = some encoded) :
    ∃ shorter, encodeUtf8 front = some shorter ∧ shorter.length ≤ encoded.length := by
  have htext : IsText front := fun c hc => isText_of_encodeUtf8 h c (List.mem_append_left _ hc)
  obtain ⟨shorter, hshorter⟩ := encodeUtf8_of_isText htext
  refine ⟨shorter, hshorter, ?_⟩
  rw [length_of_encodeUtf8 hshorter, length_of_encodeUtf8 h, utf8Size_append]
  exact Nat.le_add_right _ _

/-- A base URL loses its trailing slashes, and is a base URL without them. -/
theorem validateHttpUrl_ok {checkNetloc : Str → Except Exc Unit} {url base : Str}
    (h : validateHttpUrl checkNetloc (.str url) = .ok base) :
    base = Str.rstrip (.ofChar '/') url ∧
      validateHttpUrl checkNetloc (.str base) = .ok base := by
  obtain ⟨text, htext, h⟩ := bind_eq_ok.mp h
  obtain ⟨hurl, hne, encoded, hencoded, hlength, hnul⟩ := validateText_ok htext
  obtain rfl := Json.str.inj hurl
  obtain ⟨found, hfound, h⟩ := bind_eq_ok.mp h
  split_ifs at h with habsolute hplain
  obtain rfl := Except.ok.inj h
  simp only [not_or, not_and, not_not] at habsolute hplain
  obtain ⟨hscheme, hnetloc⟩ := habsolute
  obtain ⟨hquery, hfragment, huser, hpassword⟩ := hplain
  have hnamed : found.scheme ≠ [] := by
    intro hnil
    rw [hnil] at hscheme
    exact absurd (hscheme (by decide)) (by decide)
  obtain ⟨path, hsplit⟩ := urlsplit_rstrip hfound hnamed hnetloc hquery hfragment
  obtain ⟨slashes, hslashes, hurl⟩ := exists_slashes url
  have hbase : Str.rstrip (.ofChar '/') url ≠ [] := by
    intro hnil
    rw [hnil] at hsplit
    obtain ⟨⟨⟩, -, hempty⟩ := bind_eq_ok.mp hsplit
    exact hnamed (congrArg SplitResult.scheme (Except.ok.inj hempty)).symm
  have hencoded' := hencoded
  rw [← hurl] at hencoded'
  obtain ⟨shorter, hshorter, hle⟩ := encodeUtf8_prefix hencoded'
  have hnul' : (⟨0, by decide⟩ : CodePoint) ∉ Str.rstrip (.ofChar '/') url := by
    intro hmem
    exact hnul (hurl ▸ List.mem_append_left _ hmem)
  have htext' := validateText_str hbase hshorter (hle.trans hlength) hnul' (str "http base_url")
  refine ⟨rfl, ?_⟩
  have habsolute : ¬ ((found.scheme ≠ str "http" ∧ found.scheme ≠ str "https") ∨
      found.netloc = []) := by
    simp only [not_or, not_and, not_not]
    exact ⟨hscheme, hnetloc⟩
  have hplain : ¬ (found.query ≠ [] ∨ found.fragment ≠ [] ∨
      ({ found with path } : SplitResult).username ≠ [] ∨
      ({ found with path } : SplitResult).password ≠ []) := by
    simp only [not_or, not_not]
    exact ⟨hquery, hfragment, huser, hpassword⟩
  simp only [validateHttpUrl, htext', hsplit, if_neg habsolute, if_neg hplain, rstrip_rstrip, bind,
    Except.bind]

theorem parsePort_ok {value : Json} {port : Int} (h : parsePort value = .ok port) :
    value = .int port := by
  unfold parsePort at h
  split at h
  · next found hfound =>
    split_ifs at h
    obtain rfl := Except.ok.inj h
    exact Json.plainInt?_eq_some.mp hfound
  · cases h

/-- An optional field that is written only when it is there. -/
theorem parseOptional_ok {α β : Type} {parse : Json → Except Exc α} {value : Json} {key : Str}
    {field : Option β} {write : β → Json} (hget : value.get? key = field.map write)
    (hnull : ∀ b, write b ≠ .null) {found : Option α}
    (h : parseOptional parse value key = .ok found) :
    (field = none ∧ found = none) ∨
      ∃ b a, field = some b ∧ found = some a ∧ parse (write b) = .ok a := by
  unfold parseOptional at h
  rw [hget] at h
  cases field with
  | none => exact Or.inl ⟨rfl, (Except.ok.inj h).symm⟩
  | some b =>
    simp only [Option.map_some, Option.getD_some] at h
    split at h
    · next hwrite => exact absurd hwrite (hnull b)
    · obtain ⟨a, ha, rfl⟩ := map_eq_ok.mp h
      exact Or.inr ⟨b, a, rfl, rfl, ha⟩

section
variable [Library]

theorem parseName_ok {value : Json} {label : Str} {maximum : Nat} {name : Str}
    (h : parseName value label maximum = .ok name) : value = .str name := by
  obtain ⟨text, htext, h⟩ := bind_eq_ok.mp h
  split_ifs at h
  obtain rfl := Except.ok.inj h
  exact (validateText_ok htext).1

/-! ## What is kept -/

theorem parseUcxx_ucxxDict {endpoint found : UCXXEndpoint}
    (h : parseUcxx (ucxxDict endpoint) = .ok found) : found = endpoint := by
  have hobject : ¬ (ucxxDict endpoint).isObject = false := by simp [ucxxDict, Json.isObject]
  have hhost : (ucxxDict endpoint).get? (str "host") = some (.str endpoint.host) := rfl
  have hport : (ucxxDict endpoint).get? (str "port") = some (.int endpoint.port) := rfl
  have hverified : (ucxxDict endpoint).get? (str "verified_rdma") =
      some (.bool endpoint.verifiedRdma) := rfl
  have hinterface : (ucxxDict endpoint).get? (str "interface") = endpoint.interface.map .str := by
    unfold ucxxDict
    cases endpoint.interface <;> rfl
  simp only [parseUcxx, if_neg hobject, hhost, hport, hverified, Option.getD_some] at h
  obtain ⟨⟨⟩, -, h⟩ := bind_eq_ok.mp h
  obtain ⟨host, hname, h⟩ := bind_eq_ok.mp h
  obtain ⟨port, hnumber, h⟩ := bind_eq_ok.mp h
  obtain ⟨interface, hoptional, h⟩ := bind_eq_ok.mp h
  obtain rfl := Json.str.inj (parseName_ok hname)
  obtain rfl := Json.int.inj (parsePort_ok hnumber)
  obtain rfl : interface = endpoint.interface := by
    rcases parseOptional_ok hinterface (fun _ => by simp) hoptional with
      ⟨hnone, rfl⟩ | ⟨name, read, hsome, rfl, hread⟩
    · exact hnone.symm
    · rw [hsome, Json.str.inj (parseName_ok hread)]
  exact (Except.ok.inj h).symm

/-- The metadata a document stands for: with the first schema the streaming
fields are left out. -/
def kept (metadata : EndpointMetadata) : EndpointMetadata :=
  { metadata with
    httpBaseUrl := Str.rstrip (.ofChar '/') metadata.httpBaseUrl
    middleId := if streamingEndpointSchema ≤ metadata.schema then metadata.middleId else none
    capabilities := if streamingEndpointSchema ≤ metadata.schema then metadata.capabilities else [] }

omit [Library] in
theorem parseSchema_ok {metadata : EndpointMetadata} {schema : Int}
    (h : parseSchema metadata.toDict = .ok schema) : schema = metadata.schema := by
  simp only [parseSchema, get?_schema, Option.getD_some, Json.plainInt?] at h
  split_ifs at h
  exact (Except.ok.inj h).symm

omit [Library] in
theorem parseCapabilities_ok {metadata : EndpointMetadata} {capabilities : List Str}
    (h : parseCapabilities metadata.toDict = .ok capabilities) :
    capabilities = metadata.kept.capabilities := by
  have hstrings (items : List Str) : (items.map Json.str).mapM Json.string? = some items := by
    induction items with
    | nil => rfl
    | cons item rest ih => simp [Json.string?, ih]
  simp only [parseCapabilities, get?_capabilities] at h
  simp only [kept]
  split_ifs at h ⊢ with hstreaming
  · simp only [Option.getD_some, hstrings] at h
    split_ifs at h
    exact (Except.ok.inj h).symm
  · exact (Except.ok.inj h).symm

section
variable {checkNetloc : Str → Except Exc Unit}

omit [Library] in
theorem parseBaseUrl_toDict (metadata : EndpointMetadata) :
    parseBaseUrl checkNetloc metadata.toDict =
      validateHttpUrl checkNetloc (.str metadata.httpBaseUrl) := rfl

omit [Library] in
/-- The fields `kept` leaves alone are written as they were. -/
theorem get?_kept (metadata : EndpointMetadata) :
    metadata.kept.toDict.get? (str "ucxx") = metadata.toDict.get? (str "ucxx") ∧
    metadata.kept.toDict.get? (str "middle_id") = metadata.toDict.get? (str "middle_id") ∧
    metadata.kept.toDict.get? (str "capabilities") = metadata.toDict.get? (str "capabilities") := by
  simp only [get?_ucxx, get?_middleId, get?_capabilities, kept]
  refine ⟨trivial, ?_, ?_⟩ <;> split_ifs <;> rfl

/-- Validation gives what is kept, and keeps it when it is validated again. -/
theorem parseMapping_toDict_ok {metadata found : EndpointMetadata}
    (h : parseMapping checkNetloc metadata.toDict = .ok found) :
    found = metadata.kept ∧ parseMapping checkNetloc metadata.kept.toDict = .ok metadata.kept := by
  obtain ⟨⟨⟩, -, h⟩ := bind_eq_ok.mp h
  obtain ⟨schema, hschema, h⟩ := bind_eq_ok.mp h
  obtain rfl := parseSchema_ok hschema
  split_ifs at h with hrefused
  obtain ⟨base, hbase, h⟩ := bind_eq_ok.mp h
  obtain ⟨ucxx, hucxx, h⟩ := bind_eq_ok.mp h
  obtain ⟨middleId, hmiddle, h⟩ := bind_eq_ok.mp h
  obtain ⟨capabilities, hcapabilities, h⟩ := bind_eq_ok.mp h
  rw [parseBaseUrl_toDict] at hbase
  obtain ⟨rfl, hagain⟩ := validateHttpUrl_ok hbase
  obtain rfl : ucxx = metadata.ucxx := by
    rcases parseOptional_ok (get?_ucxx metadata) (fun _ => by simp [ucxxDict]) hucxx with
      ⟨hnone, rfl⟩ | ⟨endpoint, read, hsome, rfl, hread⟩
    · exact hnone.symm
    · rw [hsome, parseUcxx_ucxxDict hread]
  obtain rfl : middleId = metadata.kept.middleId := by
    have hget : metadata.toDict.get? (str "middle_id") = metadata.kept.middleId.map .str := by
      rw [get?_middleId, kept]
      simp only
      split_ifs <;> rfl
    rcases parseOptional_ok hget (fun _ => by simp) hmiddle with
      ⟨hnone, rfl⟩ | ⟨name, read, hsome, rfl, hread⟩
    · exact hnone.symm
    · rw [hsome, Json.str.inj (validateText_ok hread).1]
  obtain rfl := parseCapabilities_ok hcapabilities
  refine ⟨(Except.ok.inj h).symm, ?_⟩
  have hrefused' : ¬ (metadata.schema = endpointSchema ∧
      (str "middle_id" ∈ metadata.kept.toDict.keys ∨
        str "capabilities" ∈ metadata.kept.toDict.keys)) := by
    rintro ⟨hfirst, hkeys⟩
    exact streaming_keys_toDict (show metadata.kept.schema = endpointSchema from hfirst) hkeys
  obtain ⟨hgetUcxx, hgetMiddle, hgetCapabilities⟩ := get?_kept metadata
  have hschema' : parseSchema metadata.kept.toDict = .ok metadata.schema := hschema
  have hucxx' : parseOptional parseUcxx metadata.kept.toDict (str "ucxx") = .ok metadata.ucxx := by
    rw [← hucxx, parseOptional, parseOptional, hgetUcxx]
  have hmiddle' : parseOptional (fun found => validateText found (str "middle_id") maxUrlSize)
      metadata.kept.toDict (str "middle_id") = .ok metadata.kept.middleId := by
    rw [← hmiddle, parseOptional, parseOptional, hgetMiddle]
  have hcapabilities' : parseCapabilities metadata.kept.toDict = .ok metadata.kept.capabilities := by
    rw [← hcapabilities, parseCapabilities, parseCapabilities, hgetCapabilities]
  have hbase' : parseBaseUrl checkNetloc metadata.kept.toDict =
      .ok (Str.rstrip (.ofChar '/') metadata.httpBaseUrl) := hagain
  simp only [parseMapping, requireKeys_toDict, hschema', if_neg hrefused', hbase', hucxx', hmiddle',
    hcapabilities', bind, Except.bind, pure, Except.pure]
  rfl

/-! ## The order of the keys -/

omit [Library] in
theorem requireKeys_ok {value : Json} {required optional : List Str} {label : Str} :
    requireKeys value required optional label = .ok () ↔
      (∀ key ∈ required, key ∈ value.keys) ∧
        ∀ key ∈ value.keys, key ∈ required ∨ key ∈ optional := by
  simp only [requireKeys, ne_eq, List.filter_eq_nil_iff, decide_eq_true_eq, not_not, not_and]
  split_ifs with hmissing hunknown
  · simp only [true_iff]
    exact ⟨hmissing, fun key hkey => or_iff_not_imp_left.mpr (hunknown key hkey)⟩
  · simp only [false_iff]
    exact fun h => hunknown fun key hkey hnot => (h.2 key hkey).resolve_left hnot
  · simp only [false_iff]
    exact fun h => hmissing h.1

omit [Library] in
theorem requireKeys_sorted {value : Json} {required optional : List Str} {label : Str}
    (h : requireKeys value required optional label = .ok ()) :
    requireKeys value.sorted required optional label = .ok () := by
  rw [requireKeys_ok] at h ⊢
  simpa only [Json.mem_keys_sorted] using h

omit [Library] in
theorem validateText_sorted (value : Json) (label : Str) (maximum : Nat) :
    validateText value.sorted label maximum = validateText value label maximum := by
  rw [validateText, validateText, Json.string?_sorted]

theorem parseName_sorted (value : Json) (label : Str) (maximum : Nat) :
    parseName value.sorted label maximum = parseName value label maximum := by
  rw [parseName, parseName, validateText_sorted]

omit [Library] in
theorem parseOptional_sorted {α : Type} {parse : Json → Except Exc α}
    (hparse : ∀ {value : Json} {a : α}, parse value = .ok a → parse value.sorted = .ok a)
    {value : Json} {key : Str} {found : Option α} (h : parseOptional parse value key = .ok found) :
    parseOptional parse value.sorted key = .ok found := by
  rw [parseOptional, Json.field_sorted _ _ _ Json.sorted_null]
  rw [parseOptional] at h
  generalize (value.get? key).getD .null = field at h ⊢
  have hsome (hne : field ≠ .null) (h : some <$> parse field = .ok found) :
      some <$> parse field.sorted = .ok found := by
    obtain ⟨a, ha, rfl⟩ := map_eq_ok.mp h
    exact map_eq_ok.mpr ⟨a, hparse ha, rfl⟩
  cases field with
  | null => exact h
  | bool b => exact hsome (by simp) h
  | int n => exact hsome (by simp) h
  | float x => exact hsome (by simp) h
  | str s => exact hsome (by simp) h
  | arr items => exact hsome (by simp) h
  | obj members => exact hsome (by simp) h

theorem parseUcxx_sorted {value : Json} {found : UCXXEndpoint} (h : parseUcxx value = .ok found) :
    parseUcxx value.sorted = .ok found := by
  simp only [parseUcxx, Json.isObject_sorted, Json.field_sorted _ _ _ Json.sorted_null,
    parseName_sorted] at h ⊢
  split_ifs at h ⊢ with hobject
  obtain ⟨⟨⟩, hkeys, h⟩ := bind_eq_ok.mp h
  obtain ⟨host, hhost, h⟩ := bind_eq_ok.mp h
  obtain ⟨port, hport, h⟩ := bind_eq_ok.mp h
  obtain ⟨interface, hinterface, h⟩ := bind_eq_ok.mp h
  have hinterface' := parseOptional_sorted
    (fun {value a} ha => by rw [parseName_sorted]; exact ha) hinterface
  have hport' : parsePort ((value.get? (str "port")).getD .null).sorted = .ok port := by
    rw [parsePort, Json.plainInt?_sorted]
    exact hport
  have hverified : ((value.sorted.get? (str "verified_rdma")).getD (.bool false)) =
      ((value.get? (str "verified_rdma")).getD (.bool false)).sorted :=
    Json.field_sorted _ _ _ (by rw [Json.sorted])
  simp only [requireKeys_sorted hkeys, hhost, hport', hinterface', hverified, bind, Except.bind]
  split at h
  · next b hb =>
    rw [hb, Json.sorted]
    exact h
  · cases h

omit [Library] in
theorem parseBaseUrl_sorted {value : Json} {base : Str}
    (h : parseBaseUrl checkNetloc value = .ok base) :
    parseBaseUrl checkNetloc value.sorted = .ok base := by
  simp only [parseBaseUrl, Json.isObject_sorted, Json.field_sorted _ _ _ Json.sorted_null] at h ⊢
  split_ifs at h ⊢ with hobject
  obtain ⟨⟨⟩, hkeys, h⟩ := bind_eq_ok.mp h
  refine bind_eq_ok.mpr ⟨(), requireKeys_sorted hkeys, ?_⟩
  rw [validateHttpUrl, validateText_sorted]
  exact h

omit [Library] in
theorem parseCapabilities_sorted {value : Json} {capabilities : List Str}
    (h : parseCapabilities value = .ok capabilities) :
    parseCapabilities value.sorted = .ok capabilities := by
  have hsorted : (value.sorted.get? (str "capabilities")).getD (.arr []) =
      ((value.get? (str "capabilities")).getD (.arr [])).sorted :=
    Json.field_sorted _ _ _ (by rw [Json.sorted, Json.sortedItems])
  have hstrings (items : List Json) :
      (items.map Json.sorted).mapM Json.string? = items.mapM Json.string? := by
    rw [List.mapM_map]
    exact congrArg (fun f => items.mapM f) (funext Json.string?_sorted)
  simp only [parseCapabilities, hsorted] at h ⊢
  split at h
  · next items hitems =>
    rw [hitems, Json.sorted, Json.sortedItems_eq_map]
    simp only [hstrings]
    exact h
  · cases h

theorem parseMapping_sorted {value : Json} {metadata : EndpointMetadata}
    (h : parseMapping checkNetloc value = .ok metadata) :
    parseMapping checkNetloc value.sorted = .ok metadata := by
  obtain ⟨⟨⟩, hkeys, h⟩ := bind_eq_ok.mp h
  obtain ⟨schema, hschema, h⟩ := bind_eq_ok.mp h
  split_ifs at h with hrefused
  obtain ⟨base, hbase, h⟩ := bind_eq_ok.mp h
  obtain ⟨ucxx, hucxx, h⟩ := bind_eq_ok.mp h
  obtain ⟨middleId, hmiddle, h⟩ := bind_eq_ok.mp h
  obtain ⟨capabilities, hcapabilities, h⟩ := bind_eq_ok.mp h
  have hschema' : parseSchema value.sorted = .ok schema := by
    rw [parseSchema, Json.field_sorted _ _ _ Json.sorted_null, Json.plainInt?_sorted]
    exact hschema
  have hmiddle' := parseOptional_sorted
    (fun {value a} ha => by rw [validateText_sorted]; exact ha) hmiddle
  have hucxx' := parseOptional_sorted (fun {value a} ha => parseUcxx_sorted ha) hucxx
  simp only [parseMapping, requireKeys_sorted hkeys, hschema', Json.mem_keys_sorted,
    if_neg hrefused, parseBaseUrl_sorted hbase, hucxx', hmiddle',
    parseCapabilities_sorted hcapabilities, bind, Except.bind]
  exact h

/-! ## The document of a metadata -/

theorem writable_toDict (metadata : EndpointMetadata) : Writable true metadata.toDict := by
  have hurl : Writable true (.obj [(str "base_url", .str metadata.httpBaseUrl)]) := by
    refine .of_keys (rfl : _ = [str "base_url"]) (by decide) (by decide) ?_
    simpa using Writable.str (Or.inl rfl)
  have hcapabilities : Writable true (.arr (metadata.capabilities.map .str)) := by
    refine .arr fun item hitem => ?_
    obtain ⟨capability, -, rfl⟩ := List.mem_map.mp hitem
    exact .str (Or.inl rfl)
  have hucxx (endpoint : UCXXEndpoint) : Writable true (ucxxDict endpoint) := by
    have hkeys : (([(str "host", Json.str endpoint.host), (str "port", .int endpoint.port),
        (str "verified_rdma", .bool endpoint.verifiedRdma)] ++
        endpoint.interface.elim [] fun interface => [(str "interface", Json.str interface)]).map
          Prod.fst).Sublist [str "host", str "port", str "verified_rdma", str "interface"] := by
      cases endpoint.interface <;> simp
    refine .of_sublist hkeys (by decide) (by decide) ?_
    cases endpoint.interface <;> simp [Writable.str, Writable.int, Writable.bool]
  unfold toDict
  have hkeys : (([(str "schema", Json.int metadata.schema),
      (str "http", .obj [(str "base_url", .str metadata.httpBaseUrl)])] ++
      (metadata.ucxx.elim [] fun endpoint => [(str "ucxx", ucxxDict endpoint)]) ++
      if streamingEndpointSchema ≤ metadata.schema then
        [(str "capabilities", Json.arr (metadata.capabilities.map .str))] ++
          metadata.middleId.elim [] fun middleId => [(str "middle_id", Json.str middleId)]
      else []).map Prod.fst).Sublist
      [str "schema", str "http", str "ucxx", str "capabilities", str "middle_id"] := by
    cases metadata.ucxx <;> cases metadata.middleId <;> split_ifs <;> simp
  refine .of_sublist hkeys (by decide) (by decide) ?_
  cases metadata.ucxx <;> cases metadata.middleId <;> split_ifs <;>
    simp [Writable.str, Writable.int, hurl, hcapabilities, hucxx]

theorem parseMapping_schema {value : Json} {found : EndpointMetadata}
    (h : parseMapping checkNetloc value = .ok found) :
    found.schema = endpointSchema ∨ found.schema = streamingEndpointSchema := by
  obtain ⟨⟨⟩, -, h⟩ := bind_eq_ok.mp h
  obtain ⟨schema, hschema, h⟩ := bind_eq_ok.mp h
  split_ifs at h
  obtain ⟨base, -, h⟩ := bind_eq_ok.mp h
  obtain ⟨ucxx, -, h⟩ := bind_eq_ok.mp h
  obtain ⟨middleId, -, h⟩ := bind_eq_ok.mp h
  obtain ⟨capabilities, -, h⟩ := bind_eq_ok.mp h
  obtain rfl := Except.ok.inj h
  unfold parseSchema at hschema
  split at hschema
  · split_ifs at hschema with hknown
    obtain rfl := Except.ok.inj hschema
    exact hknown
  · cases hschema

/-- A document that was written is read as what the first validation kept. -/
theorem parse_serialize {metadata : EndpointMetadata} {raw : Bytes}
    (h : serialize checkNetloc metadata = .ok raw) :
    parse checkNetloc raw = .ok metadata.kept ∧
      (metadata.schema = endpointSchema ∨ metadata.schema = streamingEndpointSchema) := by
  obtain ⟨validated, hvalidated, h⟩ := bind_eq_ok.mp h
  obtain ⟨rfl, hagain⟩ := parseMapping_toDict_ok hvalidated
  have hknown := parseMapping_schema hvalidated
  split at h
  · cases h
  · next encoded hencoded =>
    split_ifs at h with hlong
    obtain rfl := Except.ok.inj h
    have hwritable : Writable false metadata.kept.toDict.sorted :=
      (writable_toDict metadata.kept).sorted.of_isText fun c hc => isText_of_encodeUtf8 hencoded c hc
    have hloads := loads_write false hwritable hencoded
    rw [hwritable.rejoined] at hloads
    have hfits : ¬ ((maxEndpointsJsonSize : Int) < encoded.length) := by omega
    have hobject : ¬ metadata.kept.toDict.sorted.isObject = false := by
      rw [Json.isObject_sorted]
      simp [toDict, Json.isObject]
    refine ⟨?_, hknown⟩
    simp only [parse, if_neg hfits, repeatedKey_write false hwritable hencoded, hloads,
      if_neg hobject]
    exact parseMapping_sorted hagain

/-- The first schema has no place for the streaming fields, and they are lost. -/
theorem parse_serialize_iff {metadata : EndpointMetadata} {raw : Bytes}
    (h : serialize checkNetloc metadata = .ok raw) :
    parse checkNetloc raw = .ok { metadata with
        httpBaseUrl := Str.rstrip (.ofChar '/') metadata.httpBaseUrl } ↔
      metadata.schema ≠ endpointSchema ∨
        (metadata.middleId = none ∧ metadata.capabilities = []) := by
  obtain ⟨hparse, hknown⟩ := parse_serialize h
  rw [hparse, Except.ok.injEq, kept, EndpointMetadata.mk.injEq]
  rcases hknown with hfirst | hstreaming
  · rw [hfirst, if_neg (by decide), if_neg (by decide)]
    simp [eq_comm]
  · rw [hstreaming, if_pos (by decide), if_pos (by decide)]
    simp [endpointSchema, streamingEndpointSchema]

end

end

/-! ## Two documents -/

/-- The streaming fields of a source, under a schema. -/
def getShardMetadata (schema : Int) : EndpointMetadata :=
  { httpBaseUrl := str "http://host:8000/", schema, capabilities := [str "get_shard"] }

def streamingDocument : Bytes :=
  (encodeUtf8 (str "\x7b\"capabilities\":[\"get_shard\"],\"http\":\x7b\"base_url\":" ++
    str "\"http://host:8000\"\x7d,\"schema\":2\x7d")).getD []

def firstDocument : Bytes :=
  (encodeUtf8 (str "\x7b\"http\":\x7b\"base_url\":\"http://host:8000\"\x7d,\"schema\":1\x7d")).getD []

theorem parse_serialize_streaming :
    letI := asciiLibrary
    serialize (fun _ => .ok ()) (getShardMetadata 2) = .ok streamingDocument ∧
      parse (fun _ => .ok ()) streamingDocument = .ok { getShardMetadata 2 with
        httpBaseUrl := Str.rstrip (.ofChar '/') (getShardMetadata 2).httpBaseUrl } := by
  let _ := asciiLibrary
  have hserialize : serialize (fun _ => .ok ()) (getShardMetadata 2) = .ok streamingDocument := by
    decide +kernel
  exact ⟨hserialize, (parse_serialize_iff hserialize).mpr (Or.inl (by decide))⟩

/-- The first schema is the default, and the document has no capabilities. -/
theorem serialize_loses_capabilities :
    letI := asciiLibrary
    serialize (fun _ => .ok ()) (getShardMetadata 1) = .ok firstDocument ∧
      parse (fun _ => .ok ()) firstDocument ≠ .ok { getShardMetadata 1 with
        httpBaseUrl := Str.rstrip (.ofChar '/') (getShardMetadata 1).httpBaseUrl } := by
  let _ := asciiLibrary
  have hserialize : serialize (fun _ => .ok ()) (getShardMetadata 1) = .ok firstDocument := by
    decide +kernel
  refine ⟨hserialize, ?_⟩
  rw [(parse_serialize hserialize).1]
  decide

end EndpointMetadata

end Litecast
