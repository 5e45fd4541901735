import Litecast.Publication

/-! `pack_adapter` and `split_adapter`: which bytes are a bundle, and of what. -/

namespace Litecast

/-- What `pack_adapter` puts together. -/
def adapterBundle (configSize : Nat) (config weights : Bytes) : Bytes :=
  bundleMagic ++ BigEndian.encode 8 configSize ++ config ++ weights

section
variable [Library] [BundleLibrary]

/-- `pack_adapter` of two files with these sizes, which are then read as
`config` and `weights`. -/
def packAdapter (nestingLimit configSize weightsSize : Nat) (config weights : Bytes)
    (maxBytes : Int) : Except Exc Bytes :=
  if maxConfigBytes < configSize then
    .error ⟨.valueError, str "adapter configuration is too large"⟩
  else if maxBytes < bundleMagic.length + 8 + configSize + weightsSize then
    .error ⟨.valueError, str "adapter bundle exceeds max_adapter_bytes"⟩
  else do
    let payload := adapterBundle configSize config weights
    let _ ← splitAdapter nestingLimit payload
    return payload

/-- The bytes parse as a JSON object whose `peft_type` is `LORA`. -/
def IsLoraConfig (nestingLimit : Nat) (config : Bytes) : Prop :=
  ∃ value, loadsBytes nestingLimit config = .ok value ∧ value.isObject = true ∧
    (value.get? (str "peft_type")).bind Json.string? = some (str "LORA")

end

/-! ## The fields of a bundle -/

theorem length_bundleMagic : bundleMagic.length = 8 := by decide +kernel

theorem length_bundleHeader (configSize : Nat) :
    (bundleMagic ++ BigEndian.encode 8 configSize).length = 16 := by
  rw [List.length_append, length_bundleMagic, BigEndian.length_encode]

theorem length_adapterBundle (configSize : Nat) (config weights : Bytes) :
    (adapterBundle configSize config weights).length = 16 + config.length + weights.length := by
  rw [adapterBundle, List.length_append, List.length_append, length_bundleHeader]

theorem take_adapterBundle (configSize : Nat) (config weights : Bytes) :
    (adapterBundle configSize config weights).take 8 = bundleMagic := by
  rw [adapterBundle, List.append_assoc, List.append_assoc, ← length_bundleMagic, List.take_left]

theorem lengthField_adapterBundle (configSize : Nat) (config weights : Bytes) :
    ((adapterBundle configSize config weights).drop 8).take 8 = BigEndian.encode 8 configSize := by
  have hfront : (adapterBundle configSize config weights).drop 8 =
      BigEndian.encode 8 configSize ++ (config ++ weights) := by
    rw [adapterBundle, List.append_assoc, List.append_assoc, ← length_bundleMagic, List.drop_left]
  rw [hfront, List.take_left' (BigEndian.length_encode 8 configSize)]

theorem drop_adapterBundle (configSize : Nat) (config weights : Bytes) :
    (adapterBundle configSize config weights).drop 16 = config ++ weights := by
  rw [adapterBundle, List.append_assoc, List.drop_left' (length_bundleHeader configSize)]

/-- Bytes with the magic are the bundle of what their length field cuts. -/
theorem eq_adapterBundle {payload : Bytes} (hlength : 16 ≤ payload.length)
    (hmagic : payload.take 8 = bundleMagic) :
    let length := BigEndian.decode ((payload.drop 8).take 8)
    payload = adapterBundle length ((payload.drop 16).take length) (payload.drop (16 + length)) := by
  intro length
  have hfield : ((payload.drop 8).take 8).length = 8 := by
    rw [List.length_take, List.length_drop]
    omega
  have hrest : (payload.drop 8).drop 8 = payload.drop 16 := List.drop_drop
  have hback : (payload.drop 16).drop length = payload.drop (16 + length) := List.drop_drop
  rw [adapterBundle, BigEndian.encode_decode hfield, List.append_assoc, ← hback,
    List.take_append_drop, ← hrest, List.append_assoc, List.take_append_drop, ← hmagic,
    List.take_append_drop]

/-! ## Splitting and packing -/

section
variable [Library] [BundleLibrary] {nestingLimit : Nat}

/-- What `split_adapter` accepts is the bundle of what it returns, and every such
bundle is accepted. -/
theorem splitAdapter_eq_ok_iff {payload config weights : Bytes} :
    splitAdapter nestingLimit payload = .ok (config, weights) ↔
      payload = adapterBundle config.length config weights ∧ 0 < config.length ∧
        config.length ≤ maxConfigBytes ∧ 0 < weights.length ∧ IsLoraConfig nestingLimit config := by
  constructor
  · intro h
    simp only [splitAdapter] at h
    split_ifs at h with hheader hfield
    rw [not_or, Nat.not_lt, not_not] at hheader
    have hbundle := eq_adapterBundle hheader.1 hheader.2
    generalize BigEndian.decode ((payload.drop 8).take 8) = length at h hfield hbundle
    have hconfig : ((payload.drop 16).take length).length = length := by
      rw [List.length_take, List.length_drop]
      omega
    have hweights : (payload.drop (16 + length)).length = payload.length - (16 + length) :=
      List.length_drop
    split at h
    · cases h
    next value hvalue =>
      split_ifs at h with hlora
      obtain ⟨rfl, rfl⟩ := Prod.mk.inj (Except.ok.inj h)
      rw [not_or, not_not, Bool.not_eq_false] at hlora
      refine ⟨by rwa [hconfig], by omega, by omega, by omega, value, hvalue, hlora⟩
  · rintro ⟨rfl, hpositive, hmaximum, hweights, value, hvalue, hobject, hlora⟩
    have hsmall : config.length < 256 ^ 8 := by
      have hlimit : maxConfigBytes < 256 ^ 8 := by decide
      omega
    have hdrop : (adapterBundle config.length config weights).drop (16 + config.length) = weights := by
      rw [← List.drop_drop, drop_adapterBundle, List.drop_left]
    simp only [splitAdapter]
    have hheader : ¬ ((adapterBundle config.length config weights).length < 16 ∨
        (adapterBundle config.length config weights).take 8 ≠ bundleMagic) := by
      rw [length_adapterBundle, take_adapterBundle]
      rintro (hshort | hmagic)
      · omega
      · exact hmagic rfl
    rw [if_neg hheader, lengthField_adapterBundle, BigEndian.decode_encode hsmall,
      if_neg (by rw [length_adapterBundle]; omega), drop_adapterBundle, List.take_left, hvalue,
      hdrop]
    simp [hobject, hlora]

theorem packAdapter_eq {configSize weightsSize : Nat} {config weights payload : Bytes}
    {maxBytes : Int}
    (h : packAdapter nestingLimit configSize weightsSize config weights maxBytes = .ok payload) :
    payload = adapterBundle configSize config weights ∧ configSize ≤ maxConfigBytes ∧
      ∃ parts, splitAdapter nestingLimit payload = .ok parts := by
  rw [packAdapter] at h
  split_ifs at h with hconfig hmaximum
  cases hsplit : splitAdapter nestingLimit (adapterBundle configSize config weights) with
  | error e =>
    simp only [hsplit, bind, Except.bind] at h
    cases h
  | ok parts =>
    simp only [hsplit, bind, Except.bind] at h
    obtain rfl := Except.ok.inj h
    exact ⟨rfl, by omega, parts, hsplit⟩

theorem packAdapter_injective {weightsSize weightsSize' nestingLimit' : Nat}
    {c w c' w' payload : Bytes} {maxBytes maxBytes' : Int}
    (h : packAdapter nestingLimit c.length weightsSize c w maxBytes = .ok payload)
    (h' : packAdapter nestingLimit' c'.length weightsSize' c' w' maxBytes' = .ok payload) :
    c = c' ∧ w = w' := by
  obtain ⟨hbundle, hsize, -⟩ := packAdapter_eq h
  obtain ⟨hbundle', hsize', -⟩ := packAdapter_eq h'
  have hlimit : maxConfigBytes < 256 ^ 8 := by decide
  have hfield := lengthField_adapterBundle c.length c w
  rw [← hbundle, hbundle', lengthField_adapterBundle] at hfield
  have hlength : c.length = c'.length := by
    rw [← BigEndian.decode_encode (show c.length < 256 ^ 8 by omega), ← hfield,
      BigEndian.decode_encode (by omega)]
  have hdrop := drop_adapterBundle c.length c w
  rw [← hbundle, hbundle', drop_adapterBundle] at hdrop
  exact List.append_inj hdrop.symm hlength

/-- **The bundle format is unambiguous.** A bundle splits into what it was made
of, what splits is the bundle of its parts, and two pairs that pack to the same
bytes are the same pair. -/
theorem bundle_unambiguous :
    (∀ (nestingLimit : Nat) (config weights : Bytes), 0 < config.length →
      config.length ≤ maxConfigBytes → IsLoraConfig nestingLimit config → weights ≠ [] →
        splitAdapter nestingLimit (bundleMagic ++ BigEndian.encode 8 config.length ++ config ++
          weights) = .ok (config, weights)) ∧
    (∀ (nestingLimit : Nat) (payload config weights : Bytes),
      splitAdapter nestingLimit payload = .ok (config, weights) →
        payload = bundleMagic ++ BigEndian.encode 8 config.length ++ config ++ weights ∧
        0 < config.length ∧ config.length ≤ maxConfigBytes ∧ IsLoraConfig nestingLimit config ∧
        weights ≠ []) ∧
    (∀ (nestingLimit : Nat) (c w c' w' payload : Bytes) (maxBytes maxBytes' : Int),
      packAdapter nestingLimit c.length w.length c w maxBytes = .ok payload →
        packAdapter nestingLimit c'.length w'.length c' w' maxBytes' = .ok payload →
          c = c' ∧ w = w') := by
  refine ⟨?_, ?_, ?_⟩
  · intro nestingLimit config weights hpositive hmaximum hlora hweights
    exact splitAdapter_eq_ok_iff.mpr
      ⟨rfl, hpositive, hmaximum, List.length_pos_iff.mpr hweights, hlora⟩
  · intro nestingLimit payload config weights h
    obtain ⟨hpayload, hpositive, hmaximum, hweights, hlora⟩ := splitAdapter_eq_ok_iff.mp h
    exact ⟨hpayload, hpositive, hmaximum, hlora, List.length_pos_iff.mp hweights⟩
  · intro nestingLimit c w c' w' payload maxBytes maxBytes' h h'
    exact packAdapter_injective h h'

/-- What a publication verifies is the bundle of one configuration and its weights. -/
theorem verify_bundle {publication : Publication} {payload : Bytes}
    (h : publication.verify nestingLimit payload = .ok ()) :
    ∃ config weights, payload = adapterBundle config.length config weights ∧
      IsLoraConfig nestingLimit config := by
  rw [Publication.verify] at h
  split_ifs at h
  cases hsplit : splitAdapter nestingLimit payload with
  | error e =>
    rw [hsplit] at h
    cases h
  | ok parts =>
    obtain ⟨hpayload, -, -, -, hlora⟩ := splitAdapter_eq_ok_iff.mp hsplit
    exact ⟨parts.1, parts.2, hpayload, hlora⟩

end

/-! ## One bundle -/

def bundleConfig : Bytes := (encodeUtf8 (str "\x7b\"peft_type\":\"LORA\"\x7d")).getD []

/-- An adapter bundle with two bytes of weights. -/
def bundle : Bytes := bundleMagic ++ [0, 0, 0, 0, 0, 0, 0, 20] ++ bundleConfig ++ [1, 2]

/-- Its SHA-256 digest. -/
def bundleDigest : Str := str "8f51689c8028a0a2135c845274eb455e0e0947e3a309bb0fafa1e349d6f2652e"

/-- A library for this bundle: its digest, and ASCII text. -/
@[reducible] def bundleLibrary : BundleLibrary where
  sha256 := fun _ => bundleDigest
  decodeJson := fun data => some (data.map fun b => .ofChar (Char.ofNat b.toNat))

theorem bundle_unambiguous_lora :
    let _ := asciiLibrary
    let _ := bundleLibrary
    splitAdapter 1000 bundle = .ok (bundleConfig, [1, 2]) ∧ IsLoraConfig 1000 bundleConfig := by
  intro _ _
  have hparts : splitAdapter 1000 bundle = .ok (bundleConfig, [1, 2]) := by decide +kernel
  obtain ⟨hbundle, hpositive, hmaximum, hlora, hweights⟩ := bundle_unambiguous.2.1 _ _ _ _ hparts
  rw [hbundle]
  exact ⟨bundle_unambiguous.1 _ _ _ hpositive hmaximum hlora hweights, hlora⟩

end Litecast
