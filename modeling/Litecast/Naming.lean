import Litecast.JsonRoundTrip
import Litecast.Lib.Separator
import Litecast.Publication

/-! The names a run goes by: which of them can be the same. -/

namespace Litecast

/-- `validate_run_id` where a name is made of its result. -/
def checkRunId (runId : Str) : Except Exc Str :=
  match validateRunId runId with
  | none => .ok runId
  | some e => .error e

def baseAlias (runId : Str) : Except Exc Str := do
  return str "sc-" ++ (← checkRunId runId) ++ str "-base"

def desiredKey (runId : Str) : Except Exc Str := do
  return str "prime_rl:litecast:" ++ (← checkRunId runId) ++ str ":desired"

/-- `peer_service` of a run id not checked before. -/
def checkedPeerService (runId digest : Str) : Except Exc Str := do
  return peerService (← checkRunId runId) digest

theorem checkRunId_map_eq {runId key : Str} {name : Str → Str}
    (h : (checkRunId runId).map name = .ok key) :
    validateRunId runId = none ∧ key = name runId := by
  rw [checkRunId] at h
  cases hcheck : validateRunId runId with
  | none =>
    rw [hcheck] at h
    exact ⟨rfl, (Except.ok.inj h).symm⟩
  | some e =>
    rw [hcheck] at h
    cases h

theorem baseAlias_eq {runId key : Str} (h : baseAlias runId = .ok key) :
    validateRunId runId = none ∧ key = str "sc-" ++ runId ++ str "-base" :=
  @checkRunId_map_eq runId key (fun runId => str "sc-" ++ runId ++ str "-base") h

theorem desiredKey_eq {runId key : Str} (h : desiredKey runId = .ok key) :
    validateRunId runId = none ∧ key = str "prime_rl:litecast:" ++ runId ++ str ":desired" :=
  @checkRunId_map_eq runId key (fun runId => str "prime_rl:litecast:" ++ runId ++ str ":desired") h

theorem checkedPeerService_eq {runId digest key : Str}
    (h : checkedPeerService runId digest = .ok key) :
    validateRunId runId = none ∧ key = peerService runId digest :=
  @checkRunId_map_eq runId key (fun runId => peerService runId digest) h

/-! ## What the parts are free of -/

theorem isRunIdChar_of_valid {runId : Str} (h : validateRunId runId = none) :
    ∀ c ∈ runId, isRunIdChar c = true := by
  rw [validateRunId] at h
  split_ifs at h with hvalid
  exact List.all_eq_true.mp hvalid.2.2

theorem colon_not_mem_runId {runId : Str} (h : validateRunId runId = none) :
    CodePoint.ofChar ':' ∉ runId := by
  intro hmem
  exact absurd (isRunIdChar_of_valid h _ hmem) (by decide)

theorem not_digit_not_mem_decimal {c : CodePoint} (hc : JsonText.isDigit c = false) (n : Nat) :
    c ∉ decimal n := by
  intro hmem
  exact absurd (JsonText.isDigit_decimal n c hmem) (by rw [hc]; exact Bool.false_ne_true)

theorem decimal_injective : Function.Injective decimal :=
  Function.LeftInverse.injective JsonText.digitsValue_decimal

theorem length_bundleDigest {digest : Str} (h : isBundleDigest digest = true) :
    digest.length = 64 := by
  simp only [isBundleDigest, Bool.and_eq_true, decide_eq_true_eq] at h
  exact h.1

theorem hyphen_not_mem_bundleDigest {digest : Str} (h : isBundleDigest digest = true) :
    CodePoint.ofChar '-' ∉ digest := by
  intro hmem
  simp only [isBundleDigest, Bool.and_eq_true, List.all_eq_true] at h
  exact absurd (h.2 _ hmem) (by decide)

/-! ## Reading the names from their ends -/

/-- The digest is what follows the last hyphen, and the step what lies between
the last `s` before it and that hyphen. -/
theorem modelName_injective {p q : Publication} (h : p.modelName = q.modelName) :
    p.runId = q.runId ∧ p.step = q.step ∧ p.digest = q.digest := by
  simp only [Publication.modelName, List.append_assoc] at h
  have hhyphen : ∀ p : Publication,
      p.runId ++ (str "-s" ++ (decimal p.step ++ (str "-" ++ p.digest))) =
        (p.runId ++ str "-s" ++ decimal p.step) ++ CodePoint.ofChar '-' :: p.digest := by
    intro p
    simp only [List.append_assoc]
    rfl
  have hletter : ∀ p : Publication, p.runId ++ str "-s" ++ decimal p.step =
      (p.runId ++ str "-") ++ CodePoint.ofChar 's' :: decimal p.step := by
    intro p
    simp only [List.append_assoc]
    rfl
  have hnames := List.append_cancel_left h
  rw [hhyphen, hhyphen] at hnames
  obtain ⟨hfront, hdigest⟩ := Separator.last_injective
    (hyphen_not_mem_bundleDigest p.digest_valid) (hyphen_not_mem_bundleDigest q.digest_valid) hnames
  rw [hletter, hletter] at hfront
  obtain ⟨hrun, hstep⟩ := Separator.last_injective
    (not_digit_not_mem_decimal rfl p.step) (not_digit_not_mem_decimal rfl q.step) hfront
  exact ⟨List.append_cancel_right hrun, decimal_injective hstep, hdigest⟩

/-- An alias of a base model has the word `base` after its last hyphen. -/
theorem modelName_ne_baseAlias (p : Publication) (runId : Str) :
    baseAlias runId ≠ .ok p.modelName := by
  intro h
  have hname := (baseAlias_eq h).2
  have hbase : str "sc-" ++ runId ++ str "-base" =
      (str "sc-" ++ runId) ++ CodePoint.ofChar '-' :: str "base" := rfl
  have hmodel : p.modelName = (str "sc-" ++ p.runId ++ str "-s" ++ decimal p.step) ++
      CodePoint.ofChar '-' :: p.digest := by
    rw [Publication.modelName]
    simp only [List.append_assoc]
    rfl
  rw [hbase, hmodel] at hname
  obtain ⟨-, hdigest⟩ := Separator.last_injective
    (hyphen_not_mem_bundleDigest p.digest_valid) (by decide) hname
  have hlength := length_bundleDigest p.digest_valid
  rw [hdigest] at hlength
  cases hlength

theorem peerService_injective {r r' d d' : Str} (hr : validateRunId r = none)
    (hr' : validateRunId r' = none) (h : peerService r d = peerService r' d') :
    r = r' ∧ d = d' := by
  simp only [peerService, List.append_assoc] at h
  exact Separator.first_injective (colon_not_mem_runId hr) (colon_not_mem_runId hr')
    (List.append_cancel_left h)

/-- **The names of runs do not collide.** The name of a publication tells its
run, step and digest and is no alias of a base model; the key of a service tells
its run and digest, the key of a descriptor its run, and the two kinds differ. -/
theorem names_injective :
    (∀ p q : Publication, p.modelName = q.modelName →
      p.runId = q.runId ∧ p.step = q.step ∧ p.digest = q.digest) ∧
    (∀ (p : Publication) (runId : Str), baseAlias runId ≠ .ok p.modelName) ∧
    (∀ r r' d d' key : Str, checkedPeerService r d = .ok key → checkedPeerService r' d' = .ok key →
      r = r' ∧ d = d') ∧
    (∀ r r' key : Str, desiredKey r = .ok key → desiredKey r' = .ok key → r = r') ∧
    (∀ r r' d key : Str, checkedPeerService r d = .ok key → desiredKey r' ≠ .ok key) := by
  refine ⟨fun p q => modelName_injective, modelName_ne_baseAlias, ?_, ?_, ?_⟩
  · intro r r' d d' key h h'
    obtain ⟨hr, hkey⟩ := checkedPeerService_eq h
    obtain ⟨hr', hkey'⟩ := checkedPeerService_eq h'
    exact peerService_injective hr hr' (hkey.symm.trans hkey')
  · intro r r' key h h'
    have hkeys := (desiredKey_eq h).2.symm.trans (desiredKey_eq h').2
    exact List.append_cancel_left (List.append_cancel_right hkeys)
  · intro r r' d key h h'
    have hkeys := (checkedPeerService_eq h).2.symm.trans (desiredKey_eq h').2
    have hfirst : some (CodePoint.ofChar 'l') = some (CodePoint.ofChar 'p') :=
      congrArg List.head? hkeys
    exact absurd hfirst (by decide)

/-- A run named like the end of another one's publication. -/
def hyphenatedPublication : Publication where
  runId := str "run-s1-base"
  baseModel := .str (str "model")
  step := 2
  digest := List.replicate 64 (.ofChar '0')
  size := 17
  runId_valid := by decide
  size_valid := by decide
  digest_valid := by decide +kernel
  baseModel_given := by decide

theorem names_injective_hyphenated :
    hyphenatedPublication.modelName ≠ ({ hyphenatedPublication with step := 21 }).modelName ∧
      baseAlias (str "run-s1") ≠ .ok hyphenatedPublication.modelName ∧
      checkedPeerService (str "run-s1-base") [] = .ok (str "litecast:run-s1-base:") ∧
      desiredKey (str "run-s1-base") ≠ .ok (str "litecast:run-s1-base:") := by
  have hservice : checkedPeerService (str "run-s1-base") [] = .ok (str "litecast:run-s1-base:") := by
    decide +kernel
  refine ⟨fun h => ?_, names_injective.2.1 _ _, hservice, names_injective.2.2.2.2 _ _ _ _ hservice⟩
  exact absurd (names_injective.1 _ _ h).2.1 (by decide)

end Litecast
