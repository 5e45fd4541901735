import Litecast.DistributionUpdate

/-! What is left of a distribution file when a call on it raises. -/

namespace Litecast.Utils

open JsonText OrderedDict

theorem isText_writeInt (n : Int) : IsText (writeInt n) := by
  cases n with
  | ofNat n => exact isText_decimal n
  | negSucc n => exact .cons (by decide) (isText_decimal _)

theorem isText_lineText_iff {version checksum : Str} {numShards : Int} :
    IsText (lineText (version, checksum ++ str "|" ++ writeInt numShards)) ↔
      IsText version ∧ IsText checksum := by
  rw [lineText]
  constructor
  · intro h
    exact ⟨fun c hc => h c (by simp [hc]), fun c hc => h c (by simp [hc])⟩
  · rintro ⟨hversion, hchecksum⟩
    have hinfo := (hchecksum.append (isText_str "|")).append (isText_writeInt numShards)
    exact ((hversion.append (isText_str ": ")).append hinfo).append (isText_str "\n")

section
variable [Library]

/-- A rewrite that raises has touched no other path. -/
theorem rewriteLines_other (files : Files) (path : Str) (distribution : Lines) {other : Str}
    (h : other ≠ path) : (rewriteLines files path distribution).2 other = files other := by
  unfold rewriteLines
  split
  · exact Function.update_of_ne h _ _
  · exact Function.update_of_ne h _ _

/-- The lines go to another path first, so a call that raises leaves the file alone. -/
theorem removeDistributionVersions_error {files files' : Files} {path : Str} {versions : List Str}
    {e : Exc} (h : removeDistributionVersions files path versions = (.error e, files')) :
    files' path = files path := by
  have hother : path ≠ path ++ str ".tmp" := by
    intro heq
    have hlength := congrArg List.length heq
    rw [List.length_append] at hlength
    exact absurd hlength (by simp [str])
  unfold removeDistributionVersions at h
  split_ifs at h
  · cases h
  split at h
  · obtain ⟨-, rfl⟩ := Prod.mk.inj h
    rfl
  · next distribution hread =>
    have hkept := rewriteLines_other files (path ++ str ".tmp") (versions.foldl erase distribution) hother
    simp only at h
    split at h
    · next e' left hleft =>
      obtain ⟨-, rfl⟩ := Prod.mk.inj h
      rw [hleft] at hkept
      exact hkept
    · cases h

/-- What an update asks of the file and its arguments. With a number in every
name, the new line can be encoded, or is dropped at once, or the file already
holds the lines before it; else there is something to drop, or nothing to lose. -/
def Harmless (file : Option Bytes) (version checksum : Str) (maxVersions numShards : Int) : Prop :=
  ∀ old, parseDistributionFile file = .ok old →
    let updated := withLine old version checksum numShards
    let kept := highest lineKey maxVersions.toNat updated
    (AllNumbered updated → (IsText version ∧ IsText checksum) ∨ version ∉ kept.keys ∨
      file = encodeUtf8 ((kept.entries.takeWhile fun line => line.1 ≠ version).flatMap lineText)) ∧
    (¬ AllNumbered updated → maxVersions < updated.length ∨ file = some [])

section
variable {files : Files} {path version checksum : Str} {maxVersions numShards : Int} {old : Lines}

/-- Only the new line can be one that is not text. -/
theorem isText_of_mem_highest (hread : parseDistributionFile (files path) = .ok old)
    {line : Str × Str}
    (hline : line ∈ (highest lineKey maxVersions.toNat (withLine old version checksum numShards)).entries)
    (h : line.1 = version → IsText version ∧ IsText checksum) : IsText (lineText line) := by
  have hupdated : line ∈ (withLine old version checksum numShards).entries :=
    (List.perm_insertionSort _ _).subset (List.mem_of_mem_drop hline)
  rcases mem_entries_insert hupdated with rfl | hmem
  · exact isText_lineText_iff.mpr (h rfl)
  · exact (oneLine_of_parse hread line hmem).isText_lineText

theorem update_numbered_kept_iff (hread : parseDistributionFile (files path) = .ok old)
    (hnumbered : AllNumbered (withLine old version checksum numShards)) :
    (∀ e files', updateDistributionFile files path version checksum maxVersions numShards =
        (.error e, files') → files' path = files path) ↔
      (IsText version ∧ IsText checksum) ∨
        version ∉ (highest lineKey maxVersions.toNat (withLine old version checksum numShards)).keys ∨
        files path = encodeUtf8
          (((highest lineKey maxVersions.toNat (withLine old version checksum numShards)).entries.takeWhile
            fun line => line.1 ≠ version).flatMap lineText) := by
  rw [updateDistributionFile_numbered hread hnumbered]
  have htext := @isText_of_mem_highest _ files path version checksum maxVersions numShards old hread
  have hnew : ∀ line ∈ (highest lineKey maxVersions.toNat
      (withLine old version checksum numShards)).entries, line.1 = version →
      line.2 = checksum ++ str "|" ++ writeInt numShards := by
    rintro ⟨name, info⟩ hline rfl
    have hupdated := get?_eq_some_iff.mpr
      ((List.perm_insertionSort _ _).subset (List.mem_of_mem_drop hline))
    rw [withLine, get?_insert, if_pos rfl] at hupdated
    exact (Option.some.inj hupdated).symm
  simp only
  generalize highest lineKey maxVersions.toNat (withLine old version checksum numShards) = kept
    at htext hnew ⊢
  by_cases hfine : (IsText version ∧ IsText checksum) ∨ version ∉ kept.keys
  · -- everything is written
    obtain ⟨data, hdata⟩ := encodeUtf8_lines fun line hline => htext hline fun heq =>
      hfine.resolve_right fun hnot => hnot (heq ▸ List.mem_map_of_mem hline)
    refine iff_of_true ?_ (hfine.imp_right Or.inl)
    intro e files' h
    rw [writeLines_ok hdata] at h
    cases h
  · rw [not_or, not_not] at hfine
    obtain ⟨hnot, hmem⟩ := hfine
    -- the new line stops the writing
    obtain ⟨line, back, hback⟩ : ∃ line back,
        (kept.entries.dropWhile fun line => line.1 ≠ version) = line :: back := by
      obtain ⟨line, hline, heq⟩ := List.mem_map.mp hmem
      refine List.exists_cons_of_ne_nil fun hnil => ?_
      have := List.dropWhile_eq_nil_iff.mp hnil line hline
      simp [heq] at this
    have hsplit := List.takeWhile_append_dropWhile (p := fun line : Str × Str => line.1 ≠ version)
      (l := kept.entries)
    rw [hback] at hsplit
    have hversion : line.1 = version := by
      have := List.head?_dropWhile_not (fun line : Str × Str => decide (line.1 ≠ version)) kept.entries
      rw [hback] at this
      simpa using this
    have hbad : encodeUtf8 (lineText line) = none := by
      rw [Option.eq_none_iff_forall_ne_some]
      intro data hdata
      have hline : IsText (lineText line) := isText_of_encodeUtf8 hdata
      rw [← Prod.mk.eta (p := line), hversion,
        hnew line (hsplit ▸ List.mem_append_right _ List.mem_cons_self) hversion,
        isText_lineText_iff] at hline
      exact hnot hline
    have hbefore : ∀ line ∈ kept.entries.takeWhile fun line => line.1 ≠ version,
        IsText (lineText line) := by
      intro line hline
      refine htext ((List.takeWhile_sublist _).subset hline) fun heq => ?_
      have := List.mem_takeWhile_imp hline
      simp [heq] at this
    obtain ⟨data, hdata⟩ := encodeUtf8_lines hbefore
    have hwritten := writeLines_error hdata hbad back
    rw [hsplit] at hwritten
    rw [hwritten, hdata]
    constructor
    · intro h
      refine Or.inr (Or.inr ?_)
      rw [← h _ _ rfl, Function.update_self]
    · intro h e files' heq
      obtain ⟨-, rfl⟩ := Prod.mk.inj heq
      rw [Function.update_self]
      exact ((h.resolve_left hnot).resolve_left (not_not.mpr hmem)).symm

theorem update_unnumbered_kept_iff (hread : parseDistributionFile (files path) = .ok old)
    (hnumbered : ¬ AllNumbered (withLine old version checksum numShards)) :
    (∀ e files', updateDistributionFile files path version checksum maxVersions numShards =
        (.error e, files') → files' path = files path) ↔
      maxVersions < (withLine old version checksum numShards).length ∨ files path = some [] := by
  rw [updateDistributionFile_unnumbered hread hnumbered]
  constructor
  · intro h
    have hkept := h _ _ rfl
    split_ifs at hkept with hmany
    · exact Or.inl hmany
    · rw [Function.update_self] at hkept
      exact Or.inr hkept.symm
  · intro h e files' heq
    obtain ⟨-, rfl⟩ := Prod.mk.inj heq
    split_ifs with hmany
    · rfl
    · rw [Function.update_self, h.resolve_left hmany]

end

/-- **A call that raises keeps the content** in exactly these cases, and a
removal in any case. -/
theorem content_kept_iff (files : Files) (path version checksum : Str) (maxVersions numShards : Int)
    (versions : List Str) :
    ((∀ e files', updateDistributionFile files path version checksum maxVersions numShards =
          (.error e, files') → files' path = files path) ∧
        ∀ e files', removeDistributionVersions files path versions = (.error e, files') →
          files' path = files path) ↔
      Harmless (files path) version checksum maxVersions numShards := by
  rw [and_iff_left fun e files' h => removeDistributionVersions_error h, Harmless]
  cases hread : parseDistributionFile (files path) with
  | error e =>
    refine iff_of_true ?_ (by simp)
    intro e' files' h
    simp only [updateDistributionFile, hread] at h
    obtain ⟨-, rfl⟩ := Prod.mk.inj h
    rfl
  | ok old =>
    simp only [Except.ok.injEq, forall_eq']
    by_cases hnumbered : AllNumbered (withLine old version checksum numShards)
    · rw [update_numbered_kept_iff hread hnumbered]
      simp [hnumbered]
    · rw [update_unnumbered_kept_iff hread hnumbered]
      simp [hnumbered]

end

/-- Below the limit a name without a number is noticed once the file is empty. -/
theorem unnumbered_name_empties_file :
    letI := asciiLibrary
    let files : Files := fun _ => encodeUtf8 (str "vnext: c|1\n")
    ¬ ∀ e files', updateDistributionFile files (str "distribution.txt") (str "v2") (str "d") 100000 1 =
      (.error e, files') → files' (str "distribution.txt") = files (str "distribution.txt") := by
  let _ := asciiLibrary
  intro files h
  have hread : parseDistributionFile (files (str "distribution.txt")) =
      .ok (readLines (universalNewlines (str "vnext: c|1\n"))) := parse_encoded (by decide)
  have hnot : ¬ AllNumbered (withLine (readLines (universalNewlines (str "vnext: c|1\n")))
      (str "v2") (str "d") 1) := by
    intro hall
    exact absurd (hall (str "vnext") (by decide +kernel)) (by decide +kernel)
  exact absurd ((update_unnumbered_kept_iff hread hnot).mp h) (by decide +kernel)

end Litecast.Utils
