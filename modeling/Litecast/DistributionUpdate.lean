import Litecast.DistributionFile
import Litecast.Download

/-! What `update_distribution_file` leaves on disk, for whoever reads it next. -/

namespace Litecast

open JsonText OrderedDict

theorem encodeUtf8_append {s t : Str} {a b : Bytes} (hs : encodeUtf8 s = some a)
    (ht : encodeUtf8 t = some b) : encodeUtf8 (s ++ t) = some (a ++ b) := by
  obtain ⟨front, hfront, rfl⟩ := Option.map_eq_some_iff.mp hs
  obtain ⟨back, hback, rfl⟩ := Option.map_eq_some_iff.mp ht
  rw [mapM_toChar] at hfront hback
  rw [encodeUtf8, mapM_toChar.mpr (by rw [hfront, hback, ← List.map_append]), Option.map_some,
    List.flatMap_append]

namespace Utils

/-! ## Writing line by line -/

theorem writeLines_append {front : List (Str × Str)} {data : Bytes}
    (h : encodeUtf8 (front.flatMap lineText) = some data) (back : List (Str × Str)) :
    writeLines (front ++ back) = ((writeLines back).1, data ++ (writeLines back).2) := by
  induction front generalizing data with
  | nil =>
    obtain rfl : [] = data := Option.some.inj h
    rfl
  | cons line rest ih =>
    have htext : IsText ((line :: rest).flatMap lineText) := isText_of_encodeUtf8 h
    rw [List.flatMap_cons] at htext h
    obtain ⟨first, hfirst⟩ := encodeUtf8_of_isText fun c hc => htext c (List.mem_append_left _ hc)
    obtain ⟨others, hothers⟩ := encodeUtf8_of_isText fun c hc => htext c (List.mem_append_right _ hc)
    rw [encodeUtf8_append hfirst hothers] at h
    obtain rfl := Option.some.inj h
    simp only [List.cons_append, writeLines, hfirst, ih hothers, List.append_assoc]

theorem writeLines_ok {lines : List (Str × Str)} {data : Bytes}
    (h : encodeUtf8 (lines.flatMap lineText) = some data) : writeLines lines = (.ok (), data) := by
  have happend := writeLines_append h []
  rwa [List.append_nil, writeLines, List.append_nil] at happend

/-- What was written stays when a line cannot be encoded. -/
theorem writeLines_error {front : List (Str × Str)} {line : Str × Str} {data : Bytes}
    (h : encodeUtf8 (front.flatMap lineText) = some data) (hline : encodeUtf8 (lineText line) = none)
    (back : List (Str × Str)) :
    writeLines (front ++ line :: back) = (.error ⟨.unicodeEncodeError, []⟩, data) := by
  rw [writeLines_append h, writeLines, hline, List.append_nil]

theorem encodeUtf8_lines {lines : List (Str × Str)} (h : ∀ line ∈ lines, IsText (lineText line)) :
    ∃ data, encodeUtf8 (lines.flatMap lineText) = some data := by
  apply encodeUtf8_of_isText
  intro c hc
  obtain ⟨line, hline, hc⟩ := List.mem_flatMap.mp hc
  exact h line hline c hc

section
variable [Library]

/-! ## Reading it back -/

theorem oneLine_of_parse {file : Option Bytes} {lines : Lines}
    (h : parseDistributionFile file = .ok lines) : ∀ line ∈ lines.entries, OneLine line := by
  unfold parseDistributionFile at h
  split at h
  · obtain rfl := Except.ok.inj h
    exact fun _ hline => absurd hline List.not_mem_nil
  · split at h
    · cases h
    · next text htext =>
      obtain rfl := Except.ok.inj h
      have hencoded := isText_of_encodeUtf8 (decodeUtf8_eq_some_iff.mp htext)
      refine oneLine_of_readLines (fun c hc => ?_) fun hc => (mem_universalNewlines hc).1 rfl
      rcases (mem_universalNewlines hc).2 with rfl | hc
      · decide
      · exact hencoded c hc

theorem parse_encoded {text : Str} (h : IsText text) :
    parseDistributionFile (encodeUtf8 text) = .ok (readLines (universalNewlines text)) := by
  obtain ⟨data, hdata⟩ := encodeUtf8_of_isText h
  simp only [hdata, parseDistributionFile, decodeUtf8_eq_some_iff.mpr hdata]

/-- Both readers give back the lines that were written. -/
theorem read_written {lines : Lines} (h : ∀ line ∈ lines.entries, OneLine line) {data : Bytes}
    (hdata : encodeUtf8 (lines.entries.flatMap lineText) = some data) :
    parseDistributionFile (some data) = .ok lines ∧ listAvailableVersions (some data) = lines := by
  have hdecode := decodeUtf8_eq_some_iff.mpr hdata
  have hreturn : CodePoint.ofChar '\r' ∉ lines.entries.flatMap lineText := by
    intro hc
    obtain ⟨line, hline, hc⟩ := List.mem_flatMap.mp hc
    rcases List.mem_append.mp hc with hc | hc
    · exact ((h line hline).unbroken_text _ hc).2 rfl
    · exact absurd (List.mem_singleton.mp hc) (by decide)
  have hread : readLines (lines.entries.flatMap lineText) = lines :=
    ext_entries (readLines_written h lines.nodup)
  constructor
  · simp only [parseDistributionFile, hdecode, universalNewlines_of_not_mem hreturn, hread]
  · simp only [listAvailableVersions, Option.bind_some, hdecode, parseListing_eq_readLines, hread]

/-! ## Cutting down -/

/-- `kept` is what is left of `lines` with the `n` highest numbers, and `removed`
are the other names. -/
structure CutDown (n : Nat) (lines : Lines) (removed : List Str) (kept : Lines) : Prop where
  names : (removed ++ kept.keys).Perm lines.keys
  increasing : (removed ++ kept.keys).Pairwise fun a b => lineKey a ≤ lineKey b
  strictly : (∀ a ∈ lines.keys, ∀ b ∈ lines.keys, lineKey a = lineKey b → a = b) →
    (removed ++ kept.keys).Pairwise fun a b => lineKey a < lineKey b
  length : kept.length = min n lines.length
  info : ∀ name ∈ kept.keys, kept.get? name = lines.get? name

theorem cutDown_highest (n : Nat) (lines : Lines) :
    CutDown n lines (lowest lineKey n lines) (highest lineKey n lines) where
  names := by
    rw [lowest_append_keys_highest]
    exact keys_sortBy_perm lineKey lines
  increasing := by
    rw [lowest_append_keys_highest]
    exact keys_sortBy_pairwise lineKey lines
  strictly := by
    intro hdistinct
    rw [lowest_append_keys_highest]
    have hperm := keys_sortBy_perm lineKey lines
    have hnodup : (lines.sortBy lineKey).keys.Nodup := hperm.nodup_iff.mpr lines.nodup
    refine List.Pairwise.imp_of_mem ?_ ((keys_sortBy_pairwise lineKey lines).and hnodup)
    rintro a b ha hb ⟨hle, hne⟩
    exact lt_of_le_of_ne hle fun heq =>
      hne (hdistinct a (hperm.subset ha) b (hperm.subset hb) heq)
  length := length_highest lineKey n lines
  info := fun name hname => get?_highest lineKey hname

/-- The highest of all is among those that are left. -/
theorem CutDown.mem_of_highest {n : Nat} {lines kept : Lines} {removed : List Str}
    (h : CutDown n lines removed kept) (hn : 1 ≤ n) {name : Str} (hname : name ∈ lines.keys)
    (hhighest : ∀ other ∈ lines.keys, other ≠ name → lineKey other < lineKey name) :
    name ∈ kept.keys := by
  by_contra hnot
  have hremoved : name ∈ removed := by
    rcases List.mem_append.mp (h.names.symm.subset hname) with hmem | hmem
    · exact hmem
    · exact absurd hmem hnot
  have hpos : 0 < kept.keys.length := by
    have hlines : 0 < lines.keys.length := List.length_pos_of_mem hname
    rw [keys, List.length_map] at hlines ⊢
    have hlength := h.length
    rw [OrderedDict.length, OrderedDict.length] at hlength
    omega
  obtain ⟨other, hother⟩ := List.exists_mem_of_length_pos hpos
  have hle := (List.pairwise_append.mp h.increasing).2.2 name hremoved other hother
  have hlt := hhighest other (h.names.subset (List.mem_append_right _ hother)) fun heq =>
    hnot (heq ▸ hother)
  exact absurd hle (not_le.mpr hlt)

/-! ## Updating -/

/-- Every name has the number `int` reads in it. -/
def AllNumbered (lines : Lines) : Prop := ∀ name ∈ lines.keys, (lineKey? name).isSome = true

theorem sortedByNumber_ok {lines : Lines} (h : AllNumbered lines) :
    sortedByNumber lines = .ok (lines.sortBy lineKey) := if_pos (List.all_eq_true.mpr h)

theorem sortedByNumber_error {lines : Lines} (h : ¬ AllNumbered lines) :
    sortedByNumber lines = valueError (str "invalid literal for int() with base 10") :=
  if_neg fun hall => h (List.all_eq_true.mp hall)

theorem AllNumbered.foldl_erase {lines : Lines} (h : AllNumbered lines) (gone : List Str) :
    AllNumbered (gone.foldl erase lines) := by
  intro name hname
  refine h name (List.Sublist.subset ?_ hname)
  rw [keys, keys, entries_foldl_erase]
  exact List.filter_sublist.map Prod.fst

section
variable {files : Files} {path version checksum : Str} {maxVersions numShards : Int} {old : Lines}

/-- The dictionary with the new line in it. -/
def withLine (old : Lines) (version checksum : Str) (numShards : Int) : Lines :=
  old.insert version (checksum ++ str "|" ++ writeInt numShards)

theorem updateDistributionFile_numbered (hread : parseDistributionFile (files path) = .ok old)
    (h : AllNumbered (withLine old version checksum numShards)) :
    updateDistributionFile files path version checksum maxVersions numShards =
      let updated := withLine old version checksum numShards
      let written := writeLines (highest lineKey maxVersions.toNat updated).entries
      (written.1.map fun () => lowest lineKey maxVersions.toNat updated,
        Function.update files path (some written.2)) := by
  simp only [updateDistributionFile, hread]
  rw [withLine] at h ⊢
  generalize old.insert version (checksum ++ str "|" ++ writeInt numShards) = updated at h ⊢
  have hlength : (updated.sortBy lineKey).keys.length = updated.length := by
    rw [(keys_sortBy_perm lineKey updated).length_eq, keys, List.length_map, length]
  have hremoved : (if maxVersions < updated.length then do
        let sortedVersions ← sortedByNumber updated
        return sortedVersions.keys.take (updated.length - maxVersions).toNat
      else .ok []) = (.ok (lowest lineKey maxVersions.toNat updated) : Except Exc (List Str)) := by
    rw [sortedByNumber_ok h, lowest]
    split_ifs with hmany
    · refine congrArg Except.ok ?_
      rcases lt_or_ge maxVersions 0 with hneg | hpos
      · rw [List.take_of_length_le (by omega), List.take_of_length_le (by omega)]
      · congr 1
        omega
    · have hnone : updated.length - maxVersions.toNat = 0 := by omega
      rw [hnone, List.take_zero]
  simp only [hremoved, rewriteLines, sortedByNumber_ok (h.foldl_erase _), sortBy_foldl_erase_lowest]

theorem updateDistributionFile_unnumbered (hread : parseDistributionFile (files path) = .ok old)
    (h : ¬ AllNumbered (withLine old version checksum numShards)) :
    updateDistributionFile files path version checksum maxVersions numShards =
      (valueError (str "invalid literal for int() with base 10"),
        if maxVersions < (withLine old version checksum numShards).length then files
        else Function.update files path (some [])) := by
  rw [withLine] at h ⊢
  simp only [updateDistributionFile, hread]
  by_cases hmany : maxVersions < (old.insert version (checksum ++ str "|" ++ writeInt numShards)).length
  · simp only [if_pos hmany, sortedByNumber_error h]
    rfl
  · simp only [if_neg hmany, rewriteLines, List.foldl_nil, sortedByNumber_error h]
    rfl

end

/-! ## What readers find -/

/-- The version prefix and digits. -/
def IsVersion (name : Str) : Prop :=
  ∃ digits, digits ≠ [] ∧ (∀ c ∈ digits, isDigit c = true) ∧ name = versionPrefix ++ digits

/-- A text that can stand in a line: encodable, unbroken, and with nothing to
strip before it. -/
structure Inline (text : Str) : Prop where
  isText : IsText text
  unbroken : ∀ c ∈ text, c ≠ .ofChar '\n' ∧ c ≠ .ofChar '\r'
  front : ∀ c, text.head? = some c → isSpace c = false

/-- Versions are sorted by the number their digits write. -/
theorem lineKey?_version {digits : Str} (hne : digits ≠ [])
    (hdigits : ∀ c ∈ digits, isDigit c = true) :
    lineKey? (versionPrefix ++ digits) = some (digitsValue digits : Int) := by
  have hprefix : versionPrefix.isPrefixOf (versionPrefix ++ digits) = true :=
    List.isPrefixOf_iff_prefix.mpr (List.prefix_append _ _)
  rw [lineKey?, if_pos hprefix, List.drop_left, intOf?_digits hne hdigits]

omit [Library] in
theorem isDigit_bounds {c : CodePoint} (h : isDigit c = true) : 48 ≤ c.val ∧ c.val ≤ 57 := by
  simpa [isDigit] using h

theorem not_isSpace_digit {c : CodePoint} (h : isDigit c = true) : isSpace c = false := by
  have hbounds := isDigit_bounds h
  apply not_isSpace
  · simp only [CodePoint.asciiSpace, Bool.or_eq_false_iff, Bool.and_eq_false_iff,
      decide_eq_false_iff_not]
    omega
  · omega
  · omega

omit [Library] in
theorem not_break_digit {c : CodePoint} (h : isDigit c = true) :
    c ≠ .ofChar ':' ∧ c ≠ .ofChar '\n' ∧ c ≠ .ofChar '\r' ∧ c.isSurrogate = false := by
  have hbounds := isDigit_bounds h
  refine ⟨?_, ?_, ?_, ?_⟩
  · rintro rfl
    exact absurd hbounds (by decide)
  · rintro rfl
    exact absurd hbounds (by decide)
  · rintro rfl
    exact absurd hbounds (by decide)
  · simp only [CodePoint.isSurrogate, Bool.and_eq_false_iff, decide_eq_false_iff_not]
    omega

/-- Digits at the end leave nothing to strip there. -/
theorem rdropWhile_digits {digits : Str} (h : ∀ c ∈ digits, isDigit c = true) :
    digits.rdropWhile isSpace = digits := by
  rw [List.rdropWhile_eq_self_iff]
  intro hne hspace
  rw [not_isSpace_digit (h _ (List.getLast_mem hne))] at hspace
  cases hspace

theorem strip_inline {front : Str} (hfront : ∀ c, front.head? = some c → isSpace c = false)
    {c : CodePoint} (hc : isSpace c = false) {digits : Str} (h : ∀ c ∈ digits, isDigit c = true) :
    strip (front ++ c :: digits) = front ++ c :: digits := by
  have hhead : (front ++ c :: digits).dropWhile isSpace = front ++ c :: digits := by
    cases front with
    | nil => exact List.dropWhile_cons_of_neg (by simp [hc])
    | cons first rest => exact List.dropWhile_cons_of_neg (by simp [hfront first rfl])
  rw [strip_eq_trim, Trim.trim, hhead, Trim.rdropWhile_middle (by simp [hc]), rdropWhile_digits h]

/-- The line of a version and its checksum. -/
theorem oneLine_version {version checksum : Str} (hversion : IsVersion version)
    (hchecksum : Inline checksum) (numShards : Nat) :
    OneLine (version, lineInfo checksum numShards) := by
  obtain ⟨digits, -, hdigits, rfl⟩ := hversion
  have hbar : isSpace (.ofChar '|') = false := not_isSpace (by decide) (by decide) (by decide)
  have hv : isSpace (.ofChar 'v') = false := not_isSpace (by decide) (by decide) (by decide)
  have hinfo : lineInfo checksum numShards = checksum ++ .ofChar '|' :: decimal numShards := by
    rw [lineInfo, List.append_assoc]
    rfl
  have hname : ∀ c ∈ versionPrefix ++ digits,
      c ≠ .ofChar ':' ∧ c ≠ .ofChar '\n' ∧ c ≠ .ofChar '\r' ∧ c.isSurrogate = false := by
    intro c hc
    rcases List.mem_append.mp hc with hc | hc
    · rw [List.mem_singleton.mp hc]
      decide
    · exact not_break_digit (hdigits c hc)
  have hline : ∀ c ∈ lineInfo checksum numShards,
      c ≠ .ofChar '\n' ∧ c ≠ .ofChar '\r' ∧ c.isSurrogate = false := by
    intro c hc
    rw [hinfo, List.mem_append, List.mem_cons] at hc
    rcases hc with hc | rfl | hc
    · obtain ⟨hnewline, hreturn⟩ := hchecksum.unbroken c hc
      exact ⟨hnewline, hreturn, hchecksum.isText c hc⟩
    · decide
    · exact (not_break_digit (isDigit_decimal numShards c hc)).2
  refine ⟨?_, fun hc => (hname _ hc).1 rfl, ?_, fun c hc => ?_, fun c hc => ?_⟩
  · exact @strip_inline _ [] (by simp) _ hv _ hdigits
  · rw [hinfo]
    exact strip_inline hchecksum.front hbar (isDigit_decimal numShards)
  · rcases List.mem_append.mp hc with hc | hc
    · exact ⟨(hname c hc).2.1, (hname c hc).2.2.1⟩
    · exact ⟨(hline c hc).1, (hline c hc).2.1⟩
  · rcases List.mem_append.mp hc with hc | hc
    · exact (hname c hc).2.2.2
    · exact (hline c hc).2.2

/-- **An update is a bounded update of the dictionary.** Both readers of the
new file find the old lines and the new one, cut down to the highest numbers, and
the names that went are returned. -/
theorem update_reads_cutDown {files : Files} {path : Str} {old : Lines}
    (hread : parseDistributionFile (files path) = .ok old)
    (hold : ∀ name ∈ old.keys, IsVersion name) {version checksum : Str}
    (hversion : IsVersion version) (hchecksum : Inline checksum) (maxVersions numShards : Nat) :
    let updated := old.insert version (lineInfo checksum numShards)
    ∃ (removed : List Str) (kept : Lines) (data : Bytes),
      updateDistributionFile files path version checksum maxVersions numShards =
        (.ok removed, Function.update files path (some data)) ∧
      encodeUtf8 (kept.entries.flatMap lineText) = some data ∧
      parseDistributionFile (some data) = .ok kept ∧
      listAvailableVersions (some data) = kept ∧
      CutDown maxVersions updated removed kept ∧
      (1 ≤ maxVersions → (∀ name ∈ old.keys, name = version ∨ lineKey name < lineKey version) →
        version ∈ kept.keys) := by
  intro updated
  have hline := oneLine_version hversion hchecksum numShards
  have hwith : withLine old version checksum numShards = updated := rfl
  have hkeys : ∀ name ∈ updated.keys, name = version ∨ name ∈ old.keys := by
    intro name hname
    obtain ⟨entry, hentry, rfl⟩ := List.mem_map.mp hname
    rcases mem_entries_insert hentry with rfl | hentry
    · exact Or.inl rfl
    · exact Or.inr (List.mem_map_of_mem hentry)
  have hnumbered : AllNumbered updated := by
    intro name hname
    obtain ⟨digits, hne, hdigits, rfl⟩ : IsVersion name :=
      (hkeys name hname).elim (fun heq => heq ▸ hversion) (hold name)
    rw [lineKey?_version hne hdigits]
    rfl
  have hlines : ∀ line ∈ (highest lineKey maxVersions updated).entries, OneLine line := by
    intro line hmem
    have hupdated : line ∈ updated.entries :=
      (List.perm_insertionSort _ _).subset (List.mem_of_mem_drop hmem)
    rcases mem_entries_insert hupdated with rfl | hmem
    · exact hline
    · exact oneLine_of_parse hread line hmem
  obtain ⟨data, hdata⟩ := encodeUtf8_lines fun line hmem => (hlines line hmem).isText_lineText
  obtain ⟨hparse, hlist⟩ := read_written hlines hdata
  refine ⟨_, _, data, ?_, hdata, hparse, hlist, cutDown_highest maxVersions updated, ?_⟩
  · rw [updateDistributionFile_numbered hread (hwith ▸ hnumbered), hwith]
    simp only [Int.toNat_natCast, writeLines_ok hdata]
    rfl
  · intro hpos hhighest
    exact (cutDown_highest maxVersions updated).mem_of_highest hpos
      (mem_keys_iff.mpr ⟨_, (get?_insert ..).trans (if_pos rfl)⟩) fun name hname hne =>
        (hhighest name ((hkeys name hname).resolve_left hne)).resolve_left hne

end

/-- A file with Windows line ends and two versions out of order, and a third one. -/
def twoVersionFile : Str := str "v10:b|1\r\nv9: a|1\r\n"

theorem update_reads_cutDown_three :
    letI := asciiLibrary
    let files : Files := fun _ => encodeUtf8 twoVersionFile
    ∃ (removed : List Str) (kept : Lines) (data : Bytes),
      updateDistributionFile files (str "distribution.txt") (str "v11") (str "c") 2 1 =
        (.ok removed, Function.update files (str "distribution.txt") (some data)) ∧
      parseDistributionFile (some data) = .ok kept ∧ str "v11" ∈ kept.keys := by
  let _ := asciiLibrary
  intro files
  have hkeys : (readLines (universalNewlines twoVersionFile)).keys = [str "v10", str "v9"] := by
    decide +kernel
  have hversion (digits : Str) (hne : digits ≠ []) (hdigits : ∀ c ∈ digits, isDigit c = true) :
      IsVersion (versionPrefix ++ digits) := ⟨digits, hne, hdigits, rfl⟩
  have hold : ∀ name ∈ (readLines (universalNewlines twoVersionFile)).keys, IsVersion name := by
    rw [hkeys]
    intro name hname
    rcases List.mem_cons.mp hname with rfl | hname
    · exact hversion (str "10") (by decide) (by decide)
    · rw [List.mem_singleton.mp hname]
      exact hversion (str "9") (by decide) (by decide)
  have hchecksum : Inline (str "c") := ⟨by decide, by decide, by decide⟩
  have hread : parseDistributionFile (files (str "distribution.txt")) = .ok _ :=
    parse_encoded (by decide)
  obtain ⟨removed, kept, data, hupdate, -, hparse, -, -, hkept⟩ :=
    update_reads_cutDown hread hold (hversion (str "11") (by decide) (by decide)) hchecksum 2 1
  refine ⟨removed, kept, data, hupdate, hparse, hkept (by decide) ?_⟩
  rw [hkeys]
  decide +kernel

end Utils

end Litecast
