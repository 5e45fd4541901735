import Litecast.JsonRoundTrip
import Litecast.Lib.Highest
import Litecast.Lib.Trim
import Litecast.Listing

/-! `utils.py`: the distribution file as the bytes on a disk. -/

namespace Litecast

open JsonText

/-- What the paths of a host lead to. -/
abbrev Files := Str → Option Bytes

namespace Utils

/-! ## Reading -/

/-- What `open(path, "r")` makes of the ends of lines. -/
def universalNewlines : Str → Str
  | [] => []
  | [c] => [if c = .ofChar '\r' then .ofChar '\n' else c]
  | c :: d :: rest =>
    if c = .ofChar '\r' then
      if d = .ofChar '\n' then .ofChar '\n' :: universalNewlines rest
      else .ofChar '\n' :: universalNewlines (d :: rest)
    else c :: universalNewlines (d :: rest)

/-- `f"{v}: {info}\n"` -/
def lineText (line : Str × Str) : Str := line.1 ++ str ": " ++ line.2 ++ [.ofChar '\n']

/-- The lines written one after the other, up to one that cannot be encoded. -/
def writeLines : List (Str × Str) → Except Exc Unit × Bytes
  | [] => (.ok (), [])
  | line :: rest =>
    match encodeUtf8 (lineText line) with
    | none => (.error ⟨.unicodeEncodeError, []⟩, [])
    | some data =>
      let (result, more) := writeLines rest
      (result, data ++ more)

section
variable [Library]

/-- `for line in f`; the end of a line is stripped with the rest. -/
def readLines (text : Str) : Lines := (text.splitOn (.ofChar '\n')).foldl addLine .empty

def parseDistributionFile (file : Option Bytes) : Except Exc Lines :=
  match file with
  | none => .ok .empty
  | some data =>
    match decodeUtf8 data with
    -- `UnicodeDecodeError` is a `ValueError`
    | none => valueError []
    | some text => .ok (readLines (universalNewlines text))

/-! ## Writing -/

/-- `sorted(distribution.items(), key=...)`, which finds every key before it
compares two. -/
def sortedByNumber (distribution : Lines) : Except Exc Lines :=
  if distribution.keys.all fun name => (lineKey? name).isSome then
    .ok (distribution.sortBy lineKey)
  else valueError (str "invalid literal for int() with base 10")

/-- `with open(path, "w") as f:` and the sorted lines. The file is open, and
empty, before anything is sorted. -/
def rewriteLines (files : Files) (path : Str) (distribution : Lines) : Except Exc Unit × Files :=
  match sortedByNumber distribution with
  | .error e => (.error e, Function.update files path (some []))
  | .ok sorted =>
    let (result, data) := writeLines sorted.entries
    (result, Function.update files path (some data))

def updateDistributionFile (files : Files) (path version checksum : Str)
    (maxVersions numShards : Int) : Except Exc (List Str) × Files :=
  match parseDistributionFile (files path) with
  | .error e => (.error e, files)
  | .ok distribution =>
    let distribution := distribution.insert version (checksum ++ str "|" ++ writeInt numShards)
    let versionsToRemove : Except Exc (List Str) :=
      if maxVersions < distribution.length then do
        let sortedVersions ← sortedByNumber distribution
        return sortedVersions.keys.take (distribution.length - maxVersions).toNat
      else .ok []
    match versionsToRemove with
    | .error e => (.error e, files)
    | .ok versionsToRemove =>
      let (result, files) := rewriteLines files path
        (versionsToRemove.foldl OrderedDict.erase distribution)
      (result.map fun () => versionsToRemove, files)

/-- The lines go to a temporary file that takes the place of the old one. -/
def removeDistributionVersions (files : Files) (path : Str) (versions : List Str) :
    Except Exc Unit × Files :=
  if versions = [] then (.ok (), files)
  else
    match parseDistributionFile (files path) with
    | .error e => (.error e, files)
    | .ok distribution =>
      let temporary := path ++ str ".tmp"
      match rewriteLines files temporary (versions.foldl OrderedDict.erase distribution) with
      | (.error e, files) => (.error e, files)
      | (.ok (), files) =>
        (.ok (), Function.update (Function.update files path (files temporary)) temporary none)

end

/-! ## Lines -/

theorem mem_splitOn {c d : CodePoint} {line text : Str} (hline : line ∈ text.splitOn d)
    (hc : c ∈ line) : c ∈ text ∧ c ≠ d := by
  induction text generalizing line with
  | nil =>
    rw [List.splitOn_nil, List.mem_singleton] at hline
    exact absurd hc (by simp [hline])
  | cons first rest ih =>
    rw [List.splitOn_cons_eq_if_modifyHead] at hline
    split_ifs at hline with hfirst
    · rcases List.mem_cons.mp hline with rfl | hline
      · cases hc
      · exact (ih hline hc).imp_left (List.mem_cons_of_mem _)
    · cases hsplit : rest.splitOn d with
      | nil => exact absurd hsplit (List.splitOn_ne_nil d rest)
      | cons head tail =>
        rw [hsplit] at hline ih
        rcases List.mem_cons.mp hline with rfl | hline
        · rcases List.mem_cons.mp hc with rfl | hc
          · exact ⟨List.mem_cons_self, fun heq => hfirst (beq_iff_eq.mpr heq)⟩
          · exact (ih List.mem_cons_self hc).imp_left (List.mem_cons_of_mem _)
        · exact (ih (List.mem_cons_of_mem _ hline) hc).imp_left (List.mem_cons_of_mem _)

theorem partition_middle {c : CodePoint} {front : Str} (h : c ∉ front) (back : Str) :
    partition c (front ++ c :: back) = (front, back) := by
  have hall : ∀ d ∈ front, decide (d ≠ c) = true := by
    intro d hd
    exact decide_eq_true fun heq => h (heq ▸ hd)
  rw [partition, List.takeWhile_append_of_pos hall, List.dropWhile_append_of_pos hall]
  simp

theorem mem_universalNewlines {c : CodePoint} {text : Str} (h : c ∈ universalNewlines text) :
    c ≠ .ofChar '\r' ∧ (c = .ofChar '\n' ∨ c ∈ text) := by
  have hnewline : CodePoint.ofChar '\n' ≠ .ofChar '\r' := by decide
  induction text using universalNewlines.induct with
  | case1 => cases h
  | case2 d =>
    rw [universalNewlines, List.mem_singleton] at h
    split_ifs at h with hd
    · exact ⟨h ▸ hnewline, Or.inl h⟩
    · exact ⟨h ▸ hd, Or.inr (by simp [h])⟩
  | case3 rest ih =>
    rw [universalNewlines, if_pos rfl, if_pos rfl] at h
    rcases List.mem_cons.mp h with rfl | h
    · exact ⟨hnewline, Or.inl rfl⟩
    · exact (ih h).imp_right (Or.imp_right fun h => by simp [h])
  | case4 d rest hne ih =>
    rw [universalNewlines, if_pos rfl, if_neg hne] at h
    rcases List.mem_cons.mp h with rfl | h
    · exact ⟨hnewline, Or.inl rfl⟩
    · exact (ih h).imp_right (Or.imp_right (List.mem_cons_of_mem _))
  | case5 first d rest hne ih =>
    rw [universalNewlines, if_neg hne] at h
    rcases List.mem_cons.mp h with rfl | h
    · exact ⟨hne, Or.inr List.mem_cons_self⟩
    · exact (ih h).imp_right (Or.imp_right (List.mem_cons_of_mem _))

theorem universalNewlines_of_not_mem {text : Str} (h : .ofChar '\r' ∉ text) :
    universalNewlines text = text := by
  induction text using universalNewlines.induct with
  | case1 => rfl
  | case2 c =>
    rw [universalNewlines, if_neg]
    rintro rfl
    exact h List.mem_cons_self
  | case3 rest ih => exact absurd List.mem_cons_self h
  | case4 d rest hne ih => exact absurd List.mem_cons_self h
  | case5 first d rest hne ih =>
    rw [universalNewlines, if_neg hne, ih fun hmem => h (List.mem_cons_of_mem _ hmem)]

section
variable [Library]

theorem not_isSpace {c : CodePoint} (h : c.asciiSpace = false) (hlow : c.val < 28 ∨ 31 < c.val)
    (hascii : c.val ≤ 127) : isSpace c = false := by
  simp only [isSpace, h, Bool.false_or, Bool.or_eq_false_iff, Bool.and_eq_false_iff,
    decide_eq_false_iff_not]
  omega

theorem not_isSpace_colon : ¬ isSpace (.ofChar ':') = true := by
  rw [not_isSpace (by decide) (by decide) (by decide)]
  decide

theorem strip_eq_trim (text : Str) : strip text = Trim.trim isSpace text := rfl

theorem strip_strip (text : Str) : strip (strip text) = strip text := Trim.trim_trim text

/-- `addLine` strips a line, and a line without text has no colon. -/
theorem addLine_trims : Trim.TrimsLines isSpace addLine where
  trimmed := by
    intro lines line
    rw [← strip_eq_trim, addLine, addLine, strip_strip]
    simp only [strip_eq_trim, Trim.mem_trim_iff not_isSpace_colon]
  passes := fun lines => if_neg List.not_mem_nil

/-- The dictionary a client makes of a text is the one the file is read as. -/
theorem parseListing_eq_readLines (text : Str) : parseListing text = readLines text :=
  Trim.foldl_splitOn_trim addLine_trims text .empty

/-- A name and what is said of it, as they stand in one line. -/
structure OneLine (line : Str × Str) : Prop where
  name : strip line.1 = line.1
  colon : .ofChar ':' ∉ line.1
  info : strip line.2 = line.2
  unbroken : ∀ c ∈ line.1 ++ line.2, c ≠ .ofChar '\n' ∧ c ≠ .ofChar '\r'
  isText : IsText (line.1 ++ line.2)

theorem OneLine.unbroken_text {line : Str × Str} (h : OneLine line) :
    ∀ c ∈ line.1 ++ str ": " ++ line.2, c ≠ .ofChar '\n' ∧ c ≠ .ofChar '\r' := by
  have hcolon : ∀ c ∈ str ": ", c ≠ .ofChar '\n' ∧ c ≠ .ofChar '\r' := by decide
  intro c hc
  rw [List.mem_append, List.mem_append] at hc
  rcases hc with (hc | hc) | hc
  · exact h.unbroken c (List.mem_append_left _ hc)
  · exact hcolon c hc
  · exact h.unbroken c (List.mem_append_right _ hc)

theorem OneLine.isText_lineText {line : Str × Str} (h : OneLine line) : IsText (lineText line) := by
  intro c hc
  rw [lineText, List.mem_append, List.mem_append, List.mem_append] at hc
  rcases hc with ((hc | hc) | hc) | hc
  · exact h.isText c (List.mem_append_left _ hc)
  · exact isText_str _ c hc
  · exact h.isText c (List.mem_append_right _ hc)
  · exact isText_str "\n" c hc

theorem addLine_lineText {line : Str × Str} (h : OneLine line) (lines : Lines) :
    addLine lines (line.1 ++ str ": " ++ line.2) = lines.insert line.1 line.2 := by
  have htext : line.1 ++ str ": " ++ line.2 =
      line.1 ++ .ofChar ':' :: (.ofChar ' ' :: line.2) := by
    rw [List.append_assoc]
    rfl
  have hspace : isSpace (.ofChar ' ') = true := by
    have h : (CodePoint.ofChar ' ').asciiSpace = true := by decide
    rw [isSpace, h, Bool.true_or, Bool.true_or]
  have hinfo : strip (List.rdropWhile isSpace (.ofChar ' ' :: line.2)) = line.2 := by
    rw [strip_eq_trim, Trim.trim_rdropWhile, Trim.trim_cons hspace, ← strip_eq_trim, h.info]
  rw [htext, addLine, if_pos (by simp), strip_eq_trim, Trim.trim_middle h.name not_isSpace_colon,
    partition_middle h.colon]
  simp only [h.name, hinfo]

/-- Whatever is read stands in one line. -/
theorem oneLine_of_readLines {text : Str} (htext : IsText text) (hreturn : .ofChar '\r' ∉ text) :
    ∀ line ∈ (readLines text).entries, OneLine line := by
  have hadd : ∀ (lines : Lines) (line : Str), (∀ c ∈ line, c ∈ text ∧ c ≠ .ofChar '\n') →
      (∀ entry ∈ lines.entries, OneLine entry) →
      ∀ entry ∈ (addLine lines line).entries, OneLine entry := by
    intro lines line hline hlines entry hentry
    unfold addLine at hentry
    split_ifs at hentry with hcolon
    · rcases OrderedDict.mem_entries_insert hentry with rfl | hentry
      · have hname : ∀ c ∈ strip (partition (.ofChar ':') (strip line)).1, c ∈ line := fun c hc =>
          (Trim.trim_sublist line).subset
            ((List.takeWhile_sublist _).subset ((Trim.trim_sublist _).subset hc))
        have hinfo : ∀ c ∈ strip (partition (.ofChar ':') (strip line)).2, c ∈ line := fun c hc =>
          (Trim.trim_sublist line).subset ((List.dropWhile_sublist _).subset
            (List.mem_of_mem_drop ((Trim.trim_sublist _).subset hc)))
        have hmem : ∀ c ∈ strip (partition (.ofChar ':') (strip line)).1 ++
            strip (partition (.ofChar ':') (strip line)).2, c ∈ line := fun c hc =>
          (List.mem_append.mp hc).elim (hname c) (hinfo c)
        refine ⟨strip_strip _, fun hc => ?_, strip_strip _, fun c hc => ?_, fun c hc => ?_⟩
        · have := List.mem_takeWhile_imp ((Trim.trim_sublist _).subset hc)
          simp at this
        · obtain ⟨htextc, hnewline⟩ := hline c (hmem c hc)
          exact ⟨hnewline, fun heq => hreturn (heq ▸ htextc)⟩
        · exact htext c (hline c (hmem c hc)).1
      · exact hlines entry hentry
    · exact hlines entry hentry
  have hfold : ∀ (pieces : List Str) (lines : Lines),
      (∀ piece ∈ pieces, ∀ c ∈ piece, c ∈ text ∧ c ≠ .ofChar '\n') →
      (∀ entry ∈ lines.entries, OneLine entry) →
      ∀ entry ∈ (pieces.foldl addLine lines).entries, OneLine entry := by
    intro pieces
    induction pieces with
    | nil => exact fun lines _ hlines => hlines
    | cons piece rest ih =>
      intro lines hpieces hlines
      exact ih _ (fun other hother => hpieces other (List.mem_cons_of_mem _ hother))
        (hadd lines piece (hpieces piece List.mem_cons_self) hlines)
  exact hfold _ .empty (fun piece hpiece c hc => mem_splitOn hpiece hc) fun _ h => absurd h List.not_mem_nil

/-- Lines that were written are read back in their order. -/
theorem readLines_written {lines : List (Str × Str)} (h : ∀ line ∈ lines, OneLine line)
    (hnodup : (lines.map Prod.fst).Nodup) : (readLines (lines.flatMap lineText)).entries = lines := by
  have hfold : ∀ (lines : List (Str × Str)) (d : Lines), (∀ line ∈ lines, OneLine line) →
      ((lines.flatMap lineText).splitOn (.ofChar '\n')).foldl addLine d =
        lines.foldl (fun d line => d.insert line.1 line.2) d := by
    intro lines
    induction lines with
    | nil => exact fun d _ => addLine_trims.passes d
    | cons line rest ih =>
      intro d h
      have hline := h line List.mem_cons_self
      have hnot : CodePoint.ofChar '\n' ∉ line.1 ++ str ": " ++ line.2 := fun hmem =>
        (hline.unbroken_text _ hmem).1 rfl
      have htext : (line :: rest).flatMap lineText =
          (line.1 ++ str ": " ++ line.2) ++ .ofChar '\n' :: rest.flatMap lineText := by
        simp [lineText]
      rw [htext, List.splitOn_append_cons_self, List.splitOn_eq_singleton hnot, List.foldl_append,
        List.foldl_cons, List.foldl_nil, addLine_lineText hline, List.foldl_cons]
      exact ih _ fun line hline => h line (List.mem_cons_of_mem _ hline)
  rw [readLines, hfold lines .empty h]
  exact OrderedDict.entries_foldl_insert hnodup

end

end Utils

/-! ## Numbers -/

theorem moreDigits_digits {digits : Str} (hdigits : ∀ c ∈ digits, isDigit c = true) (value : Nat) :
    moreDigits value digits = some (digits.foldl (fun n c => 10 * n + (c.val - 48)) value) := by
  induction digits generalizing value with
  | nil => rfl
  | cons c rest ih =>
    have hc : isDigit c = true := hdigits c (by simp)
    have hrest := ih fun d hd => hdigits d (by simp [hd])
    cases rest with
    | nil => rw [moreDigits, if_pos hc, List.foldl_cons, List.foldl_nil]
    | cons d rest =>
      rw [moreDigits, if_pos hc, hrest]
      rfl

theorem isHexDigit_of_isDigit {c : CodePoint} (h : isDigit c = true) : c.isHexDigit = true := by
  simp only [isDigit, Bool.and_eq_true, decide_eq_true_eq] at h
  rw [CodePoint.isHexDigit, CodePoint.hexValue?, if_pos h]
  rfl

theorem intOf?_digits [Library] {digits : Str} (hne : digits ≠ [])
    (hdigits : ∀ c ∈ digits, isDigit c = true) :
    intOf? digits = some (digitsValue digits : Int) := by
  obtain ⟨hascii, hspaces, hsign⟩ := stripped_of_digits fun c hc => isHexDigit_of_isDigit (hdigits c hc)
  obtain ⟨c, rest, rfl⟩ := List.exists_cons_of_ne_nil hne
  have hminus : (c :: rest).head? ≠ some (.ofChar '-') := by
    rintro ⟨⟩
    have hc := hdigits (.ofChar '-') List.mem_cons_self
    cases hc
  have hmore := moreDigits_digits (fun d hd => hdigits d (List.mem_cons_of_mem c hd)) (c.val - 48)
  simp only [intOf?, hascii, hspaces, hsign, if_neg hminus, if_pos (hdigits c List.mem_cons_self),
    hmore, Option.map_some, Option.some.injEq]
  rw [digitsValue, List.foldl_cons, Nat.mul_zero, Nat.zero_add]

theorem intOf?_decimal [Library] (n : Nat) : intOf? (decimal n) = some (n : Int) := by
  obtain ⟨c, rest, hcons, -, -⟩ := decimal_cons n
  rw [intOf?_digits (by rw [hcons]; simp) (isDigit_decimal n), digitsValue_decimal]

end Litecast
