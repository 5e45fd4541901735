import Mathlib.Data.List.DropRight

/-! Texts without the blanks at their ends, and texts cut into pieces whose
blanks do not count. -/

namespace Trim

variable {α β : Type} (blank : α → Bool)

def trim (text : List α) : List α := (text.dropWhile blank).rdropWhile blank

@[simp] theorem trim_nil : trim blank [] = [] := by simp [trim]

variable {blank}

theorem trim_cons {a : α} (h : blank a) (text : List α) : trim blank (a :: text) = trim blank text := by
  rw [trim, List.dropWhile_cons_of_pos h, trim]

theorem trim_concat {a : α} (h : blank a) (text : List α) :
    trim blank (text ++ [a]) = trim blank text := by
  rw [trim, trim, List.dropWhile_append]
  split_ifs with hall
  · rw [List.isEmpty_iff.mp hall, List.dropWhile_cons_of_pos h, List.dropWhile_nil]
  · rw [List.rdropWhile_concat_pos _ _ _ h]

theorem trim_dropWhile (text : List α) : trim blank (text.dropWhile blank) = trim blank text := by
  induction text with
  | nil => rfl
  | cons a rest ih =>
    by_cases h : blank a
    · rw [List.dropWhile_cons_of_pos h, ih, trim_cons h]
    · rw [List.dropWhile_cons_of_neg h]

theorem trim_rdropWhile (text : List α) : trim blank (text.rdropWhile blank) = trim blank text := by
  induction text using List.reverseRecOn with
  | nil => rw [List.rdropWhile_nil]
  | append_singleton rest a ih =>
    by_cases h : blank a
    · rw [List.rdropWhile_concat_pos _ _ _ h, ih, trim_concat h]
    · rw [List.rdropWhile_concat_neg _ _ _ h]

@[simp] theorem trim_trim (text : List α) : trim blank (trim blank text) = trim blank text :=
  (trim_rdropWhile _).trans (trim_dropWhile text)

theorem trim_sublist (text : List α) : (trim blank text).Sublist text :=
  (List.rdropWhile_prefix blank _).sublist.trans (List.dropWhile_sublist blank)

theorem mem_trim_iff {a : α} (ha : ¬ blank a) {text : List α} : a ∈ trim blank text ↔ a ∈ text := by
  refine ⟨fun h => (trim_sublist text).subset h, fun h => ?_⟩
  rw [← List.takeWhile_append_dropWhile (p := blank) (l := text), List.mem_append] at h
  rcases h with h | h
  · exact absurd (List.mem_takeWhile_imp h) ha
  · rw [← List.rdropWhile_append_rtakeWhile (p := blank) (l := text.dropWhile blank),
      List.mem_append] at h
    rcases h with h | h
    · exact h
    · exact absurd (List.mem_rtakeWhile_imp h) ha

theorem head_not_blank {a : α} {text : List α} (h : trim blank (a :: text) = a :: text) :
    ¬ blank a := by
  intro ha
  have hlength : (trim blank text).length ≤ text.length := (trim_sublist text).length_le
  rw [← trim_cons ha, h, List.length_cons] at hlength
  omega

theorem rdropWhile_middle {a : α} (ha : ¬ blank a) (front back : List α) :
    (front ++ a :: back).rdropWhile blank = front ++ a :: back.rdropWhile blank := by
  induction back using List.reverseRecOn with
  | nil => rw [List.rdropWhile_nil, List.rdropWhile_concat_neg _ _ _ ha]
  | append_singleton rest b ih =>
    rw [← List.cons_append, ← List.append_assoc]
    by_cases hb : blank b
    · rw [List.rdropWhile_concat_pos _ _ _ hb, List.rdropWhile_concat_pos _ _ _ hb, ih]
    · rw [List.rdropWhile_concat_neg _ _ _ hb, List.rdropWhile_concat_neg _ _ _ hb,
        List.append_assoc, List.cons_append]

/-- A text that begins with a trimmed one and something that is not blank. -/
theorem trim_middle {front : List α} (hfront : trim blank front = front) {a : α} (ha : ¬ blank a)
    (back : List α) :
    trim blank (front ++ a :: back) = front ++ a :: back.rdropWhile blank := by
  have hhead : (front ++ a :: back).dropWhile blank = front ++ a :: back := by
    cases front with
    | nil => exact List.dropWhile_cons_of_neg ha
    | cons first rest => exact List.dropWhile_cons_of_neg (head_not_blank hfront)
  rw [trim, hhead, rdropWhile_middle ha]

/-! ## Reading line by line -/

section
variable {read : β → List α → β} {newline : α} [DecidableEq α]

/-- A reader who trims each line, and passes over a blank one. -/
structure TrimsLines (blank : α → Bool) (read : β → List α → β) : Prop where
  trimmed : ∀ b line, read b (trim blank line) = read b line
  passes : ∀ b, read b [] = b

omit [DecidableEq α] in
theorem TrimsLines.congr (hread : TrimsLines blank read) {line line' : List α}
    (h : trim blank line = trim blank line') (b : β) : read b line = read b line' := by
  rw [← hread.trimmed b line, h, hread.trimmed]

theorem foldl_splitOn_cons (hread : TrimsLines blank read) {a : α} (ha : blank a) (text : List α)
    (b : β) : ((a :: text).splitOn newline).foldl read b = (text.splitOn newline).foldl read b := by
  rw [List.splitOn_cons_eq_if_modifyHead]
  split_ifs with hnewline
  · rw [List.foldl_cons, hread.passes]
  · cases hlines : text.splitOn newline with
    | nil => rfl
    | cons first rest =>
      rw [List.modifyHead_cons, List.foldl_cons, List.foldl_cons, hread.congr (trim_cons ha first)]

theorem foldl_splitOn_concat (hread : TrimsLines blank read) {a : α} (ha : blank a) (text : List α)
    (b : β) : ((text ++ [a]).splitOn newline).foldl read b = (text.splitOn newline).foldl read b := by
  have hlast (line : List α) (hline : newline ∉ line) (b : β) :
      ((line ++ [a]).splitOn newline).foldl read b = (line.splitOn newline).foldl read b := by
    by_cases hnewline : a = newline
    · rw [hnewline, List.splitOn_append_cons_self, List.foldl_append]
      exact hread.passes _
    · have hnot : newline ∉ line ++ [a] := by simp [hline, Ne.symm hnewline]
      rw [List.splitOn_eq_singleton hnot, List.splitOn_eq_singleton hline]
      exact hread.congr (trim_concat ha line) b
  by_cases hmem : newline ∈ text
  · -- only the last line is concerned
    obtain ⟨back, front, hsplit, hback⟩ := List.eq_append_cons_of_mem (List.mem_reverse.mpr hmem)
    obtain rfl : text = front.reverse ++ newline :: back.reverse := by
      rw [← List.reverse_reverse text, hsplit]
      simp
    rw [List.append_assoc, List.cons_append, List.splitOn_append_cons_self, List.splitOn_append_cons_self,
      List.foldl_append, List.foldl_append, hlast _ (by simpa using hback)]
  · exact hlast text hmem b

/-- Nothing changes for such a reader when the whole text is trimmed first. -/
theorem foldl_splitOn_trim (hread : TrimsLines blank read) (text : List α) (b : β) :
    ((trim blank text).splitOn newline).foldl read b = (text.splitOn newline).foldl read b := by
  have hfront (text : List α) : ((text.dropWhile blank).splitOn newline).foldl read b =
      (text.splitOn newline).foldl read b := by
    induction text with
    | nil => rfl
    | cons a rest ih =>
      by_cases h : blank a
      · rw [List.dropWhile_cons_of_pos h, ih, foldl_splitOn_cons hread h]
      · rw [List.dropWhile_cons_of_neg h]
  have hback (text : List α) : ((text.rdropWhile blank).splitOn newline).foldl read b =
      (text.splitOn newline).foldl read b := by
    induction text using List.reverseRecOn with
    | nil => rw [List.rdropWhile_nil]
    | append_singleton rest a ih =>
      by_cases h : blank a
      · rw [List.rdropWhile_concat_pos _ _ _ h, ih, foldl_splitOn_concat hread h]
      · rw [List.rdropWhile_concat_neg _ _ _ h]
  rw [trim, hback, hfront]

end

end Trim
