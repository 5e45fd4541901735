import Mathlib.Data.List.Basic

/-! Sources tried one after the other. A failure leads to the next; what is not
caught ends the search. -/

namespace TryEach

variable {Source Item Error : Type}

/-- The end of one try, or of the search. -/
inductive Outcome (Item Error : Type) where
  | delivered (item : Item)
  | failed
  | escaped (error : Error)

/-- The first outcome that is no failure, and the sources tried. -/
def search (attempt : Source → Outcome Item Error) :
    List Source → Outcome Item Error × List Source
  | [] => (.failed, [])
  | source :: rest =>
    match attempt source with
    | .failed =>
      let (outcome, tried) := search attempt rest
      (outcome, source :: tried)
    | outcome => (outcome, [source])

/-- Of the sources but the last none escapes before one has delivered. -/
def Clear (attempt : Source → Outcome Item Error) (sources : List Source) : Prop :=
  ∀ before source next after, sources = before ++ source :: next :: after →
    (∀ s ∈ before, ∀ item, attempt s ≠ .delivered item) → ∀ error, attempt source ≠ .escaped error

/-- The search delivers if a source does, and else tries them all. -/
structure Exhaustive (attempt : Source → Outcome Item Error) (sources : List Source) : Prop where
  delivers : (∃ source ∈ sources, ∃ item, attempt source = .delivered item) →
    ∃ item, (search attempt sources).1 = .delivered item
  tried : (∀ item, (search attempt sources).1 ≠ .delivered item) →
    (search attempt sources).2 = sources

variable {attempt : Source → Outcome Item Error} {source : Source} {rest : List Source}

/-- Only what a source delivered is delivered. -/
theorem mem_of_delivered {sources : List Source} {item : Item}
    (h : (search attempt sources).1 = .delivered item) :
    ∃ source ∈ sources, attempt source = .delivered item := by
  induction sources with
  | nil => cases h
  | cons source rest ih =>
    rw [search] at h
    cases hfirst : attempt source with
    | failed =>
      rw [hfirst] at h
      obtain ⟨later, hlater, hitem⟩ := ih h
      exact ⟨later, List.mem_cons_of_mem _ hlater, hitem⟩
    | delivered first =>
      rw [hfirst] at h
      exact ⟨source, List.mem_cons_self, hfirst.trans h⟩
    | escaped error =>
      rw [hfirst] at h
      cases h

theorem search_cons_of_failed (h : attempt source = .failed) :
    search attempt (source :: rest) =
      ((search attempt rest).1, source :: (search attempt rest).2) := by
  rw [search, h]

theorem clear_cons_of_failed (h : attempt source = .failed) :
    Clear attempt (source :: rest) ↔ Clear attempt rest := by
  constructor
  · rintro hclear before s next after rfl hbefore
    apply hclear (source :: before) s next after rfl
    rw [List.forall_mem_cons]
    refine ⟨fun item hitem => ?_, hbefore⟩
    rw [h] at hitem
    cases hitem
  · intro hclear before s next after hsplit hbefore error
    cases before with
    | nil =>
      obtain ⟨rfl, -⟩ := List.cons.inj hsplit
      rw [h]
      exact fun hescaped => by cases hescaped
    | cons first before =>
      obtain ⟨rfl, hrest⟩ := List.cons.inj hsplit
      exact hclear before s next after hrest
        (fun s hs => hbefore s (List.mem_cons_of_mem _ hs)) error

theorem exhaustive_cons_of_failed (h : attempt source = .failed) :
    Exhaustive attempt (source :: rest) ↔ Exhaustive attempt rest := by
  have hsearch : search attempt (source :: rest) =
      ((search attempt rest).1, source :: (search attempt rest).2) := search_cons_of_failed h
  have hfirst : ¬ ∃ item, attempt source = .delivered item := by
    rintro ⟨item, hitem⟩
    rw [h] at hitem
    cases hitem
  have hdelivers : (∃ s ∈ source :: rest, ∃ item, attempt s = .delivered item) ↔
      ∃ s ∈ rest, ∃ item, attempt s = .delivered item := by
    rw [List.exists_mem_cons_iff, or_iff_right hfirst]
  constructor
  · rintro ⟨hdelivered, htried⟩
    rw [hdelivers, hsearch] at hdelivered
    rw [hsearch] at htried
    exact ⟨hdelivered, fun hnone => (List.cons.inj (htried hnone)).2⟩
  · rintro ⟨hdelivered, htried⟩
    constructor
    · rw [hdelivers, hsearch]
      exact hdelivered
    · rw [hsearch]
      exact fun hnone => congrArg (source :: ·) (htried hnone)

/-- **When a failure only leads to the next source.** -/
theorem exhaustive_iff (sources : List Source) :
    Exhaustive attempt sources ↔ Clear attempt sources := by
  induction sources with
  | nil =>
    constructor
    · intro _ before source next after hsplit
      simp at hsplit
    · intro _
      constructor
      · rintro ⟨source, hmem, -⟩
        cases hmem
      · exact fun _ => rfl
  | cons source rest ih =>
    cases h : attempt source with
    | failed => rw [exhaustive_cons_of_failed h, ih, clear_cons_of_failed h]
    | delivered item =>
      have hsearch : search attempt (source :: rest) = (.delivered item, [source]) := by
        rw [search, h]
      constructor
      · intro _ before s next after hsplit hbefore error
        cases before with
        | nil =>
          obtain ⟨rfl, -⟩ := List.cons.inj hsplit
          rw [h]
          exact fun hescaped => by cases hescaped
        | cons first before =>
          obtain ⟨rfl, -⟩ := List.cons.inj hsplit
          exact absurd h (hbefore source List.mem_cons_self item)
      · intro _
        constructor
        · exact fun _ => ⟨item, by rw [hsearch]⟩
        · intro hnone
          exact absurd (congrArg Prod.fst hsearch) (hnone item)
    | escaped error =>
      have hsearch : search attempt (source :: rest) = (.escaped error, [source]) := by
        rw [search, h]
      constructor
      · rintro ⟨-, htried⟩ before s next after hsplit -
        rw [hsearch] at htried
        have hlone : [source] = source :: rest := htried (fun item hitem => by cases hitem)
        have hlength : [source].length = (before ++ s :: next :: after).length := by
          rw [hlone, hsplit]
        simp only [List.length_append, List.length_cons, List.length_nil] at hlength
        omega
      · intro hclear
        cases rest with
        | nil =>
          constructor
          · rintro ⟨s, hs, item, hitem⟩
            obtain rfl := List.mem_singleton.mp hs
            rw [h] at hitem
            cases hitem
          · intro _
            rw [hsearch]
        | cons next after =>
          exact absurd h (hclear [] source next after rfl (by simp) error)

end TryEach
