import Litecast.JsonRoundTrip

/-! Objects with a key twice, as a hook of `json.loads` meets them. -/

namespace Litecast

namespace JsonText

/-- The first key that has come before. -/
def firstRepeat : List Str → List Str → Option Str
  | _, [] => none
  | seen, key :: rest => if key ∈ seen then some key else firstRepeat (seen ++ [key]) rest

theorem firstRepeat_of_nodup {seen keys : List Str} (h : (seen ++ keys).Nodup) :
    firstRepeat seen keys = none := by
  induction keys generalizing seen with
  | nil => rfl
  | cons key rest ih =>
    have hnew : key ∉ seen := fun hmem => (List.nodup_append.mp h).2.2 key hmem key (by simp) rfl
    rw [firstRepeat, if_neg hnew]
    exact ih (by rwa [List.append_assoc])

section
variable [Library]

mutual

/-- The key that stops `scanValue` when objects are turned away for repeating
one: each is looked at when its brace is met, before what follows it. -/
def valueRepeats : Nat → Str → Option Str
  | 0, _ => none
  | _ + 1, [] => none
  | fuel + 1, c :: rest =>
    if c = .ofChar '\x7b' then
      if (skipWhite rest).head? = some (.ofChar '\x7d') then none
      else membersRepeats fuel [] (skipWhite rest)
    else if c = .ofChar '[' then
      if (skipWhite rest).head? = some (.ofChar ']') then none
      else itemsRepeats fuel (skipWhite rest)
    else none

def itemsRepeats : Nat → Str → Option Str
  | 0, _ => none
  | fuel + 1, text =>
    (valueRepeats fuel text).or <|
      match scanValue fuel text with
      | none => none
      | some (_, rest) =>
        match skipWhite rest with
        | [] => none
        | c :: rest => if c = .ofChar ',' then itemsRepeats fuel (skipWhite rest) else none

/-- `keys` are those of the members before. -/
def membersRepeats : Nat → List Str → Str → Option Str
  | 0, _, _ => none
  | _ + 1, _, [] => none
  | fuel + 1, keys, c :: rest =>
    if c ≠ .ofChar '"' then none
    else
      match scanString rest with
      | none => none
      | some (key, rest) =>
        match skipWhite rest with
        | [] => none
        | c :: rest =>
          if c ≠ .ofChar ':' then none
          else
            (valueRepeats fuel (skipWhite rest)).or <|
              match scanValue fuel (skipWhite rest) with
              | none => none
              | some (_, rest) =>
                match skipWhite rest with
                | [] => none
                | c :: rest =>
                  if c = .ofChar '\x7d' then firstRepeat [] (keys ++ [key])
                  else if c = .ofChar ',' then
                    membersRepeats fuel (keys ++ [key]) (skipWhite rest)
                  else none

end

/-! ## Written texts -/

/-- No object in the text of `value` has a key twice, whatever follows. -/
def Unrepeated (ascii : Bool) (value : Json) : Prop :=
  ∀ (fuel : Nat) (rest : Str), Ends rest → 2 * (write ascii value).length ≤ fuel →
    valueRepeats fuel (write ascii value ++ rest) = none

theorem itemsRepeats_write (ascii : Bool) {first : Json} {others : List Json}
    (h : ∀ item ∈ first :: others, Writable ascii item)
    (hnone : ∀ item ∈ first :: others, Unrepeated ascii item) {fuel : Nat} (rest : Str)
    (hfuel : 2 * (write ascii first ++ writeItems ascii others).length ≤ fuel) :
    itemsRepeats fuel (write ascii first ++ (writeItems ascii others ++ rest)) = none := by
  have hreads := reads_of_writable ascii (h first (by simp))
  have hpos := write_pos ascii (h first (by simp))
  induction others generalizing first fuel with
  | nil =>
    rw [List.length_append] at hfuel
    obtain ⟨fuel, rfl⟩ := Nat.exists_eq_add_one.mpr (by omega : 0 < fuel)
    have hclose : (writeItems ascii []).length = 1 := by rw [writeItems]; rfl
    have hrest := ends_writeItems ascii [] rest
    rw [itemsRepeats, hnone first (by simp) fuel _ hrest (by omega),
      hreads fuel _ hrest (by omega)]
    simp only [hrest.skipWhite]
    rw [writeItems]
    rfl
  | cons item others ih =>
    have hcomma : writeItems ascii (item :: others) =
        .ofChar ',' :: (write ascii item ++ writeItems ascii others) := by rw [writeItems]
    rw [hcomma, List.length_append, List.length_cons] at hfuel
    obtain ⟨fuel, rfl⟩ := Nat.exists_eq_add_one.mpr (by omega : 0 < fuel)
    have hrest := ends_writeItems ascii (item :: others) rest
    rw [itemsRepeats, hnone first (by simp) fuel _ hrest (by omega),
      hreads fuel _ hrest (by omega)]
    simp only [hrest.skipWhite]
    rw [hcomma, List.cons_append, List.append_assoc]
    have hnext := skipWhite_write ascii (h item (by simp)) (writeItems ascii others ++ rest)
    have hitems : itemsRepeats fuel (write ascii item ++ (writeItems ascii others ++ rest)) = none :=
      ih (fun i hi => h i (List.mem_cons_of_mem _ hi)) (fun i hi => hnone i (List.mem_cons_of_mem _ hi))
        (by omega) (reads_of_writable ascii (h item (by simp))) (write_pos ascii (h item (by simp)))
    simp only [if_true, hnext, hitems, Option.or_none]

theorem membersRepeats_member (ascii : Bool) {member : Str × Json} (hkey : IsText member.1)
    (hvalue : Writable ascii member.2) (hnone : Unrepeated ascii member.2) {fuel : Nat}
    (keys : List Str) {c : CodePoint} {tail : Str} (htail : Ends (c :: tail))
    (hfuel : 2 * (write ascii member.2).length ≤ fuel) :
    membersRepeats (fuel + 1) keys (writeString ascii member.1 ++ .ofChar ':' ::
      (write ascii member.2 ++ c :: tail)) =
      if c = .ofChar '\x7d' then firstRepeat [] (keys ++ [member.1])
      else if c = .ofChar ',' then membersRepeats fuel (keys ++ [member.1]) (skipWhite tail)
      else none := by
  have hcolon (tail : Str) : skipWhite (.ofChar ':' :: tail) = .ofChar ':' :: tail := rfl
  have hscan (tail : Str) : scanString (member.1.flatMap (escapeChar ascii) ++ .ofChar '"' :: tail) =
      some (member.1, tail) := by
    rw [scanString_written ascii (Or.inr hkey), rejoin_of_isText hkey]
  rw [writeString_append, membersRepeats]
  simp only [ne_eq, not_true_eq_false, if_false, hscan, hcolon, skipWhite_write ascii hvalue,
    hnone fuel _ htail hfuel, reads_of_writable ascii hvalue fuel _ htail hfuel, htail.skipWhite,
    Option.none_or]

theorem membersRepeats_write (ascii : Bool) {first : Str × Json} {others : List (Str × Json)}
    (hkeys : ∀ member ∈ first :: others, IsText member.1)
    (h : ∀ member ∈ first :: others, Writable ascii member.2)
    (hnone : ∀ member ∈ first :: others, Unrepeated ascii member.2) {fuel : Nat} {keys : List Str}
    (hnodup : (keys ++ (first :: others).map Prod.fst).Nodup) (rest : Str)
    (hfuel : 2 * (write ascii first.2 ++ writeMembers ascii others).length ≤ fuel) :
    membersRepeats fuel keys (writeString ascii first.1 ++ .ofChar ':' :: (write ascii first.2 ++
      (writeMembers ascii others ++ rest))) = none := by
  have hpos := write_pos ascii (h first (by simp))
  induction others generalizing first fuel keys with
  | nil =>
    have hclose : writeMembers ascii [] = [.ofChar '\x7d'] := by rw [writeMembers]; rfl
    have hrest := ends_writeMembers ascii [] rest
    rw [hclose] at hrest hfuel ⊢
    rw [List.length_append, List.length_singleton] at hfuel
    obtain ⟨fuel, rfl⟩ := Nat.exists_eq_add_one.mpr (by omega : 0 < fuel)
    rw [List.singleton_append] at hrest ⊢
    rw [membersRepeats_member ascii (hkeys first (by simp)) (h first (by simp))
      (hnone first (by simp)) keys hrest (by omega), if_pos rfl]
    exact firstRepeat_of_nodup hnodup
  | cons member others ih =>
    have hcomma : writeMembers ascii (member :: others) = .ofChar ',' :: (writeString ascii member.1 ++
        .ofChar ':' :: (write ascii member.2 ++ writeMembers ascii others)) := by rw [writeMembers]
    have hrest := ends_writeMembers ascii (member :: others) rest
    rw [hcomma] at hrest hfuel ⊢
    simp only [List.length_append, List.length_cons] at hfuel
    obtain ⟨fuel, rfl⟩ := Nat.exists_eq_add_one.mpr (by omega : 0 < fuel)
    have hmembers : membersRepeats fuel (keys ++ [first.1]) (writeString ascii member.1 ++
        .ofChar ':' :: (write ascii member.2 ++ (writeMembers ascii others ++ rest))) = none := by
      refine ih (fun m hm => hkeys m (List.mem_cons_of_mem _ hm))
        (fun m hm => h m (List.mem_cons_of_mem _ hm))
        (fun m hm => hnone m (List.mem_cons_of_mem _ hm)) ?_ ?_ (write_pos ascii (h member (by simp)))
      · rw [List.append_assoc]
        exact hnodup
      · simp only [List.length_append]
        omega
    have hopen (tail : Str) : skipWhite (writeString ascii member.1 ++ tail) =
        writeString ascii member.1 ++ tail := by
      rw [writeString_append]
      rfl
    rw [List.cons_append] at hrest ⊢
    rw [membersRepeats_member ascii (hkeys first (by simp)) (h first (by simp))
      (hnone first (by simp)) keys hrest (by omega), if_neg (by decide), if_pos rfl]
    simp only [List.append_assoc, List.cons_append, hopen, hmembers]

/-- Nothing but an array or an object is looked into. -/
theorem valueRepeats_of_ne {c : CodePoint} (hbrace : c ≠ .ofChar '\x7b') (hbracket : c ≠ .ofChar '[')
    (tail : Str) (fuel : Nat) : valueRepeats fuel (c :: tail) = none := by
  cases fuel with
  | zero => rw [valueRepeats]
  | succ fuel => rw [valueRepeats, if_neg hbrace, if_neg hbracket]

theorem unrepeated_number (ascii : Bool) {value : Json}
    (h : startsNumber (write ascii value) = true) : Unrepeated ascii value := by
  intro fuel rest _ _
  cases hwrite : write ascii value with
  | nil => rw [hwrite] at h; cases h
  | cons c tail =>
    rw [hwrite] at h
    rw [List.cons_append]
    refine valueRepeats_of_ne ?_ ?_ _ fuel <;>
    · rintro rfl
      cases h

theorem unrepeated_of_writable (ascii : Bool) {value : Json} (h : Writable ascii value) :
    Unrepeated ascii value := by
  induction h with
  | null =>
    intro fuel rest _ _
    rw [write]
    exact valueRepeats_of_ne (by decide) (by decide) _ fuel
  | bool b =>
    intro fuel rest _ _
    rw [write]
    cases b <;> exact valueRepeats_of_ne (by decide) (by decide) _ fuel
  | int n =>
    apply unrepeated_number
    rw [write]
    exact startsNumber_writeInt n
  | finite h =>
    apply unrepeated_number
    rw [write, writeFloat]
    exact h.starts
  | infinite negative =>
    intro fuel rest _ _
    rw [write, writeFloat]
    cases negative <;> exact valueRepeats_of_ne (by decide) (by decide) _ fuel
  | nan =>
    intro fuel rest _ _
    rw [write, writeFloat]
    exact valueRepeats_of_ne (by decide) (by decide) _ fuel
  | str h =>
    intro fuel rest _ _
    rw [write]
    exact valueRepeats_of_ne (by decide) (by decide) _ fuel
  | @arr items h ih =>
    intro fuel rest _ hfuel
    have hpos := write_pos ascii (.arr h)
    obtain ⟨fuel, rfl⟩ := Nat.exists_eq_add_one.mpr (by omega : 0 < fuel)
    cases items with
    | nil => rw [write]; rfl
    | cons first others =>
      obtain ⟨c, tail, hfirst, hc⟩ := write_opens ascii (h first (by simp))
      have hskip := skipWhite_write ascii (h first (by simp)) (writeItems ascii others ++ rest)
      have hhead : (write ascii first ++ (writeItems ascii others ++ rest)).head? ≠
          some (.ofChar ']') := by
        rw [hfirst]
        exact fun heq => hc.ne (by decide) (Option.some.inj heq)
      rw [write] at hfuel ⊢
      rw [List.length_cons] at hfuel
      rw [List.cons_append, List.append_assoc, valueRepeats, if_neg (by decide), if_pos rfl, hskip,
        if_neg hhead]
      exact itemsRepeats_write ascii h ih rest (by omega)
  | @obj members hkeys h hnodup ih =>
    intro fuel rest _ hfuel
    have hpos := write_pos ascii (.obj hkeys h hnodup)
    obtain ⟨fuel, rfl⟩ := Nat.exists_eq_add_one.mpr (by omega : 0 < fuel)
    cases members with
    | nil => rw [write]; rfl
    | cons first others =>
      have hskip (tail : Str) : skipWhite (writeString ascii first.1 ++ tail) =
          writeString ascii first.1 ++ tail := by
        rw [writeString_append]
        rfl
      have hhead (tail : Str) : (writeString ascii first.1 ++ tail).head? ≠ some (.ofChar '\x7d') := by
        rw [writeString_append]
        exact fun heq => absurd (Option.some.inj heq) (by decide)
      rw [write] at hfuel ⊢
      simp only [List.length_cons, List.length_append] at hfuel
      rw [List.cons_append, List.append_assoc, List.cons_append, List.append_assoc, valueRepeats,
        if_pos rfl, hskip, if_neg (hhead _)]
      refine membersRepeats_write ascii hkeys h ih ?_ rest ?_
      · rw [List.nil_append]
        exact hnodup
      · simp only [List.length_append]
        omega

end

end JsonText

section
variable [Library]
open JsonText

/-- The key `json.loads` stops at when its hook raises for a key that repeats. -/
def repeatedKey (data : Bytes) : Option Str :=
  match decodeUtf8 data with
  | none => none
  | some text =>
    if text.head? = some (.ofChar '\uFEFF') then none
    else valueRepeats (2 * text.length + 1) (skipWhite text)

theorem repeatedKey_write (ascii : Bool) {value : Json} (h : Writable ascii value) {data : Bytes}
    (hdata : encodeUtf8 (write ascii value) = some data) : repeatedKey data = none := by
  have hskip := skipWhite_write ascii h []
  have hnone := unrepeated_of_writable ascii h (2 * (write ascii value).length + 1) [] (Or.inl rfl)
    (by omega)
  rw [List.append_nil] at hskip hnone
  simp only [repeatedKey, decodeUtf8_eq_some_iff.mpr hdata, hskip, hnone, ite_self]

end

end Litecast
