import Mathlib.Data.Nat.Digits.Lemmas
import Litecast.JsonText

/-! JSON text reads back as the value it was written for. -/

namespace Litecast

namespace JsonText

/-! ## Characters -/

/-- Text without surrogates, which UTF-8 can encode. -/
def IsText (s : Str) : Prop := ∀ c ∈ s, c.isSurrogate = false

instance (s : Str) : Decidable (IsText s) := inferInstanceAs (Decidable (∀ c ∈ s, _))

theorem IsText.append {s t : Str} (hs : IsText s) (ht : IsText t) : IsText (s ++ t) :=
  fun c hc => (List.mem_append.mp hc).elim (hs c) (ht c)

theorem IsText.cons {c : CodePoint} {s : Str} (hc : c.isSurrogate = false) (hs : IsText s) :
    IsText (c :: s) := by
  intro d hd
  rcases List.mem_cons.mp hd with rfl | hd
  exacts [hc, hs d hd]

theorem isSurrogate_ofChar (ch : Char) : (CodePoint.ofChar ch).isSurrogate = false := by
  have h : (CodePoint.ofChar ch).val < 0xd800 ∨
      (0xdfff < (CodePoint.ofChar ch).val ∧ (CodePoint.ofChar ch).val < 0x110000) := ch.valid
  simp only [CodePoint.isSurrogate, Bool.and_eq_false_iff, decide_eq_false_iff_not]
  omega

theorem isText_str (s : String) : IsText (str s) := by
  intro c hc
  obtain ⟨ch, -, rfl⟩ := List.mem_map.mp hc
  exact isSurrogate_ofChar ch

theorem toChar?_of_text {c : CodePoint} (hc : c.isSurrogate = false) :
    ∃ ch, c.toChar? = some ch := by
  have hvalid : c.val.isValidChar := by
    have hlt := c.lt
    simp only [CodePoint.isSurrogate, Bool.and_eq_false_iff, decide_eq_false_iff_not] at hc
    exact (by omega : c.val < 0xd800 ∨ (0xdfff < c.val ∧ c.val < 0x110000))
  exact ⟨_, dif_pos hvalid⟩

theorem isText_of_encodeUtf8 {s : Str} {b : Bytes} (h : encodeUtf8 s = some b) : IsText s := by
  obtain ⟨chars, hchars, -⟩ := Option.map_eq_some_iff.mp h
  rw [mapM_toChar.mp hchars]
  intro c hc
  obtain ⟨ch, -, rfl⟩ := List.mem_map.mp hc
  exact isSurrogate_ofChar ch

theorem encodeUtf8_of_isText {s : Str} (hs : IsText s) : ∃ b, encodeUtf8 s = some b := by
  suffices h : ∃ chars, s.mapM CodePoint.toChar? = some chars by
    obtain ⟨chars, hchars⟩ := h
    exact ⟨_, by rw [encodeUtf8, hchars]; rfl⟩
  induction s with
  | nil => exact ⟨[], rfl⟩
  | cons c rest ih =>
    obtain ⟨ch, hch⟩ := toChar?_of_text (hs c (by simp))
    obtain ⟨chars, hchars⟩ := ih fun d hd => hs d (by simp [hd])
    exact ⟨ch :: chars, by simp [hch, hchars]⟩

/-! ## Strings -/

theorem hexUnit?_escapeUnit {n : Nat} (hn : n < 65536) (rest : Str) :
    hexUnit? (hexDigit (n / 4096) :: hexDigit (n / 256) :: hexDigit (n / 16) :: hexDigit n :: rest) =
      some (n, rest) := by
  simp only [hexUnit?, hexValue_hexDigit, Option.some.injEq, Prod.mk.injEq, and_true]
  omega

theorem codePoint_val (c : CodePoint) : codePoint c.val = c := by
  rw [codePoint, dif_pos c.lt]

theorem lowSurrogate?_escapeUnit {n : Nat} (hn : n < 65536) (rest : Str) :
    lowSurrogate? (escapeUnit n ++ rest) =
      if 0xdc00 ≤ n ∧ n ≤ 0xdfff then some (n, rest) else none := by
  have hunit : escapeUnit n ++ rest = .ofChar '\\' :: .ofChar 'u' :: hexDigit (n / 4096) ::
      hexDigit (n / 256) :: hexDigit (n / 16) :: hexDigit n :: rest := rfl
  rw [hunit, lowSurrogate?, if_pos ⟨rfl, rfl⟩, hexUnit?_escapeUnit hn]
  simp [Option.filter]

/-- A unit that no low surrogate completes. -/
theorem scanEscape_unit {n : Nat} (hn : n < 65536) {rest : Str}
    (hlone : 0xd800 ≤ n ∧ n ≤ 0xdbff → lowSurrogate? rest = none) :
    scanEscape ((escapeUnit n).tail ++ rest) = some (codePoint n, rest) := by
  have htail : (escapeUnit n).tail ++ rest = .ofChar 'u' :: hexDigit (n / 4096) ::
      hexDigit (n / 256) :: hexDigit (n / 16) :: hexDigit n :: rest := rfl
  rw [htail, scanEscape, if_pos rfl, hexUnit?_escapeUnit hn]
  dsimp only
  split_ifs with hhigh
  · rw [hlone hhigh]
  · rfl

theorem scanEscape_pair {high low : Nat} (hhigh : 0xd800 ≤ high ∧ high ≤ 0xdbff)
    (hlow : 0xdc00 ≤ low ∧ low ≤ 0xdfff) (rest : Str) :
    scanEscape ((escapeUnit high).tail ++ (escapeUnit low ++ rest)) =
      some (codePoint (0x10000 + 1024 * (high - 0xd800) + (low - 0xdc00)), rest) := by
  have htail (tail : Str) : (escapeUnit high).tail ++ tail = .ofChar 'u' :: hexDigit (high / 4096) ::
      hexDigit (high / 256) :: hexDigit (high / 16) :: hexDigit high :: tail := rfl
  rw [htail, scanEscape, if_pos rfl, hexUnit?_escapeUnit (by omega)]
  simp only [hhigh, and_self, if_true, lowSurrogate?_escapeUnit (by omega : low < 65536), hlow]

theorem scanEscape_letter {c letter : CodePoint} (h : OrderedDict.lookup c shortEscapes = some letter)
    (rest : Str) : scanEscape (letter :: rest) = some (c, rest) := by
  have hall : ∀ e ∈ shortEscapes, e.2 ≠ .ofChar 'u' ∧
      OrderedDict.lookup e.2 escapeLetters = some e.1 := by decide
  obtain ⟨hu, hlookup⟩ := hall _ (OrderedDict.mem_of_lookup h)
  rw [scanEscape, if_neg hu, hlookup]
  rfl

theorem scanChars_escape {tail rest : Str} {c : CodePoint} (h : scanEscape tail = some (c, rest))
    (fuel : Nat) : scanChars (fuel + 1) (.ofChar '\\' :: tail) =
      (scanChars fuel rest).map fun (s, rest) => (c :: s, rest) := by
  rw [scanChars, if_neg (by decide), if_pos rfl, h]

theorem ne_of_not_short {c : CodePoint} (h : OrderedDict.lookup c shortEscapes = none) :
    c ≠ .ofChar '"' ∧ c ≠ .ofChar '\\' := by
  constructor <;>
  · rintro rfl
    cases h

/-- One written character is read in one turn. -/
theorem scanChars_escapeChar (ascii : Bool) (c : CodePoint) {rest : Str}
    (hlone : 0xd800 ≤ c.val ∧ c.val ≤ 0xdbff → lowSurrogate? rest = none) (fuel : Nat) :
    scanChars (fuel + 1) (escapeChar ascii c ++ rest) =
      (scanChars fuel rest).map fun (s, rest) => (c :: s, rest) := by
  unfold escapeChar
  cases hletter : OrderedDict.lookup c shortEscapes with
  | some letter => exact scanChars_escape (scanEscape_letter hletter rest) fuel
  | none =>
    dsimp only
    obtain ⟨hquote, hslash⟩ := ne_of_not_short hletter
    split_ifs with hplain hbasic
    · have hscan := scanEscape_unit hbasic hlone
      rw [codePoint_val] at hscan
      exact scanChars_escape hscan fuel
    · have hlt := c.lt
      have hscan := scanEscape_pair (by omega : 0xd800 ≤ 0xd800 + (c.val - 0x10000) / 1024 ∧ _)
        (by omega : 0xdc00 ≤ 0xdc00 + (c.val - 0x10000) % 1024 ∧ _) rest
      have hvalue : 0x10000 + 1024 * (0xd800 + (c.val - 0x10000) / 1024 - 0xd800) +
          (0xdc00 + (c.val - 0x10000) % 1024 - 0xdc00) = c.val := by omega
      rw [hvalue, codePoint_val] at hscan
      rw [List.append_assoc]
      exact scanChars_escape hscan fuel
    · rw [List.singleton_append, scanChars, if_neg hquote, if_neg hslash, if_neg (by omega)]

theorem lowSurrogate?_written (ascii : Bool) {s : Str}
    (hs : ∀ c ∈ s.head?, ¬ (0xdc00 ≤ c.val ∧ c.val ≤ 0xdfff)) (rest : Str) :
    lowSurrogate? (s.flatMap (escapeChar ascii) ++ .ofChar '"' :: rest) = none := by
  cases s with
  | nil => cases rest <;> rfl
  | cons c s =>
    have hlow := hs c rfl
    rw [List.flatMap_cons, List.append_assoc]
    generalize s.flatMap (escapeChar ascii) ++ .ofChar '"' :: rest = tail
    unfold escapeChar
    cases hletter : OrderedDict.lookup c shortEscapes with
    | some letter =>
      have hall : ∀ e ∈ shortEscapes, e.2 ≠ .ofChar 'u' := by decide
      exact if_neg fun h => hall _ (OrderedDict.mem_of_lookup hletter) h.2
    | none =>
      dsimp only
      have hlt := c.lt
      split_ifs with hplain hbasic
      · rw [lowSurrogate?_escapeUnit hbasic, if_neg hlow]
      · rw [List.append_assoc, lowSurrogate?_escapeUnit (by omega), if_neg (by omega)]
      · cases tail with
        | nil => rfl
        | cons d tail => exact if_neg fun h => (ne_of_not_short hletter).2 h.1

/-- What escaped text is read as: a high surrogate and the low one after it
make one character. -/
def rejoin : Str → Str
  | [] => []
  | [c] => [c]
  | c :: d :: rest =>
    if (0xd800 ≤ c.val ∧ c.val ≤ 0xdbff) ∧ 0xdc00 ≤ d.val ∧ d.val ≤ 0xdfff then
      codePoint (0x10000 + 1024 * (c.val - 0xd800) + (d.val - 0xdc00)) :: rejoin rest
    else c :: rejoin (d :: rest)

theorem rejoin_of_isText {s : Str} (hs : IsText s) : rejoin s = s := by
  fun_induction rejoin s with
  | case1 => rfl
  | case2 => rfl
  | case3 c d rest hpair =>
    have hc := hs c (by simp)
    simp only [CodePoint.isSurrogate, Bool.and_eq_false_iff, decide_eq_false_iff_not] at hc
    omega
  | case4 c d rest hpair ih => rw [ih fun e he => hs e (by simp [List.mem_cons.mp he])]

theorem length_escapeChar_pos (ascii : Bool) (c : CodePoint) : 0 < (escapeChar ascii c).length := by
  unfold escapeChar
  split
  · simp
  · split_ifs <;> simp [escapeUnit]

theorem escapeChar_surrogate {c : CodePoint} (h : 0xd800 ≤ c.val ∧ c.val ≤ 0xdfff) :
    escapeChar true c = escapeUnit c.val := by
  have hletter : OrderedDict.lookup c shortEscapes = none := by
    rw [OrderedDict.lookup_eq_none_iff]
    have hall : ∀ k ∈ shortEscapes.map Prod.fst, k.val < 0xd800 := by decide
    exact fun hmem => absurd (hall c hmem) (by omega)
  rw [escapeChar, hletter]
  dsimp only
  rw [if_pos (Or.inr ⟨rfl, by omega⟩), if_pos (by omega)]

theorem scanChars_written (ascii : Bool) {s : Str} (hs : ascii = true ∨ IsText s) (rest : Str)
    {fuel : Nat} (hfuel : s.length < fuel) :
    scanChars fuel (s.flatMap (escapeChar ascii) ++ .ofChar '"' :: rest) = some (rejoin s, rest) := by
  fun_induction rejoin s generalizing fuel with
  | case1 =>
    obtain ⟨fuel, rfl⟩ := Nat.exists_eq_add_one.mpr (by omega : 0 < fuel)
    rw [List.flatMap_nil, List.nil_append, scanChars, if_pos rfl]
  | case2 c =>
    rw [List.length_singleton] at hfuel
    obtain ⟨fuel, rfl⟩ := Nat.exists_eq_add_of_le' (by omega : 2 ≤ fuel)
    rw [List.flatMap_singleton, scanChars_escapeChar ascii c fun _ => by cases rest <;> rfl, scanChars,
      if_pos rfl]
    rfl
  | case3 c d rest' hpair ih =>
    simp only [List.length_cons] at hfuel
    obtain ⟨fuel, rfl⟩ := Nat.exists_eq_add_one.mpr (by omega : 0 < fuel)
    obtain rfl : ascii = true := hs.resolve_right fun h => by
      have hc := h c (by simp)
      simp only [CodePoint.isSurrogate, Bool.and_eq_false_iff, decide_eq_false_iff_not] at hc
      omega
    obtain ⟨hhigh, hlow⟩ := hpair
    rw [List.flatMap_cons, List.flatMap_cons, escapeChar_surrogate (by omega),
      escapeChar_surrogate (by omega), List.append_assoc, List.append_assoc]
    exact (scanChars_escape (scanEscape_pair hhigh hlow _) fuel).trans
      (by rw [ih (Or.inl rfl) (by omega)]; rfl)
  | case4 c d rest' hpair ih =>
    simp only [List.length_cons] at hfuel
    obtain ⟨fuel, rfl⟩ := Nat.exists_eq_add_one.mpr (by omega : 0 < fuel)
    have hlone : 0xd800 ≤ c.val ∧ c.val ≤ 0xdbff →
        lowSurrogate? ((d :: rest').flatMap (escapeChar ascii) ++ .ofChar '"' :: rest) = none := by
      refine fun hhigh => lowSurrogate?_written ascii ?_ rest
      rintro e he hlow
      obtain rfl : d = e := Option.some.inj he
      exact hpair ⟨hhigh, hlow⟩
    rw [List.flatMap_cons, List.append_assoc, scanChars_escapeChar ascii c hlone,
      ih (hs.imp id fun h e he => h e (List.mem_cons_of_mem _ he)) (by simp only [List.length_cons]; omega)]
    rfl

theorem length_le_flatMap (ascii : Bool) (s : Str) :
    s.length ≤ (s.flatMap (escapeChar ascii)).length := by
  induction s with
  | nil => simp
  | cons c s ih =>
    have := length_escapeChar_pos ascii c
    simp only [List.flatMap_cons, List.length_append, List.length_cons]
    omega

theorem scanString_written (ascii : Bool) {s : Str} (hs : ascii = true ∨ IsText s) (rest : Str) :
    scanString (s.flatMap (escapeChar ascii) ++ .ofChar '"' :: rest) = some (rejoin s, rest) := by
  refine scanChars_written ascii hs rest ?_
  have := length_le_flatMap ascii s
  simp only [List.length_append, List.length_cons]
  omega

theorem isText_escapeUnit (n : Nat) : IsText (escapeUnit n) := by
  refine (isText_str _).append ?_
  intro c hc
  simp only [List.mem_cons, List.not_mem_nil, or_false] at hc
  rcases hc with rfl | rfl | rfl | rfl <;> exact isSurrogate_ofChar _

theorem isText_escapeChar {ascii : Bool} {c : CodePoint} (hc : ascii = true ∨ c.isSurrogate = false) :
    IsText (escapeChar ascii c) := by
  unfold escapeChar
  split
  · rename_i letter hletter
    have hall : ∀ e ∈ shortEscapes, e.2.isSurrogate = false := by decide
    exact .cons (by decide) (.cons (hall _ (OrderedDict.mem_of_lookup hletter)) (by simp [IsText]))
  · split_ifs with hplain
    · exact isText_escapeUnit _
    · exact (isText_escapeUnit _).append (isText_escapeUnit _)
    · refine .cons (hc.elim ?_ id) (by simp [IsText])
      rintro rfl
      have hlt : c.val < 0xd800 := by
        by_contra hge
        exact hplain (Or.inr ⟨rfl, by omega⟩)
      simp only [CodePoint.isSurrogate, Bool.and_eq_false_iff, decide_eq_false_iff_not]
      omega

theorem writeString_append (ascii : Bool) (s tail : Str) : writeString ascii s ++ tail =
    .ofChar '"' :: (s.flatMap (escapeChar ascii) ++ .ofChar '"' :: tail) := by
  simp [writeString]

theorem isText_writeString {ascii : Bool} {s : Str} (hs : ascii = true ∨ IsText s) :
    IsText (writeString ascii s) := by
  refine .cons (by decide) (.append ?_ (.cons (by decide) (by simp [IsText])))
  intro c hc
  obtain ⟨d, hd, hc⟩ := List.mem_flatMap.mp hc
  exact isText_escapeChar (hs.imp id fun h => h d hd) c hc

/-- What is escaped is text, so a surrogate is in the text of a string as it is. -/
theorem isText_of_writeString {s : Str} (h : IsText (writeString false s)) : IsText s := by
  intro c hc
  have hescaped : ∀ d ∈ escapeChar false c, d.isSurrogate = false := by
    intro d hd
    exact h d (List.mem_cons_of_mem _ (List.mem_append_left _ (List.mem_flatMap_of_mem hc hd)))
  by_contra hsurrogate
  have hplain : escapeChar false c = [c] := by
    rw [Bool.not_eq_false] at hsurrogate
    have hlarge : 0xd800 ≤ c.val := by
      simp only [CodePoint.isSurrogate, Bool.and_eq_true, decide_eq_true_eq] at hsurrogate
      exact hsurrogate.1
    have hnone : OrderedDict.lookup c shortEscapes = none := by
      rw [Option.eq_none_iff_forall_not_mem]
      intro letter hletter
      have hsmall : ∀ escape ∈ shortEscapes, escape.1.val < 0xd800 := by decide
      exact absurd (hsmall _ (OrderedDict.mem_of_lookup hletter)) (Nat.not_lt.mpr hlarge)
    simp only [escapeChar, hnone]
    rw [if_neg]
    simp only [Bool.false_eq_true, false_and, or_false]
    omega
  rw [hplain] at hescaped
  exact hsurrogate (hescaped c (List.mem_singleton_self c))

/-! ## Numbers -/

/-- What may follow a value: the end of the text, a comma or a bracket. -/
def Ends (rest : Str) : Prop :=
  rest = [] ∨ ∃ c tail, rest = c :: tail ∧
    (c = .ofChar ',' ∨ c = .ofChar ']' ∨ c = .ofChar '\x7d')

theorem Ends.not_digit {rest : Str} (h : Ends rest) : rest.takeWhile isDigit = [] := by
  obtain rfl | ⟨c, tail, rfl, rfl | rfl | rfl⟩ := h <;> rfl

theorem dropWhile_of_takeWhile {rest : Str} (h : rest.takeWhile isDigit = []) :
    rest.dropWhile isDigit = rest := by
  have happend := List.takeWhile_append_dropWhile (p := isDigit) (l := rest)
  rwa [h, List.nil_append] at happend

theorem Ends.readFraction {rest : Str} (h : Ends rest) : readFraction rest = ([], rest) := by
  obtain rfl | ⟨c, tail, rfl, rfl | rfl | rfl⟩ := h <;> rfl

theorem Ends.readExponent {rest : Str} (h : Ends rest) : readExponent rest = ([], rest) := by
  obtain rfl | ⟨c, tail, rfl, rfl | rfl | rfl⟩ := h <;> rfl

theorem Ends.skipWhite {rest : Str} (h : Ends rest) : skipWhite rest = rest := by
  obtain rfl | ⟨c, tail, rfl, rfl | rfl | rfl⟩ := h <;> rfl

theorem digitChar_digit {d : Nat} (hd : d < 10) :
    isDigit (.ofChar (Nat.digitChar d)) = true ∧ (CodePoint.ofChar (Nat.digitChar d)).val - 48 = d := by
  have hall : ∀ d < 10, isDigit (.ofChar (Nat.digitChar d)) = true ∧
      (CodePoint.ofChar (Nat.digitChar d)).val - 48 = d := by decide
  exact hall d hd

theorem isDigit_decimal (n : Nat) : ∀ c ∈ decimal n, isDigit c = true := by
  intro c hc
  unfold decimal at hc
  split_ifs at hc with hn
  · obtain rfl := List.mem_singleton.mp hc
    rfl
  · simp only [List.map_map, List.mem_map, List.mem_reverse, Function.comp] at hc
    obtain ⟨d, hd, rfl⟩ := hc
    exact (digitChar_digit (Nat.digits_lt_base (by decide) hd)).1

theorem isText_decimal (n : Nat) : IsText (decimal n) := by
  intro c hc
  have hdigit := isDigit_decimal n c hc
  simp only [isDigit, Bool.and_eq_true, decide_eq_true_eq] at hdigit
  simp only [CodePoint.isSurrogate, Bool.and_eq_false_iff, decide_eq_false_iff_not]
  omega

theorem digitsValue_digits (ds : List Nat) (hds : ∀ d ∈ ds, d < 10) (start : Nat) :
    ((ds.reverse.map fun d => Nat.digitChar d).map .ofChar).foldl
      (fun n (c : CodePoint) => 10 * n + (c.val - 48)) start =
        start * 10 ^ ds.length + Nat.ofDigits 10 ds := by
  induction ds generalizing start with
  | nil => simp
  | cons d ds ih =>
    have hd := (digitChar_digit (hds d (by simp))).2
    rw [List.reverse_cons, List.map_append, List.map_append, List.foldl_append,
      ih fun e he => hds e (by simp [he])]
    simp only [List.map_cons, List.map_nil, List.foldl_cons, List.foldl_nil, hd, List.length_cons,
      pow_succ, Nat.ofDigits_cons]
    ring

theorem digitsValue_decimal (n : Nat) : digitsValue (decimal n) = n := by
  unfold decimal
  split_ifs with hn
  · subst hn
    rfl
  · have h := digitsValue_digits (Nat.digits 10 n)
      (fun d hd => Nat.digits_lt_base (by decide) hd) 0
    rw [Nat.zero_mul, Nat.zero_add, Nat.ofDigits_digits] at h
    exact h

theorem length_decimal_le_iff {n k : Nat} (hk : 1 ≤ k) : (decimal n).length ≤ k ↔ n < 10 ^ k := by
  unfold decimal
  split_ifs with hzero
  · subst hzero
    exact iff_of_true hk (Nat.pow_pos (by decide))
  · rw [List.length_map, List.length_map, List.length_reverse]
    exact Nat.digits_length_le_iff (by decide) n

/-- Only zero starts with the digit zero. -/
theorem decimal_cons (n : Nat) :
    ∃ c tail, decimal n = c :: tail ∧ isDigit c = true ∧ (c = .ofChar '0' → tail = []) := by
  unfold decimal
  split_ifs with hn
  · exact ⟨.ofChar '0', [], rfl, rfl, fun _ => rfl⟩
  · have hne : Nat.digits 10 n ≠ [] := Nat.digits_ne_nil_iff_ne_zero.mpr hn
    have hlast := Nat.getLast_digit_ne_zero 10 hn
    have hlt := Nat.digits_lt_base (by decide : 1 < 10) (List.getLast_mem hne)
    generalize hdigit : (Nat.digits 10 n).getLast hne = d at hlast hlt
    have hrev : (Nat.digits 10 n).reverse = d :: (Nat.digits 10 n).dropLast.reverse := by
      rw [← hdigit, ← List.reverse_concat, List.dropLast_concat_getLast]
    rw [hrev]
    refine ⟨_, _, rfl, (digitChar_digit hlt).1, ?_⟩
    intro hzero
    have hval := (digitChar_digit hlt).2
    simp only at hzero
    rw [hzero] at hval
    exact absurd hval.symm hlast

theorem readWhole_decimal (n : Nat) {rest : Str} (hrest : rest.takeWhile isDigit = []) :
    readWhole (decimal n ++ rest) = some (decimal n, rest) := by
  obtain ⟨c, tail, hdecimal, hc, hzero⟩ := decimal_cons n
  have hdigits := isDigit_decimal n
  rw [hdecimal] at hdigits ⊢
  rw [List.cons_append, readWhole]
  by_cases h0 : c = .ofChar '0'
  · rw [if_pos h0, hzero h0]
    rfl
  · have htail : ∀ d ∈ tail, isDigit d = true := fun d hd => hdigits d (by simp [hd])
    rw [if_neg h0, if_pos hc, List.takeWhile_append_of_pos htail, List.dropWhile_append_of_pos htail,
      hrest, dropWhile_of_takeWhile hrest, List.append_nil]

/-- The first character of a value's text: no white space, no closing bracket. -/
def Opens (c : CodePoint) : Prop := 0x20 < c.val ∧ c.val < 0x7d ∧ c.val ≠ 0x5d

instance : DecidablePred Opens := fun _ => inferInstanceAs (Decidable (_ ∧ _ ∧ _))

theorem Opens.of_digit {c : CodePoint} (h : isDigit c = true) : Opens c := by
  simp only [isDigit, Bool.and_eq_true, decide_eq_true_eq] at h
  exact ⟨by omega, by omega, by omega⟩

theorem Opens.skipWhite {c : CodePoint} (h : Opens c) (tail : Str) :
    skipWhite (c :: tail) = c :: tail := by
  have hwhite : isWhite c = false := by
    obtain ⟨hlow, -, -⟩ := h
    simp only [isWhite, Bool.or_eq_false_iff, decide_eq_false_iff_not]
    omega
  rw [JsonText.skipWhite, List.dropWhile_cons_of_neg (by simp [hwhite])]

theorem Opens.ne {c d : CodePoint} (h : Opens c) (hd : ¬ Opens d) : c ≠ d := by
  rintro rfl
  exact hd h

/-- A digit, or a minus sign and a digit. -/
def startsNumber : Str → Bool
  | [] => false
  | c :: rest => isDigit c || (c = .ofChar '-' && rest.head?.any isDigit)

theorem startsNumber_append {text : Str} (h : startsNumber text = true) (rest : Str) :
    startsNumber (text ++ rest) = true := by
  match text, h with
  | [c], h => simpa [startsNumber] using Or.inl (by simpa [startsNumber] using h)
  | c :: d :: text, h => exact h

theorem startsNumber_writeInt (n : Int) : startsNumber (writeInt n) = true := by
  cases n with
  | ofNat n =>
    obtain ⟨c, tail, hdecimal, hc, -⟩ := decimal_cons n
    simp [writeInt, hdecimal, startsNumber, hc]
  | negSucc n =>
    obtain ⟨c, tail, hdecimal, hc, -⟩ := decimal_cons (n + 1)
    simp [writeInt, hdecimal, startsNumber, hc]

theorem opens_of_startsNumber {text : Str} (h : startsNumber text = true) :
    ∃ c tail, text = c :: tail ∧ Opens c := by
  cases text with
  | nil => cases h
  | cons c tail =>
    simp only [startsNumber, Bool.or_eq_true, Bool.and_eq_true, decide_eq_true_eq] at h
    obtain hdigit | ⟨rfl, -⟩ := h
    · exact ⟨c, tail, rfl, .of_digit hdigit⟩
    · exact ⟨_, tail, rfl, by decide⟩

/-! ## Literals -/

theorem scanLiteral_word {word : Str} {value : Json} (h : (word, value) ∈ literals) (rest : Str) :
    scanLiteral (word ++ rest) = some (value, rest) := by
  simp only [literals, List.mem_cons, Prod.mk.injEq, List.not_mem_nil, or_false] at h
  obtain ⟨rfl, rfl⟩ | ⟨rfl, rfl⟩ | ⟨rfl, rfl⟩ | ⟨rfl, rfl⟩ | ⟨rfl, rfl⟩ | ⟨rfl, rfl⟩ := h <;> rfl

/-- A number is no literal. -/
theorem scanLiteral_number {text : Str} (h : startsNumber text = true) : scanLiteral text = none := by
  have hwords : ∀ entry ∈ literals, ∀ rest, startsNumber (entry.1 ++ rest) = false := by
    intro entry hentry rest
    simp only [literals, List.mem_cons, List.not_mem_nil, or_false] at hentry
    rcases hentry with rfl | rfl | rfl | rfl | rfl | rfl <;> rfl
  refine List.findSome?_eq_none_iff.mpr fun entry hentry => if_neg fun hprefix => ?_
  obtain ⟨rest, rfl⟩ := List.isPrefixOf_iff_prefix.mp hprefix
  rw [hwords entry hentry rest] at h
  cases h

/-! ## Objects -/

/-- Members with distinct keys are assigned in their order. -/
theorem objectOf_of_nodup {members : List (Str × Json)} (h : (members.map Prod.fst).Nodup) :
    objectOf members = .obj members := by
  suffices hfold : ∀ found : List (Str × Json), (∀ k ∈ members.map Prod.fst, k ∉ found.map Prod.fst) →
      members.foldl (fun found member => OrderedDict.assign member.1 member.2 found) found =
        found ++ members by
    rw [objectOf, hfold [] (by simp), List.nil_append]
  induction members with
  | nil => simp
  | cons member members ih =>
    intro found hfound
    simp only [List.map_cons, List.nodup_cons] at h
    have habsent := OrderedDict.lookup_eq_none_iff.mpr (hfound member.1 (by simp))
    rw [List.foldl_cons, OrderedDict.assign_of_absent _ habsent, ih h.2]
    · simp
    · intro k hk
      simp only [List.map_append, List.map_cons, List.map_nil, List.mem_append, List.mem_singleton,
        not_or]
      exact ⟨hfound k (by simp [hk]), fun heq => h.1 (heq ▸ hk)⟩

theorem insertMember_perm (kv : Str × Json) (members : List (Str × Json)) :
    (Json.insertMember kv members).Perm (kv :: members) := by
  induction members with
  | nil => exact .refl _
  | cons m rest ih =>
    unfold Json.insertMember
    split_ifs
    · exact .refl _
    · exact (ih.cons m).trans (.swap kv m rest)

theorem sortedMembers_perm (members : List (Str × Json)) :
    (Json.sortedMembers members).Perm (members.map fun m => (m.1, m.2.sorted)) := by
  induction members with
  | nil => exact .refl _
  | cons m rest ih => exact (insertMember_perm _ _).trans (ih.cons _)

/-! ## Surrogates in a value -/

mutual

/-- The value the text of a value is read as. -/
def rejoined : Json → Json
  | .str s => .str (rejoin s)
  | .arr items => .arr (rejoinedItems items)
  | .obj members => .obj (rejoinedMembers members)
  | .null => .null
  | .bool b => .bool b
  | .int n => .int n
  | .float x => .float x

def rejoinedItems : List Json → List Json
  | [] => []
  | item :: rest => rejoined item :: rejoinedItems rest

def rejoinedMembers : List (Str × Json) → List (Str × Json)
  | [] => []
  | (key, value) :: rest => (key, rejoined value) :: rejoinedMembers rest

end

theorem rejoinedItems_eq_map (items : List Json) : rejoinedItems items = items.map rejoined := by
  induction items with
  | nil => rfl
  | cons item rest ih => simp [rejoinedItems, ih]

theorem rejoinedMembers_eq_map (members : List (Str × Json)) :
    rejoinedMembers members = members.map fun m => (m.1, rejoined m.2) := by
  induction members with
  | nil => rfl
  | cons m rest ih => simp [rejoinedMembers, ih]

theorem insertMember_rejoined (key : Str) (value : Json) (members : List (Str × Json)) :
    Json.insertMember (key, rejoined value) (members.map fun m => (m.1, rejoined m.2)) =
      (Json.insertMember (key, value) members).map fun m => (m.1, rejoined m.2) := by
  induction members with
  | nil => rfl
  | cons m rest ih => by_cases hle : Str.le key m.1 <;> simp [Json.insertMember, hle, ih]

section
variable [Library]

theorem scanUnsigned_decimal (negative : Bool) (n : Nat) {rest : Str} (hrest : Ends rest) :
    scanUnsigned negative (decimal n ++ rest) = some (.int (if negative then -n else n), rest) := by
  simp only [scanUnsigned, readWhole_decimal n hrest.not_digit, hrest.readFraction, hrest.readExponent,
    and_self, if_true, digitsValue_decimal]

theorem scanNumber_writeInt (n : Int) {rest : Str} (hrest : Ends rest) :
    scanNumber (writeInt n ++ rest) = some (.int n, rest) := by
  cases n with
  | ofNat n =>
    obtain ⟨c, tail, hdecimal, hc, -⟩ := decimal_cons n
    have hsign : c ≠ .ofChar '-' := by
      rintro rfl
      cases hc
    have h := scanUnsigned_decimal false n hrest
    simp only [writeInt, hdecimal, List.cons_append] at h ⊢
    rw [scanNumber, if_neg hsign, h]
    rfl
  | negSucc n =>
    have h := scanUnsigned_decimal true (n + 1) hrest
    rw [writeInt, List.cons_append, scanNumber, if_pos rfl, h]
    rfl

/-! ## Values -/

/-- The text of a float reads back as the float. -/
structure FloatReads (q : Rat) : Prop where
  isText : IsText (Library.floatRepr q)
  starts : startsNumber (Library.floatRepr q) = true
  scan : ∀ rest, Ends rest →
    scanNumber (Library.floatRepr q ++ rest) = some (.float (.finite q), rest)

/-- The values whose text can be read; with `ascii` surrogates may stand in a string. -/
inductive Writable (ascii : Bool) : Json → Prop
  | null : Writable ascii .null
  | bool (b : Bool) : Writable ascii (.bool b)
  | int (n : Int) : Writable ascii (.int n)
  | finite {q : Rat} (h : FloatReads q) : Writable ascii (.float (.finite q))
  | infinite (negative : Bool) : Writable ascii (.float (.infinite negative))
  | nan : Writable ascii (.float .nan)
  | str {s : Str} (h : ascii = true ∨ IsText s) : Writable ascii (.str s)
  | arr {items : List Json} (h : ∀ item ∈ items, Writable ascii item) : Writable ascii (.arr items)
  | obj {members : List (Str × Json)} (hkeys : ∀ member ∈ members, IsText member.1)
      (h : ∀ member ∈ members, Writable ascii member.2) (hnodup : (members.map Prod.fst).Nodup) :
      Writable ascii (.obj members)

theorem write_opens (ascii : Bool) {value : Json} (h : Writable ascii value) :
    ∃ c tail, write ascii value = c :: tail ∧ Opens c := by
  cases h with
  | null => exact ⟨.ofChar 'n', _, by rw [write]; rfl, by decide⟩
  | bool b =>
    cases b
    · exact ⟨.ofChar 'f', _, by rw [write]; rfl, by decide⟩
    · exact ⟨.ofChar 't', _, by rw [write]; rfl, by decide⟩
  | int n =>
    rw [write]
    exact opens_of_startsNumber (startsNumber_writeInt n)
  | finite h =>
    rw [write]
    exact opens_of_startsNumber h.starts
  | infinite negative =>
    cases negative
    · exact ⟨.ofChar 'I', _, by rw [write, writeFloat]; rfl, by decide⟩
    · exact ⟨.ofChar '-', _, by rw [write, writeFloat]; rfl, by decide⟩
  | nan => exact ⟨.ofChar 'N', _, by rw [write, writeFloat]; rfl, by decide⟩
  | str h => exact ⟨.ofChar '"', _, by rw [write, writeString], by decide⟩
  | @arr items h => cases items <;> exact ⟨.ofChar '[', _, by rw [write]; try rfl, by decide⟩
  | @obj members hkeys h hnodup =>
    cases members <;> exact ⟨.ofChar '\x7b', _, by rw [write]; try rfl, by decide⟩

/-- A scalar that is no string is a literal or a number. -/
theorem scanValue_scalar {fuel : Nat} {c : CodePoint} {tail : Str} (hfuel : 0 < fuel)
    (hc : c ≠ .ofChar '"' ∧ c ≠ .ofChar '\x7b' ∧ c ≠ .ofChar '[') :
    scanValue fuel (c :: tail) = (scanLiteral (c :: tail)).or (scanNumber (c :: tail)) := by
  obtain ⟨fuel, rfl⟩ := Nat.exists_eq_add_one.mpr hfuel
  rw [scanValue, if_neg hc.1, if_neg hc.2.1, if_neg hc.2.2]

theorem scanValue_word {fuel : Nat} {word : Str} {value : Json} (hfuel : 0 < fuel)
    (h : (word, value) ∈ literals) (rest : Str) :
    scanValue fuel (word ++ rest) = some (value, rest) := by
  have hscan := scanLiteral_word h rest
  simp only [literals, List.mem_cons, Prod.mk.injEq, List.not_mem_nil, or_false] at h
  obtain ⟨c, tail, hword, hc⟩ : ∃ c tail, word ++ rest = c :: tail ∧
      c ≠ .ofChar '"' ∧ c ≠ .ofChar '\x7b' ∧ c ≠ .ofChar '[' := by
    obtain ⟨rfl, -⟩ | ⟨rfl, -⟩ | ⟨rfl, -⟩ | ⟨rfl, -⟩ | ⟨rfl, -⟩ | ⟨rfl, -⟩ := h <;>
      exact ⟨_, _, rfl, by decide⟩
  rw [hword] at hscan ⊢
  rw [scanValue_scalar hfuel hc, hscan]
  rfl

theorem scanValue_number {fuel : Nat} {text : Str} (hfuel : 0 < fuel)
    (h : startsNumber text = true) : scanValue fuel text = scanNumber text := by
  have hliteral := scanLiteral_number h
  obtain ⟨c, tail, rfl, hc⟩ : ∃ c tail, text = c :: tail ∧
      c ≠ .ofChar '"' ∧ c ≠ .ofChar '\x7b' ∧ c ≠ .ofChar '[' := by
    have hquotes (rest : Str) : startsNumber (.ofChar '"' :: rest) = false ∧
      startsNumber (.ofChar '\x7b' :: rest) = false ∧ startsNumber (.ofChar '[' :: rest) = false :=
        ⟨rfl, rfl, rfl⟩
    cases text with
    | nil => cases h
    | cons c tail =>
      refine ⟨c, tail, rfl, ?_, ?_, ?_⟩ <;>
      · rintro rfl
        simp [hquotes] at h
  rw [scanValue_scalar hfuel hc, hliteral]
  rfl

/-- The text of `value`, followed by anything a value may be followed by, reads
back as `value`. -/
def Reads (ascii : Bool) (value : Json) : Prop :=
  ∀ (fuel : Nat) (rest : Str), Ends rest → 2 * (write ascii value).length ≤ fuel →
    scanValue fuel (write ascii value ++ rest) = some (rejoined value, rest)

theorem write_pos (ascii : Bool) {value : Json} (h : Writable ascii value) :
    0 < (write ascii value).length := by
  obtain ⟨c, tail, hwrite, -⟩ := write_opens ascii h
  rw [hwrite]
  exact Nat.succ_pos _

theorem skipWhite_write (ascii : Bool) {value : Json} (h : Writable ascii value) (rest : Str) :
    skipWhite (write ascii value ++ rest) = write ascii value ++ rest := by
  obtain ⟨c, tail, hwrite, hc⟩ := write_opens ascii h
  rw [hwrite]
  exact hc.skipWhite _

theorem ends_writeItems (ascii : Bool) (items : List Json) (rest : Str) :
    Ends (writeItems ascii items ++ rest) := by
  cases items <;> exact Or.inr ⟨_, _, by rw [writeItems]; rfl, by decide⟩

theorem ends_writeMembers (ascii : Bool) (members : List (Str × Json)) (rest : Str) :
    Ends (writeMembers ascii members ++ rest) := by
  cases members <;> exact Or.inr ⟨_, _, by rw [writeMembers]; rfl, by decide⟩

theorem scanItems_write (ascii : Bool) {first : Json} {others : List Json}
    (h : ∀ item ∈ first :: others, Writable ascii item)
    (hreads : ∀ item ∈ first :: others, Reads ascii item) {fuel : Nat} (rest : Str)
    (hfuel : 2 * (write ascii first ++ writeItems ascii others).length ≤ fuel) :
    scanItems fuel (write ascii first ++ (writeItems ascii others ++ rest)) =
      some ((first :: others).map rejoined, rest) := by
  induction others generalizing first fuel with
  | nil =>
    have hpos := write_pos ascii (h first (by simp))
    rw [List.length_append] at hfuel
    obtain ⟨fuel, rfl⟩ := Nat.exists_eq_add_one.mpr (by omega : 0 < fuel)
    have hclose : (writeItems ascii []).length = 1 := by rw [writeItems]; rfl
    rw [scanItems, hreads first (by simp) fuel _ (ends_writeItems ascii [] rest) (by omega)]
    simp only [(ends_writeItems ascii [] rest).skipWhite]
    rw [writeItems]
    rfl
  | cons item others ih =>
    have hpos := write_pos ascii (h first (by simp))
    have hcomma : writeItems ascii (item :: others) =
        .ofChar ',' :: (write ascii item ++ writeItems ascii others) := by rw [writeItems]
    rw [hcomma, List.length_append, List.length_cons] at hfuel
    obtain ⟨fuel, rfl⟩ := Nat.exists_eq_add_one.mpr (by omega : 0 < fuel)
    have hrest := ends_writeItems ascii (item :: others) rest
    rw [scanItems, hreads first (by simp) fuel _ hrest (by omega)]
    simp only [hrest.skipWhite]
    rw [hcomma, List.cons_append, List.append_assoc]
    have hnext := skipWhite_write ascii (h item (by simp)) (writeItems ascii others ++ rest)
    have hitems : scanItems fuel (write ascii item ++ (writeItems ascii others ++ rest)) =
        some ((item :: others).map rejoined, rest) :=
      ih (fun i hi => h i (List.mem_cons_of_mem _ hi)) (fun i hi => hreads i (List.mem_cons_of_mem _ hi))
        (by omega)
    have hcomma : CodePoint.ofChar ',' ≠ .ofChar ']' := by decide
    simp only [hcomma, if_false, if_true, hnext, hitems, Option.map_some, List.map_cons]

/-- One member, up to the character after its value. -/
theorem scanMembers_member (ascii : Bool) {member : Str × Json} (hkey : IsText member.1)
    (hvalue : Writable ascii member.2) (hreads : Reads ascii member.2) {fuel : Nat} {c : CodePoint}
    {tail : Str} (htail : Ends (c :: tail)) (hfuel : 2 * (write ascii member.2).length ≤ fuel) :
    scanMembers (fuel + 1) (writeString ascii member.1 ++ .ofChar ':' :: (write ascii member.2 ++
      c :: tail)) =
      if c = .ofChar '\x7d' then some ([(member.1, rejoined member.2)], tail)
      else if c = .ofChar ',' then
        (scanMembers fuel (skipWhite tail)).map fun (members, tail) =>
          ((member.1, rejoined member.2) :: members, tail)
      else none := by
  have hcolon (tail : Str) : skipWhite (.ofChar ':' :: tail) = .ofChar ':' :: tail := rfl
  have hscan (tail : Str) : scanString (member.1.flatMap (escapeChar ascii) ++ .ofChar '"' :: tail) =
      some (member.1, tail) := by
    rw [scanString_written ascii (Or.inr hkey), rejoin_of_isText hkey]
  rw [writeString_append, scanMembers]
  simp only [ne_eq, not_true_eq_false, if_false, hscan, hcolon, skipWhite_write ascii hvalue,
    hreads fuel _ htail hfuel, htail.skipWhite]

theorem scanMembers_write (ascii : Bool) {first : Str × Json} {others : List (Str × Json)}
    (hkeys : ∀ member ∈ first :: others, IsText member.1)
    (h : ∀ member ∈ first :: others, Writable ascii member.2)
    (hreads : ∀ member ∈ first :: others, Reads ascii member.2) {fuel : Nat} (rest : Str)
    (hfuel : 2 * (write ascii first.2 ++ writeMembers ascii others).length ≤ fuel) :
    scanMembers fuel (writeString ascii first.1 ++ .ofChar ':' :: (write ascii first.2 ++
      (writeMembers ascii others ++ rest))) =
        some ((first :: others).map fun m => (m.1, rejoined m.2), rest) := by
  induction others generalizing first fuel with
  | nil =>
    have hpos := write_pos ascii (h first (by simp))
    have hclose : writeMembers ascii [] = [.ofChar '\x7d'] := by rw [writeMembers]; rfl
    have hrest := ends_writeMembers ascii [] rest
    rw [hclose] at hrest hfuel ⊢
    rw [List.length_append, List.length_singleton] at hfuel
    obtain ⟨fuel, rfl⟩ := Nat.exists_eq_add_one.mpr (by omega : 0 < fuel)
    rw [List.singleton_append] at hrest ⊢
    rw [scanMembers_member ascii (hkeys first (by simp)) (h first (by simp))
      (hreads first (by simp)) hrest (by omega), if_pos rfl]
    rfl
  | cons member others ih =>
    have hcomma : writeMembers ascii (member :: others) = .ofChar ',' :: (writeString ascii member.1 ++
        .ofChar ':' :: (write ascii member.2 ++ writeMembers ascii others)) := by rw [writeMembers]
    have hrest := ends_writeMembers ascii (member :: others) rest
    rw [hcomma] at hrest hfuel ⊢
    simp only [List.length_append, List.length_cons] at hfuel
    obtain ⟨fuel, rfl⟩ := Nat.exists_eq_add_one.mpr (by omega : 0 < fuel)
    have hmembers : scanMembers fuel (writeString ascii member.1 ++ .ofChar ':' ::
        (write ascii member.2 ++ (writeMembers ascii others ++ rest))) =
          some ((member :: others).map fun m => (m.1, rejoined m.2), rest) := by
      refine ih (fun m hm => hkeys m (List.mem_cons_of_mem _ hm))
        (fun m hm => h m (List.mem_cons_of_mem _ hm))
        (fun m hm => hreads m (List.mem_cons_of_mem _ hm)) ?_
      simp only [List.length_append]
      omega
    have hopen (tail : Str) : skipWhite (writeString ascii member.1 ++ tail) =
        writeString ascii member.1 ++ tail := by
      rw [writeString_append]
      rfl
    rw [List.cons_append] at hrest ⊢
    rw [scanMembers_member ascii (hkeys first (by simp)) (h first (by simp))
      (hreads first (by simp)) hrest (by omega), if_neg (by decide), if_pos rfl]
    simp only [List.append_assoc, List.cons_append, hopen, hmembers, Option.map_some, List.map_cons]

theorem reads_word (ascii : Bool) {word : Str} {value : Json} (hvalue : Writable ascii value)
    (hwrite : write ascii value = word) (h : (word, value) ∈ literals)
    (hsame : rejoined value = value) : Reads ascii value := by
  intro fuel rest _ hfuel
  have hpos := write_pos ascii hvalue
  rw [hwrite, hsame]
  exact scanValue_word (by omega) h rest

/-- **What is written is read back**, whatever follows it. -/
theorem reads_of_writable (ascii : Bool) {value : Json} (h : Writable ascii value) :
    Reads ascii value := by
  induction h with
  | null => exact reads_word ascii .null (by rw [write]) (by simp [literals]) (by rw [rejoined])
  | bool b =>
    cases b <;>
      exact reads_word ascii (.bool _) (by rw [write]) (by simp [literals]) (by rw [rejoined])
  | int n =>
    intro fuel rest hrest hfuel
    have hpos := write_pos ascii (.int n)
    rw [write, rejoined, ← scanNumber_writeInt n hrest]
    exact scanValue_number (by omega) (startsNumber_append (startsNumber_writeInt n) rest)
  | @finite q h =>
    intro fuel rest hrest hfuel
    have hpos := write_pos ascii (.finite h)
    rw [write, writeFloat, rejoined, ← h.scan rest hrest]
    exact scanValue_number (by omega) (startsNumber_append h.starts rest)
  | infinite negative =>
    cases negative <;>
      exact reads_word ascii (.infinite _) (by rw [write, writeFloat]) (by simp [literals]) (by rw [rejoined])
  | nan => exact reads_word ascii .nan (by rw [write, writeFloat]) (by simp [literals]) (by rw [rejoined])
  | @str s h =>
    intro fuel rest _ hfuel
    have hpos := write_pos ascii (.str h)
    obtain ⟨fuel, rfl⟩ := Nat.exists_eq_add_one.mpr (by omega : 0 < fuel)
    rw [write, writeString_append, scanValue, if_pos rfl, scanString_written ascii h, rejoined]
    rfl
  | @arr items h ih =>
    intro fuel rest _ hfuel
    have hpos := write_pos ascii (.arr h)
    obtain ⟨fuel, rfl⟩ := Nat.exists_eq_add_one.mpr (by omega : 0 < fuel)
    cases items with
    | nil => rw [write, rejoined]; rfl
    | cons first others =>
      obtain ⟨c, tail, hfirst, hc⟩ := write_opens ascii (h first (by simp))
      have hskip := skipWhite_write ascii (h first (by simp)) (writeItems ascii others ++ rest)
      have hhead : (write ascii first ++ (writeItems ascii others ++ rest)).head? ≠
          some (.ofChar ']') := by
        rw [hfirst]
        exact fun heq => hc.ne (by decide) (Option.some.inj heq)
      rw [write] at hfuel ⊢
      rw [List.length_cons] at hfuel
      have hitems := scanItems_write ascii h ih rest (by omega : _ ≤ fuel)
      rw [List.cons_append, List.append_assoc, scanValue, if_neg (by decide), if_neg (by decide),
        if_pos rfl, hskip, if_neg hhead, hitems, rejoined, rejoinedItems_eq_map]
      rfl
  | @obj members hkeys h hnodup ih =>
    intro fuel rest _ hfuel
    have hpos := write_pos ascii (.obj hkeys h hnodup)
    obtain ⟨fuel, rfl⟩ := Nat.exists_eq_add_one.mpr (by omega : 0 < fuel)
    cases members with
    | nil => rw [write, rejoined]; rfl
    | cons first others =>
      have hskip (tail : Str) : skipWhite (writeString ascii first.1 ++ tail) =
          writeString ascii first.1 ++ tail := by
        rw [writeString_append]
        rfl
      have hkeysNodup : (((first :: others).map fun m => (m.1, rejoined m.2)).map Prod.fst).Nodup := by
        rw [List.map_map]
        exact hnodup
      have hhead (tail : Str) : (writeString ascii first.1 ++ tail).head? ≠ some (.ofChar '\x7d') := by
        rw [writeString_append]
        exact fun heq => absurd (Option.some.inj heq) (by decide)
      rw [write] at hfuel ⊢
      simp only [List.length_cons, List.length_append] at hfuel
      have hmembers := scanMembers_write ascii hkeys h ih rest
        (by simp only [List.length_append]; omega : _ ≤ fuel)
      rw [List.cons_append, List.append_assoc, List.cons_append, List.append_assoc, scanValue,
        if_neg (by decide), if_pos rfl, hskip, if_neg (hhead _), hmembers, rejoined,
        rejoinedMembers_eq_map, ← objectOf_of_nodup hkeysNodup]
      rfl

theorem Writable.of_keys {ascii : Bool} {members : List (Str × Json)} {keys : List Str}
    (heq : members.map Prod.fst = keys) (hkeys : ∀ key ∈ keys, IsText key) (hnodup : keys.Nodup)
    (h : ∀ member ∈ members, Writable ascii member.2) : Writable ascii (.obj members) := by
  subst heq
  exact .obj (fun member hmember => hkeys member.1 (List.mem_map_of_mem hmember)) h hnodup

theorem Writable.of_sublist {ascii : Bool} {members : List (Str × Json)} {keys : List Str}
    (hsub : (members.map Prod.fst).Sublist keys) (hkeys : ∀ key ∈ keys, IsText key)
    (hnodup : keys.Nodup) (h : ∀ member ∈ members, Writable ascii member.2) :
    Writable ascii (.obj members) :=
  .of_keys rfl (fun key hkey => hkeys key (hsub.subset hkey)) (hnodup.sublist hsub) h

/-! ## Sorted values -/

theorem Writable.sorted {ascii : Bool} {value : Json} (h : Writable ascii value) :
    Writable ascii value.sorted := by
  induction h with
  | @arr items h ih =>
    rw [Json.sorted, Json.sortedItems_eq_map]
    exact .arr (by simpa using ih)
  | @obj members hkeys h hnodup ih =>
    have hperm := sortedMembers_perm members
    rw [Json.sorted]
    refine .obj (fun m hm => ?_) (fun m hm => ?_) ?_
    · obtain ⟨m', hm', rfl⟩ := List.mem_map.mp (hperm.subset hm)
      exact hkeys m' hm'
    · obtain ⟨m', hm', rfl⟩ := List.mem_map.mp (hperm.subset hm)
      exact ih m' hm'
    · rw [(hperm.map Prod.fst).nodup_iff, List.map_map]
      exact hnodup
  | null => simpa using Writable.null
  | bool b => simpa using Writable.bool b
  | int n => simpa using Writable.int n
  | finite h => simpa using Writable.finite h
  | infinite negative => simpa using Writable.infinite negative
  | nan => simpa using Writable.nan
  | str h => simpa using Writable.str h

theorem Writable.rejoined_sorted {ascii : Bool} {value : Json} (h : Writable ascii value) :
    rejoined value.sorted = (rejoined value).sorted := by
  induction h with
  | @arr items h ih =>
    rw [Json.sorted, rejoined, rejoined, Json.sorted, Json.sortedItems_eq_map, Json.sortedItems_eq_map,
      rejoinedItems_eq_map, rejoinedItems_eq_map, List.map_map, List.map_map]
    exact congrArg Json.arr (List.map_congr_left ih)
  | @obj members hkeys h hnodup ih =>
    rw [Json.sorted, rejoined, rejoined, Json.sorted, rejoinedMembers_eq_map, rejoinedMembers_eq_map]
    refine congrArg Json.obj ?_
    clear hkeys h hnodup
    induction members with
    | nil => rfl
    | cons m rest ihRest =>
      rw [List.map_cons, Json.sortedMembers, Json.sortedMembers, ← ih m (by simp),
        ← ihRest fun i hi => ih i (by simp [hi]), insertMember_rejoined]
  | str h => simp [rejoined]
  | _ => simp [rejoined]

theorem isText_write (ascii : Bool) {value : Json} (h : Writable ascii value) :
    IsText (write ascii value) := by
  induction h with
  | null => rw [write]; exact isText_str _
  | bool b => cases b <;> rw [write] <;> exact isText_str _
  | int n =>
    rw [write]
    cases n with
    | ofNat n => exact isText_decimal n
    | negSucc n => exact .cons (by decide) (isText_decimal _)
  | finite h => rw [write]; exact h.isText
  | infinite negative => cases negative <;> rw [write, writeFloat] <;> exact isText_str _
  | nan => rw [write]; exact isText_str _
  | str h => rw [write]; exact isText_writeString h
  | @arr items h ih =>
    have hitems : ∀ items : List Json, (∀ item ∈ items, IsText (write ascii item)) →
        IsText (writeItems ascii items) := by
      intro items hitems
      induction items with
      | nil => rw [writeItems]; exact isText_str _
      | cons item items ih =>
        rw [writeItems]
        exact .cons (by decide) ((hitems item (by simp)).append (ih fun i hi => hitems i (by simp [hi])))
    cases items with
    | nil => rw [write]; exact isText_str _
    | cons item items =>
      rw [write]
      exact .cons (by decide) ((ih item (by simp)).append (hitems items fun i hi => ih i (by simp [hi])))
  | @obj members hkeys h hnodup ih =>
    have hmembers : ∀ members : List (Str × Json), (∀ m ∈ members, IsText m.1) →
        (∀ m ∈ members, IsText (write ascii m.2)) → IsText (writeMembers ascii members) := by
      intro members hkeys hvalues
      induction members with
      | nil => rw [writeMembers]; exact isText_str _
      | cons m members ih =>
        rw [writeMembers]
        have hrest := ih (fun i hi => hkeys i (by simp [hi])) fun i hi => hvalues i (by simp [hi])
        exact .cons (by decide) ((isText_writeString (Or.inr (hkeys m (by simp)))).append
          (.cons (by decide) ((hvalues m (by simp)).append hrest)))
    cases members with
    | nil => rw [write]; exact isText_str _
    | cons m members =>
      rw [write]
      have hrest := hmembers members (fun i hi => hkeys i (by simp [hi])) fun i hi => ih i (by simp [hi])
      exact .cons (by decide) ((isText_writeString (Or.inr (hkeys m (by simp)))).append
        (.cons (by decide) ((ih m (by simp)).append hrest)))

theorem subset_writeItems (ascii : Bool) {items : List Json} {item : Json} (h : item ∈ items) :
    write ascii item ⊆ writeItems ascii items := by
  induction items with
  | nil => cases h
  | cons first rest ih =>
    rw [writeItems]
    intro c hc
    rcases List.mem_cons.mp h with rfl | h
    · exact List.mem_cons_of_mem _ (List.mem_append_left _ hc)
    · exact List.mem_cons_of_mem _ (List.mem_append_right _ (ih h hc))

theorem subset_writeMembers (ascii : Bool) {members : List (Str × Json)} {member : Str × Json}
    (h : member ∈ members) : write ascii member.2 ⊆ writeMembers ascii members := by
  induction members with
  | nil => cases h
  | cons first rest ih =>
    rw [writeMembers]
    intro c hc
    refine List.mem_cons_of_mem _ (List.mem_append_right _ (List.mem_cons_of_mem _ ?_))
    rcases List.mem_cons.mp h with rfl | h
    · exact List.mem_append_left _ hc
    · exact List.mem_append_right _ (ih h hc)

theorem subset_write_arr (ascii : Bool) {items : List Json} {item : Json} (h : item ∈ items) :
    write ascii item ⊆ write ascii (.arr items) := by
  cases items with
  | nil => cases h
  | cons first rest =>
    rw [write]
    intro c hc
    rcases List.mem_cons.mp h with rfl | h
    · exact List.mem_cons_of_mem _ (List.mem_append_left _ hc)
    · exact List.mem_cons_of_mem _ (List.mem_append_right _ (subset_writeItems ascii h hc))

theorem subset_write_obj (ascii : Bool) {members : List (Str × Json)} {member : Str × Json}
    (h : member ∈ members) : write ascii member.2 ⊆ write ascii (.obj members) := by
  cases members with
  | nil => cases h
  | cons first rest =>
    rw [write]
    intro c hc
    refine List.mem_cons_of_mem _ (List.mem_append_right _ (List.mem_cons_of_mem _ ?_))
    rcases List.mem_cons.mp h with rfl | h
    · exact List.mem_append_left _ hc
    · exact List.mem_append_right _ (subset_writeMembers ascii h hc)

/-- A value whose unescaped text could be encoded. -/
theorem Writable.of_isText {value : Json} (h : Writable true value)
    (htext : IsText (write false value)) : Writable false value := by
  induction h with
  | null => exact .null
  | bool b => exact .bool b
  | int n => exact .int n
  | finite h => exact .finite h
  | infinite negative => exact .infinite negative
  | nan => exact .nan
  | str h =>
    rw [write] at htext
    exact .str (Or.inr (isText_of_writeString htext))
  | @arr items h ih =>
    refine .arr fun item hitem => ih item hitem fun c hc => ?_
    exact htext c (subset_write_arr false hitem hc)
  | @obj members hkeys h hnodup ih =>
    refine .obj hkeys (fun member hmember => ih member hmember fun c hc => ?_) hnodup
    exact htext c (subset_write_obj false hmember hc)

/-- Without escapes there is nothing to join. -/
theorem Writable.rejoined {value : Json} (h : Writable false value) : rejoined value = value := by
  induction h with
  | str h => rw [JsonText.rejoined, rejoin_of_isText (h.resolve_left (by simp))]
  | @arr items h ih =>
    rw [JsonText.rejoined, rejoinedItems_eq_map, List.map_congr_left ih, List.map_id']
  | @obj members hkeys h hnodup ih =>
    have hmembers : ∀ member ∈ members, (member.1, JsonText.rejoined member.2) = member :=
      fun member hmember => Prod.ext rfl (ih member hmember)
    rw [JsonText.rejoined, rejoinedMembers_eq_map, List.map_congr_left hmembers, List.map_id']
  | _ => rw [JsonText.rejoined]

end

/-- The whole numbers of the library for fixed inputs. -/
theorem floatReads_natCast (n : Nat) :
    letI := asciiLibrary
    FloatReads (n : Rat) := by
  let _ := asciiLibrary
  have hrepr : Library.floatRepr (n : Rat) = decimal n ++ str ".0" := by
    have hnum : (n : Rat).num.toNat = n := by simp
    have htext : Library.floatRepr (n : Rat) = decimal (n : Rat).num.toNat ++ str ".0" := rfl
    rw [htext, hnum]
  have hdigits := isDigit_decimal n
  have hvalue : Library.floatOfStr (decimal n ++ str ".0") = some (.finite n) := by
    have hwhole : (decimal n ++ str ".0").takeWhile (·.val ≠ 46) = decimal n := by
      rw [List.takeWhile_append_of_pos]
      · exact List.append_nil _
      · intro c hc
        have hdigit := hdigits c hc
        simp only [isDigit, Bool.and_eq_true, decide_eq_true_eq] at hdigit
        simp only [ne_eq, decide_eq_true_eq]
        omega
    have hfold := digitsValue_decimal n
    have htext : Library.floatOfStr (decimal n ++ str ".0") =
        some (.finite (digitsValue ((decimal n ++ str ".0").takeWhile (·.val ≠ 46)) : Nat)) := rfl
    rw [htext, hwhole, hfold]
  constructor
  · rw [hrepr]
    exact (isText_decimal n).append (isText_str _)
  · rw [hrepr]
    exact startsNumber_append (startsNumber_writeInt n) _
  · intro rest hrest
    obtain ⟨c, tail, hdecimal, hc, -⟩ := decimal_cons n
    have hsign : c ≠ .ofChar '-' := by
      rintro rfl
      cases hc
    have hwhole := readWhole_decimal n (rfl : (str ".0" ++ rest).takeWhile isDigit = [])
    have hfraction : readFraction (str ".0" ++ rest) = (str ".0", rest) := by
      have htake : (.ofChar '0' :: rest).takeWhile isDigit = [.ofChar '0'] :=
        congrArg (CodePoint.ofChar '0' :: ·) hrest.not_digit
      have hdrop : (.ofChar '0' :: rest).dropWhile isDigit = rest :=
        dropWhile_of_takeWhile hrest.not_digit
      have htext : str ".0" ++ rest = .ofChar '.' :: .ofChar '0' :: rest := rfl
      rw [htext, readFraction, htake, hdrop, if_pos ⟨rfl, by decide⟩]
      rfl
    have hscan : scanUnsigned false (decimal n ++ (str ".0" ++ rest)) = some (.float (.finite n), rest) := by
      simp only [scanUnsigned, hwhole, hfraction, hrest.readExponent]
      rw [if_neg (by decide)]
      simp [hvalue]
    rw [hrepr, List.append_assoc, hdecimal, List.cons_append, scanNumber, if_neg hsign]
    rw [hdecimal] at hscan
    exact hscan

end JsonText

section
variable [Library]
open JsonText

/-- The one reading of a written text. -/
theorem loads_write (ascii : Bool) {value : Json} (h : Writable ascii value) {data : Bytes}
    (hdata : encodeUtf8 (write ascii value) = some data) : loads data = some (rejoined value) := by
  obtain ⟨c, tail, hwrite, hc⟩ := write_opens ascii h
  have hbom : (write ascii value).head? ≠ some (.ofChar '\uFEFF') := by
    rw [hwrite]
    exact fun heq => hc.ne (by decide) (Option.some.inj heq)
  have hskip := skipWhite_write ascii h []
  have hscan := reads_of_writable ascii h (2 * (write ascii value).length + 1) [] (Or.inl rfl) (by omega)
  rw [List.append_nil] at hskip hscan
  simp only [loads, decodeUtf8_eq_some_iff.mpr hdata, hbom, if_false, hskip, hscan]
  rfl

/-- Reading a text undoes writing it, up to the surrogates it joins. -/
theorem loads_dumps {value : Json} (h : Writable true value) :
    loads (dumps value) = some (rejoined value.sorted) := by
  obtain ⟨data, hdata⟩ := encodeUtf8_of_isText (isText_write true h.sorted)
  have hdumps : dumps value = data := by rw [dumps, hdata]; rfl
  rw [hdumps]
  exact loads_write true h.sorted hdata

theorem roundTrips_of_writable {value : Json} (h : Writable true value)
    (hsame : rejoined value = value) : RoundTrips value := by
  rw [RoundTrips, loads_dumps h, h.rejoined_sorted, hsame]

theorem loads_dumpsUnicode {value : Json} (h : Writable false value) :
    ∃ data, dumpsUnicode value = some data ∧ loads data = some (rejoined value.sorted) := by
  obtain ⟨data, hdata⟩ := encodeUtf8_of_isText (isText_write false h.sorted)
  exact ⟨data, hdata, loads_write false h.sorted hdata⟩

end

end Litecast
