import Litecast.Python

/-! `int(text, 16)` and `bytes.fromhex` on the texts of digests. -/

namespace Litecast

/-! ## `int(text, 16)` -/

section
variable [Library]

/-- How `int` reads one character: white space and decimal digits of any
script count as their ASCII forms. -/
def toAscii (c : CodePoint) : CodePoint :=
  if c.val < 127 then c
  else if Library.unicodeSpace c then .ofChar ' '
  else match Library.unicodeDecimal c with
    | some d => .ofChar (Nat.digitChar d.val)
    | none => .ofChar '?'

def asciiForm (s : Str) : Str := if s.all (·.val < 128) then s else s.map toAscii

end

/-- Digits with single underscores between them. -/
def underscoredDigits : Str → Bool
  | [] => false
  | [c] => c.hexValue?.isSome
  | c :: d :: rest =>
    c.hexValue?.isSome &&
      if d = .ofChar '_' then underscoredDigits rest else underscoredDigits (d :: rest)

def stripSpaces (s : Str) : Str :=
  ((s.dropWhile (·.asciiSpace)).reverse.dropWhile (·.asciiSpace)).reverse

def stripSign : Str → Str
  | c :: rest => if c = .ofChar '+' ∨ c = .ofChar '-' then rest else c :: rest
  | [] => []

/-- `0x` and one underscore after it. -/
def stripBase : Str → Str
  | c :: d :: rest =>
    if c = .ofChar '0' ∧ (d = .ofChar 'x' ∨ d = .ofChar 'X') then
      match rest with
      | e :: tail => if e = .ofChar '_' then tail else e :: tail
      | [] => []
    else c :: d :: rest
  | s => s

/-- `int(text, 16)` does not raise. -/
def isHexInt [Library] (text : Str) : Bool :=
  underscoredDigits (stripBase (stripSign (stripSpaces (asciiForm text))))

/-! ## `repr` -/

/-- The last digits of a number in hexadecimal. -/
def hexDigits : Nat → Nat → Str
  | 0, _ => []
  | width + 1, n => hexDigits width (n / 16) ++ [hexDigit n]

def reprChar [Library] (quote c : CodePoint) : Str :=
  if c = quote ∨ c = .ofChar '\\' then [.ofChar '\\', c]
  else if c = .ofChar '\t' then str "\\t"
  else if c = .ofChar '\n' then str "\\n"
  else if c = .ofChar '\r' then str "\\r"
  else if (0x20 ≤ c.val ∧ c.val < 0x7f) ∨ (0x80 ≤ c.val ∧ Library.unicodePrintable c) then [c]
  else if c.val < 0x100 then str "\\x" ++ hexDigits 2 c.val
  else if c.val < 0x10000 then str "\\u" ++ hexDigits 4 c.val
  else str "\\U" ++ hexDigits 8 c.val

/-- `repr(s)`: in single quotes, unless these are in it and double ones are not. -/
def reprStr [Library] (s : Str) : Str :=
  let quote : CodePoint :=
    if .ofChar '\x27' ∈ s ∧ .ofChar '"' ∉ s then .ofChar '"' else .ofChar '\x27'
  quote :: (s.flatMap (reprChar quote) ++ [quote])

/-! ## Digests are hexadecimal -/

theorem hexValue_hexDigit (n : Nat) : (hexDigit n).hexValue? = some (n % 16) := by
  have h : ∀ m < 16, (CodePoint.ofChar (Nat.digitChar m)).hexValue? = some m := by decide
  exact h _ (Nat.mod_lt _ (by decide))

theorem hex_length (b : Bytes) : (hex b).length = 2 * b.length := by
  induction b with
  | nil => rfl
  | cons x rest ih =>
    simp only [hex, List.flatMap_cons, List.length_append, List.length_cons] at ih ⊢
    simp only [ih, List.length_nil]
    omega

theorem length_hexdigest [Library] (data : Bytes) : (hexdigest data).length = 64 := by
  rw [hexdigest, Digest.hex, hex_length, (blake3 data).length_eq]

/-! A string of hexadecimal digits passes through every step of `int`. -/

def CodePoint.isHexDigit (c : CodePoint) : Bool := c.hexValue?.isSome

theorem CodePoint.isHexDigit_cases {c : CodePoint} (h : c.isHexDigit = true) :
    (48 ≤ c.val ∧ c.val ≤ 57) ∨ (97 ≤ c.val ∧ c.val ≤ 102) ∨ (65 ≤ c.val ∧ c.val ≤ 70) := by
  unfold isHexDigit hexValue? at h
  split_ifs at h with h1 h2 h3
  exacts [Or.inl h1, Or.inr (Or.inl h2), Or.inr (Or.inr h3), absurd h (by simp)]

theorem CodePoint.ne_of_isHexDigit {c : CodePoint} (h : c.isHexDigit = true) {ch : Char}
    (hch : (CodePoint.ofChar ch).isHexDigit = false) : c ≠ .ofChar ch := by
  rintro rfl
  simp [hch] at h

theorem CodePoint.not_space_of_isHexDigit {c : CodePoint} (h : c.isHexDigit = true) :
    c.asciiSpace = false := by
  have := CodePoint.isHexDigit_cases h
  simp only [asciiSpace, Bool.or_eq_false_iff, Bool.and_eq_false_iff, decide_eq_false_iff_not]
  omega

theorem dropWhile_of_none {α : Type} {p : α → Bool} {l : List α} (h : ∀ a ∈ l, p a = false) :
    l.dropWhile p = l := by
  cases l with
  | nil => rfl
  | cons a rest => rw [List.dropWhile_cons_of_neg (by simp [h a])]

theorem underscoredDigits_of_digits {s : Str} (hne : s ≠ [])
    (hs : ∀ c ∈ s, c.isHexDigit = true) : underscoredDigits s = true := by
  induction s with
  | nil => exact absurd rfl hne
  | cons c rest ih =>
    cases rest with
    | nil => exact hs c (by simp)
    | cons d rest =>
      have hd : d ≠ .ofChar '_' := CodePoint.ne_of_isHexDigit (hs d (by simp)) rfl
      have hc : c.hexValue?.isSome = true := hs c (by simp)
      rw [underscoredDigits, if_neg hd, hc, Bool.true_and]
      exact ih (by simp) (fun e he => hs e (by simp [he]))

theorem stripped_of_digits [Library] {s : Str} (hs : ∀ c ∈ s, c.isHexDigit = true) :
    asciiForm s = s ∧ stripSpaces s = s ∧ stripSign s = s := by
  refine ⟨?_, ?_, ?_⟩
  · rw [asciiForm, if_pos]
    simp only [List.all_eq_true, decide_eq_true_eq]
    intro c hc
    have := CodePoint.isHexDigit_cases (hs c hc)
    omega
  · have hspace : ∀ c ∈ s, c.asciiSpace = false :=
      fun c hc => CodePoint.not_space_of_isHexDigit (hs c hc)
    rw [stripSpaces, dropWhile_of_none hspace, dropWhile_of_none (by simpa using hspace),
      List.reverse_reverse]
  · cases s with
    | nil => rfl
    | cons c rest =>
      have hc := hs c (by simp)
      rw [stripSign, if_neg]
      rintro (h | h)
      exacts [CodePoint.ne_of_isHexDigit hc rfl h, CodePoint.ne_of_isHexDigit hc rfl h]

theorem stripBase_of_digits {s : Str} (hs : ∀ c ∈ s, c.isHexDigit = true) : stripBase s = s := by
  match s, hs with
  | [], _ => rfl
  | [_], _ => rfl
  | c :: d :: rest, hs =>
    have hd := hs d (by simp)
    have hx : ¬ (c = .ofChar '0' ∧ (d = .ofChar 'x' ∨ d = .ofChar 'X')) := by
      rintro ⟨-, h | h⟩
      exacts [CodePoint.ne_of_isHexDigit hd rfl h, CodePoint.ne_of_isHexDigit hd rfl h]
    simp only [stripBase, hx, if_false]

theorem isHexInt_of_digits [Library] {s : Str} (hne : s ≠ [])
    (hs : ∀ c ∈ s, c.isHexDigit = true) : isHexInt s = true := by
  obtain ⟨hascii, hspaces, hsign⟩ := stripped_of_digits hs
  rw [isHexInt, hascii, hspaces, hsign, stripBase_of_digits hs]
  exact underscoredDigits_of_digits hne hs

theorem hex_isHexDigit (b : Bytes) : ∀ c ∈ hex b, c.isHexDigit = true := by
  intro c hc
  obtain ⟨x, -, hx⟩ := List.mem_flatMap.mp hc
  have hdigit (n : Nat) : (hexDigit n).isHexDigit = true := by
    rw [CodePoint.isHexDigit, hexValue_hexDigit]; rfl
  rcases List.mem_cons.mp hx with rfl | hx
  · exact hdigit _
  · rw [List.mem_singleton] at hx
    rw [hx]
    exact hdigit _

theorem hexDigit_not_space (n : Nat) : (hexDigit n).asciiSpace = false := by
  have h : ∀ m < 16, (CodePoint.ofChar (Nat.digitChar m)).asciiSpace = false := by decide
  exact h _ (Nat.mod_lt _ (by decide))

/-- `bytes.fromhex(data.hex()) == data` -/
theorem fromHex_hex (b : Bytes) : fromHex? (hex b) = some b := by
  induction b with
  | nil => rfl
  | cons x rest ih =>
    have hx : UInt8.ofNat (16 * (x.toNat / 16 % 16) + x.toNat % 16 % 16) = x := by
      have hlt := x.toNat_lt
      have : 16 * (x.toNat / 16 % 16) + x.toNat % 16 % 16 = x.toNat := by omega
      rw [this, UInt8.ofNat_toNat]
    have hcons : hex (x :: rest) = hexDigit (x.toNat / 16) :: hexDigit (x.toNat % 16) :: hex rest := by
      simp [hex]
    simp only [hcons, fromHex?, hexDigit_not_space, Bool.false_eq_true, if_false,
      hexValue_hexDigit, ih, hx]

theorem asciiLower_hex (data : Bytes) : asciiLower (hex data) = hex data := by
  have hdigit : ∀ n, asciiLower [hexDigit n] = [hexDigit n] := by
    intro n
    have hsmall : ∀ m < 16, asciiLower [hexDigit m] = [hexDigit m] := by decide
    have hmod : hexDigit n = hexDigit (n % 16) := by rw [hexDigit, hexDigit, Nat.mod_mod]
    rw [hmod]
    exact hsmall _ (Nat.mod_lt n (by decide))
  refine (List.map_congr_left fun c hc => ?_).trans (List.map_id _)
  obtain ⟨byte, -, hbyte⟩ := List.mem_flatMap.mp hc
  simp only [List.mem_cons, List.not_mem_nil, or_false] at hbyte
  rcases hbyte with rfl | rfl
  · exact (List.cons.inj (hdigit _)).1
  · exact (List.cons.inj (hdigit _)).1

end Litecast
