import Litecast.JsonRoundTrip

/-! How many bytes the JSON text of a value takes. Escaping makes a byte of
UTF-8 into six at most, with either setting of `ensure_ascii`. -/

namespace Litecast

namespace CodePoint

/-- The bytes of this code point in UTF-8. -/
def utf8Size (c : CodePoint) : Nat :=
  if c.val < 0x80 then 1 else if c.val < 0x800 then 2 else if c.val < 0x10000 then 3 else 4

theorem one_le_utf8Size (c : CodePoint) : 1 ≤ c.utf8Size := by
  unfold utf8Size
  split_ifs <;> omega

theorem utf8Size_le (c : CodePoint) : c.utf8Size ≤ 4 := by
  unfold utf8Size
  split_ifs <;> omega

theorem utf8Size_of_lt {c : CodePoint} (h : c.val < 0x80) : c.utf8Size = 1 := if_pos h

theorem utf8Size_of_toChar {c : CodePoint} {ch : Char} (h : c.toChar? = some ch) :
    (String.utf8EncodeChar ch).length = c.utf8Size := by
  have hval : c.val = ch.val.toNat := by rw [← ofChar_toChar h]; rfl
  rw [String.length_utf8EncodeChar, Char.utf8Size, utf8Size, hval]
  simp only [UInt32.le_iff_toNat_le, UInt32.toNat_ofNatLT]
  split_ifs <;> omega

end CodePoint

/-- The length of `text.encode("utf-8")`. -/
def utf8Size (s : Str) : Nat := (s.map CodePoint.utf8Size).sum

@[simp] theorem utf8Size_nil : utf8Size [] = 0 := rfl

@[simp] theorem utf8Size_cons (c : CodePoint) (s : Str) :
    utf8Size (c :: s) = c.utf8Size + utf8Size s := by
  rw [utf8Size, List.map_cons, List.sum_cons, utf8Size]

@[simp] theorem utf8Size_append (s t : Str) : utf8Size (s ++ t) = utf8Size s + utf8Size t := by
  rw [utf8Size, List.map_append, List.sum_append, utf8Size, utf8Size]

theorem length_of_encodeUtf8 {s : Str} {b : Bytes} (h : encodeUtf8 s = some b) :
    b.length = utf8Size s := by
  obtain ⟨chars, hchars, rfl⟩ := Option.map_eq_some_iff.mp h
  induction s generalizing chars with
  | nil =>
    obtain rfl : chars = [] := by simpa using hchars.symm
    rfl
  | cons c s ih =>
    simp only [List.mapM_cons, Option.bind_eq_bind, Option.bind_eq_some_iff, Option.pure_def,
      Option.some.injEq] at hchars
    obtain ⟨ch, hch, rest, hrest, rfl⟩ := hchars
    have htail := ih rest hrest (by rw [encodeUtf8, hrest, Option.map_some])
    rw [List.flatMap_cons, List.length_append, CodePoint.utf8Size_of_toChar hch, htail,
      utf8Size_cons]

/-- A code point takes four bytes at most. -/
theorem utf8Size_le_length (s : Str) : utf8Size s ≤ 4 * s.length := by
  induction s with
  | nil => exact Nat.le_refl _
  | cons c s ih =>
    have := c.utf8Size_le
    rw [utf8Size_cons, List.length_cons]
    omega

theorem utf8Size_of_ascii {s : Str} (h : ∀ c ∈ s, c.val < 0x80) : utf8Size s = s.length := by
  induction s with
  | nil => rfl
  | cons c s ih =>
    rw [utf8Size_cons, List.length_cons, CodePoint.utf8Size_of_lt (h c (by simp)),
      ih fun d hd => h d (by simp [hd])]
    omega

namespace JsonText

/-! ## Strings -/

theorem utf8Size_escapeUnit (n : Nat) : utf8Size (escapeUnit n) = 6 := by
  have hdigit (m : Nat) : (hexDigit m).utf8Size = 1 := by
    refine CodePoint.utf8Size_of_lt ?_
    have hm : m % 16 < 16 := Nat.mod_lt _ (by decide)
    unfold hexDigit
    interval_cases m % 16 <;> decide
  rw [escapeUnit, utf8Size_append]
  simp only [utf8Size_cons, hdigit, utf8Size_nil]
  rfl

theorem utf8Size_escapeChar_le (ascii : Bool) (c : CodePoint) :
    utf8Size (escapeChar ascii c) ≤ 6 * c.utf8Size := by
  have hpos := c.one_le_utf8Size
  unfold escapeChar
  split
  · next letter hletter =>
    have hsize : letter.utf8Size ≤ 4 := letter.utf8Size_le
    have hbackslash : (CodePoint.ofChar '\\').utf8Size = 1 := rfl
    rw [utf8Size_cons, utf8Size_cons, hbackslash, utf8Size_nil]
    omega
  · split_ifs with hescaped hbasic
    · rw [utf8Size_escapeUnit]
      omega
    · have hfour : c.utf8Size = 4 := by
        rw [CodePoint.utf8Size, if_neg (by omega), if_neg (by omega), if_neg hbasic]
      rw [utf8Size_append, utf8Size_escapeUnit, utf8Size_escapeUnit, hfour]
      decide
    · rw [utf8Size_cons, utf8Size_nil]
      omega

theorem utf8Size_writeString (ascii : Bool) (s : Str) :
    utf8Size (writeString ascii s) = utf8Size (s.flatMap (escapeChar ascii)) + 2 := by
  have hquote : (CodePoint.ofChar '"').utf8Size = 1 := rfl
  rw [writeString, utf8Size_cons, utf8Size_append, utf8Size_cons, utf8Size_nil, hquote]
  omega

theorem utf8Size_writeString_le (ascii : Bool) (s : Str) :
    utf8Size (writeString ascii s) ≤ 6 * utf8Size s + 2 := by
  have hescaped : utf8Size (s.flatMap (escapeChar ascii)) ≤ 6 * utf8Size s := by
    induction s with
    | nil => exact Nat.le_refl _
    | cons c s ih =>
      have := utf8Size_escapeChar_le ascii c
      rw [List.flatMap_cons, utf8Size_append, utf8Size_cons]
      omega
  rw [utf8Size_writeString]
  omega

/-- No character of these is escaped. -/
theorem utf8Size_writeString_hex (ascii : Bool) {s : Str} (h : ∀ c ∈ s, c.isHexDigit = true) :
    utf8Size (writeString ascii s) = s.length + 2 := by
  have hplain : ∀ c ∈ s, escapeChar ascii c = [c] ∧ c.val < 0x80 := by
    intro c hc
    have hcases := CodePoint.isHexDigit_cases (h c hc)
    have hne {ch : Char} (hch : (CodePoint.ofChar ch).isHexDigit = false) : CodePoint.ofChar ch ≠ c :=
      (CodePoint.ne_of_isHexDigit (h c hc) hch).symm
    have hshort : OrderedDict.lookup c shortEscapes = none := by
      simp only [shortEscapes, OrderedDict.lookup]
      rw [if_neg (hne (by decide)), if_neg (hne (by decide)), if_neg (hne (by decide)),
        if_neg (hne (by decide)), if_neg (hne (by decide)), if_neg (hne (by decide)),
        if_neg (hne (by decide))]
    unfold escapeChar
    rw [hshort]
    exact ⟨if_neg (by omega), by omega⟩
  have hsame : s.flatMap (escapeChar ascii) = s := by
    calc s.flatMap (escapeChar ascii) = s.flatMap fun c => [c] :=
          List.flatMap_congr fun c hc => (hplain c hc).1
      _ = s := List.flatMap_singleton' s
  rw [utf8Size_writeString, hsame, utf8Size_of_ascii fun c hc => (hplain c hc).2]

/-! ## Integers -/

theorem utf8Size_decimal_le {n k : Nat} (hk : 1 ≤ k) (h : n < 10 ^ k) : utf8Size (decimal n) ≤ k := by
  have hdigits : ∀ c ∈ decimal n, c.val < 0x80 := by
    intro c hc
    have hdigit := isDigit_decimal n c hc
    simp only [isDigit, Bool.and_eq_true, decide_eq_true_eq] at hdigit
    omega
  rw [utf8Size_of_ascii hdigits]
  exact (length_decimal_le_iff hk).mpr h

/-! ## Values -/

section
variable [Library]

mutual

/-- The room for the text of a value: every item and every member is counted
with a separator. -/
def textSize (ascii : Bool) : Json → Nat
  | .arr items => itemsSize ascii items + 2
  | .obj members => membersSize ascii members + 2
  | .null => utf8Size (write ascii .null)
  | .bool b => utf8Size (write ascii (.bool b))
  | .int n => utf8Size (write ascii (.int n))
  | .float x => utf8Size (write ascii (.float x))
  | .str s => utf8Size (write ascii (.str s))

def itemsSize (ascii : Bool) : List Json → Nat
  | [] => 0
  | item :: rest => textSize ascii item + 1 + itemsSize ascii rest

def membersSize (ascii : Bool) : List (Str × Json) → Nat
  | [] => 0
  | (key, value) :: rest =>
    utf8Size (writeString ascii key) + textSize ascii value + 2 + membersSize ascii rest

end

theorem membersSize_insertMember (ascii : Bool) (member : Str × Json) (members : List (Str × Json)) :
    membersSize ascii (Json.insertMember member members) = membersSize ascii (member :: members) := by
  induction members with
  | nil => rfl
  | cons first rest ih =>
    unfold Json.insertMember
    split_ifs with hle
    · rfl
    · simp only [membersSize] at ih ⊢
      omega

mutual

/-- Sorting the keys takes no room. -/
theorem textSize_sorted (ascii : Bool) : ∀ value : Json, textSize ascii value.sorted = textSize ascii value
  | .arr items => by rw [Json.sorted, textSize, textSize, itemsSize_sorted]
  | .obj members => by rw [Json.sorted, textSize, textSize, membersSize_sorted]
  | .null | .bool _ | .int _ | .float _ | .str _ => by rw [Json.sorted]

theorem itemsSize_sorted (ascii : Bool) :
    ∀ items : List Json, itemsSize ascii (Json.sortedItems items) = itemsSize ascii items
  | [] => rfl
  | item :: rest => by
    rw [Json.sortedItems, itemsSize, itemsSize, textSize_sorted, itemsSize_sorted]

theorem membersSize_sorted (ascii : Bool) :
    ∀ members : List (Str × Json),
      membersSize ascii (Json.sortedMembers members) = membersSize ascii members
  | [] => rfl
  | (key, value) :: rest => by
    rw [Json.sortedMembers, membersSize_insertMember, membersSize, membersSize, textSize_sorted,
      membersSize_sorted]

end

mutual

theorem utf8Size_write_le (ascii : Bool) :
    ∀ value : Json, utf8Size (write ascii value) ≤ textSize ascii value
  | .null | .bool _ | .int _ | .float _ | .str _ => by rw [textSize]
  | .arr [] => Nat.le_refl _
  | .arr (item :: rest) => by
    have hitem := utf8Size_write_le ascii item
    have hrest := utf8Size_writeItems_le ascii rest
    have hbracket : (CodePoint.ofChar '[').utf8Size = 1 := rfl
    rw [write, textSize, itemsSize, utf8Size_cons, utf8Size_append, hbracket]
    omega
  | .obj [] => Nat.le_refl _
  | .obj ((key, value) :: rest) => by
    have hvalue := utf8Size_write_le ascii value
    have hrest := utf8Size_writeMembers_le ascii rest
    have hbrace : (CodePoint.ofChar '\x7b').utf8Size = 1 := rfl
    have hcolon : (CodePoint.ofChar ':').utf8Size = 1 := rfl
    rw [write, textSize, membersSize, utf8Size_cons, utf8Size_append, utf8Size_cons,
      utf8Size_append, hbrace, hcolon]
    omega

theorem utf8Size_writeItems_le (ascii : Bool) :
    ∀ items : List Json, utf8Size (writeItems ascii items) ≤ itemsSize ascii items + 1
  | [] => Nat.le_refl _
  | item :: rest => by
    have hitem := utf8Size_write_le ascii item
    have hrest := utf8Size_writeItems_le ascii rest
    have hcomma : (CodePoint.ofChar ',').utf8Size = 1 := rfl
    rw [writeItems, itemsSize, utf8Size_cons, utf8Size_append, hcomma]
    omega

theorem utf8Size_writeMembers_le (ascii : Bool) :
    ∀ members : List (Str × Json), utf8Size (writeMembers ascii members) ≤ membersSize ascii members + 1
  | [] => Nat.le_refl _
  | (key, value) :: rest => by
    have hvalue := utf8Size_write_le ascii value
    have hrest := utf8Size_writeMembers_le ascii rest
    have hcomma : (CodePoint.ofChar ',').utf8Size = 1 := rfl
    have hcolon : (CodePoint.ofChar ':').utf8Size = 1 := rfl
    rw [writeMembers, membersSize, utf8Size_cons, utf8Size_append, utf8Size_cons, utf8Size_append,
      hcomma, hcolon]
    omega

end

theorem itemsSize_le (ascii : Bool) {items : List Json} {most : Nat}
    (h : ∀ item ∈ items, textSize ascii item ≤ most) :
    itemsSize ascii items ≤ items.length * (most + 1) := by
  induction items with
  | nil => exact Nat.zero_le _
  | cons item rest ih =>
    have hitem := h item (by simp)
    have hrest := ih fun other hother => h other (by simp [hother])
    rw [itemsSize, List.length_cons, Nat.succ_mul]
    omega

theorem textSize_int_le (ascii : Bool) {n k : Nat} (hk : 1 ≤ k) (h : n < 10 ^ k) :
    textSize ascii (.int n) ≤ k := by
  rw [textSize, write]
  exact utf8Size_decimal_le hk h

theorem textSize_str_le (ascii : Bool) (s : Str) : textSize ascii (.str s) ≤ 6 * utf8Size s + 2 := by
  rw [textSize, write]
  exact utf8Size_writeString_le ascii s

theorem textSize_str_hex (ascii : Bool) {s : Str} (h : ∀ c ∈ s, c.isHexDigit = true) :
    textSize ascii (.str s) = s.length + 2 := by
  rw [textSize, write, utf8Size_writeString_hex ascii h]

end

end JsonText

section
variable [Library]

open JsonText

theorem length_dumps_le (value : Json) : (dumps value).length ≤ textSize true value := by
  unfold dumps
  cases hencode : encodeUtf8 (write true value.sorted) with
  | none => exact Nat.zero_le _
  | some text =>
    have hwritten := utf8Size_write_le true value.sorted
    rw [textSize_sorted] at hwritten
    exact (length_of_encodeUtf8 hencode).trans_le hwritten

theorem length_dumpsUnicode_le {value : Json} {text : Bytes} (h : dumpsUnicode value = some text) :
    text.length ≤ textSize false value := by
  have hwritten := utf8Size_write_le false value.sorted
  rw [textSize_sorted] at hwritten
  exact (length_of_encodeUtf8 h).trans_le hwritten

end

end Litecast
