import Litecast.HexText
import Litecast.Lib.OrderedDict

/-! `json.dumps` with sorted keys and no spaces, and `json.loads`. -/

namespace Litecast

namespace JsonText

/-! ## Writing -/

/-- `\u` and four hexadecimal digits. -/
def escapeUnit (n : Nat) : Str :=
  str "\\u" ++ [hexDigit (n / 4096), hexDigit (n / 256), hexDigit (n / 16), hexDigit n]

/-- The characters with an escape of their own, and its letter. -/
def shortEscapes : List (CodePoint × CodePoint) :=
  [(.ofChar '"', .ofChar '"'), (.ofChar '\\', .ofChar '\\'), (.ofChar '\n', .ofChar 'n'),
    (.ofChar '\r', .ofChar 'r'), (.ofChar '\t', .ofChar 't'), (.ofChar '\x0c', .ofChar 'f'),
    (.ofChar '\x08', .ofChar 'b')]

/-- `ascii` is `ensure_ascii`: all but the printable characters of ASCII is
escaped, beyond the basic plane as a surrogate pair. -/
def escapeChar (ascii : Bool) (c : CodePoint) : Str :=
  match OrderedDict.lookup c shortEscapes with
  | some letter => [.ofChar '\\', letter]
  | none =>
    if c.val < 0x20 ∨ (ascii = true ∧ 0x7e < c.val) then
      if c.val < 0x10000 then escapeUnit c.val
      else
        escapeUnit (0xd800 + (c.val - 0x10000) / 1024) ++
          escapeUnit (0xdc00 + (c.val - 0x10000) % 1024)
    else [c]

def writeString (ascii : Bool) (s : Str) : Str :=
  .ofChar '"' :: (s.flatMap (escapeChar ascii) ++ [.ofChar '"'])

def writeInt : Int → Str
  | .ofNat n => decimal n
  | .negSucc n => .ofChar '-' :: decimal (n + 1)

section
variable [Library]

def writeFloat : PyFloat → Str
  | .finite q => Library.floatRepr q
  | .infinite negative => if negative then str "-Infinity" else str "Infinity"
  | .nan => str "NaN"

mutual

def write (ascii : Bool) : Json → Str
  | .null => str "null"
  | .bool b => if b then str "true" else str "false"
  | .int n => writeInt n
  | .float x => writeFloat x
  | .str s => writeString ascii s
  | .arr [] => str "[]"
  | .arr (item :: rest) => .ofChar '[' :: (write ascii item ++ writeItems ascii rest)
  | .obj [] => str "\x7b\x7d"
  | .obj ((key, value) :: rest) =>
    .ofChar '\x7b' :: (writeString ascii key ++ .ofChar ':' :: (write ascii value ++
      writeMembers ascii rest))

/-- The items after the first, and the bracket. -/
def writeItems (ascii : Bool) : List Json → Str
  | [] => str "]"
  | item :: rest => .ofChar ',' :: (write ascii item ++ writeItems ascii rest)

/-- The members after the first, and the brace. -/
def writeMembers (ascii : Bool) : List (Str × Json) → Str
  | [] => str "\x7d"
  | (key, value) :: rest =>
    .ofChar ',' :: (writeString ascii key ++ .ofChar ':' :: (write ascii value ++
      writeMembers ascii rest))

end

end

/-! ## Reading -/

/-- White space between tokens. -/
def isWhite (c : CodePoint) : Bool := c.val = 32 || c.val = 9 || c.val = 10 || c.val = 13

def skipWhite (text : Str) : Str := text.dropWhile isWhite

/-! ### Strings -/

/-- The value of four hexadecimal digits. -/
def hexUnit? : Str → Option (Nat × Str)
  | a :: b :: c :: d :: rest =>
    match a.hexValue?, b.hexValue?, c.hexValue?, d.hexValue? with
    | some a, some b, some c, some d => some (4096 * a + 256 * b + 16 * c + d, rest)
    | _, _, _, _ => none
  | _ => none

def codePoint (n : Nat) : CodePoint :=
  if h : n < 0x110000 then ⟨n, h⟩ else .ofChar '\uFFFD'

/-- The escaped low surrogate that follows a high one. -/
def lowSurrogate? : Str → Option (Nat × Str)
  | c :: d :: rest =>
    if c = .ofChar '\\' ∧ d = .ofChar 'u' then (hexUnit? rest).filter fun unit => 0xdc00 ≤ unit.1 ∧ unit.1 ≤ 0xdfff
    else none
  | _ => none

/-- The letters that stand for another character. -/
def escapeLetters : List (CodePoint × CodePoint) :=
  (.ofChar '/', .ofChar '/') :: shortEscapes.map Prod.swap

/-- What follows a backslash. -/
def scanEscape : Str → Option (CodePoint × Str)
  | [] => none
  | c :: rest =>
    if c = .ofChar 'u' then
      match hexUnit? rest with
      | none => none
      | some (unit, rest) =>
        if 0xd800 ≤ unit ∧ unit ≤ 0xdbff then
          match lowSurrogate? rest with
          | some (low, rest) =>
            some (codePoint (0x10000 + 1024 * (unit - 0xd800) + (low - 0xdc00)), rest)
          | none => some (codePoint unit, rest)
        else some (codePoint unit, rest)
    else (OrderedDict.lookup c escapeLetters).map fun c => (c, rest)

/-- The rest of a string after its opening quote. Every turn reads a character. -/
def scanChars : Nat → Str → Option (Str × Str)
  | 0, _ => none
  | _ + 1, [] => none
  | fuel + 1, c :: rest =>
    if c = .ofChar '"' then some ([], rest)
    else if c = .ofChar '\\' then
      match scanEscape rest with
      | none => none
      | some (c, rest) => (scanChars fuel rest).map fun (s, rest) => (c :: s, rest)
    else if c.val < 0x20 then none
    else (scanChars fuel rest).map fun (s, rest) => (c :: s, rest)

def scanString (text : Str) : Option (Str × Str) := scanChars text.length text

/-! ### Numbers -/

def isDigit (c : CodePoint) : Bool := 48 ≤ c.val && c.val ≤ 57

def digitsValue (digits : Str) : Nat := digits.foldl (fun n c => 10 * n + (c.val - 48)) 0

/-- `0`, or digits that do not start with it. -/
def readWhole : Str → Option (Str × Str)
  | [] => none
  | c :: rest =>
    if c = .ofChar '0' then some ([c], rest)
    else if isDigit c then some (c :: rest.takeWhile isDigit, rest.dropWhile isDigit)
    else none

def readFraction : Str → Str × Str
  | [] => ([], [])
  | c :: rest =>
    if c = .ofChar '.' ∧ rest.takeWhile isDigit ≠ [] then
      (c :: rest.takeWhile isDigit, rest.dropWhile isDigit)
    else ([], c :: rest)

def readSign : Str → Str × Str
  | [] => ([], [])
  | c :: rest => if c = .ofChar '+' ∨ c = .ofChar '-' then ([c], rest) else ([], c :: rest)

def readExponent : Str → Str × Str
  | [] => ([], [])
  | c :: rest =>
    let (sign, digits) := readSign rest
    if (c = .ofChar 'e' ∨ c = .ofChar 'E') ∧ digits.takeWhile isDigit ≠ [] then
      (c :: (sign ++ digits.takeWhile isDigit), digits.dropWhile isDigit)
    else ([], c :: rest)

section
variable [Library]

/-- A number without a minus sign before it is in `body`. -/
def scanUnsigned (negative : Bool) (body : Str) : Option (Json × Str) :=
  match readWhole body with
  | none => none
  | some (whole, rest) =>
    let (fraction, rest) := readFraction rest
    let (exponent, rest) := readExponent rest
    if fraction = [] ∧ exponent = [] then
      some (.int (if negative then -digitsValue whole else digitsValue whole), rest)
    else
      let sign := if negative then str "-" else []
      (Library.floatOfStr (sign ++ whole ++ fraction ++ exponent)).map fun x => (.float x, rest)

def scanNumber : Str → Option (Json × Str)
  | [] => none
  | c :: rest => if c = .ofChar '-' then scanUnsigned true rest else scanUnsigned false (c :: rest)

/-! ### Values -/

def literals : List (Str × Json) :=
  [(str "null", .null), (str "true", .bool true), (str "false", .bool false),
    (str "NaN", .float .nan), (str "Infinity", .float (.infinite false)),
    (str "-Infinity", .float (.infinite true))]

def scanLiteral (text : Str) : Option (Json × Str) :=
  literals.findSome? fun (word, value) =>
    if word.isPrefixOf text then some (value, text.drop word.length) else none

/-- `d[key] = value` for one member after the other. -/
def objectOf (members : List (Str × Json)) : Json :=
  .obj (members.foldl (fun found member => OrderedDict.assign member.1 member.2 found) [])

mutual

/-- `scan_once` -/
def scanValue : Nat → Str → Option (Json × Str)
  | 0, _ => none
  | _ + 1, [] => none
  | fuel + 1, c :: rest =>
    if c = .ofChar '"' then (scanString rest).map fun (s, rest) => (.str s, rest)
    else if c = .ofChar '\x7b' then
      if (skipWhite rest).head? = some (.ofChar '\x7d') then some (.obj [], (skipWhite rest).tail)
      else (scanMembers fuel (skipWhite rest)).map fun (members, rest) => (objectOf members, rest)
    else if c = .ofChar '[' then
      if (skipWhite rest).head? = some (.ofChar ']') then some (.arr [], (skipWhite rest).tail)
      else (scanItems fuel (skipWhite rest)).map fun (items, rest) => (.arr items, rest)
    else (scanLiteral (c :: rest)).or (scanNumber (c :: rest))

/-- The items of an array up to its closing bracket. -/
def scanItems : Nat → Str → Option (List Json × Str)
  | 0, _ => none
  | fuel + 1, text =>
    match scanValue fuel text with
    | none => none
    | some (item, rest) =>
      match skipWhite rest with
      | [] => none
      | c :: rest =>
        if c = .ofChar ']' then some ([item], rest)
        else if c = .ofChar ',' then
          (scanItems fuel (skipWhite rest)).map fun (items, rest) => (item :: items, rest)
        else none

/-- The members of an object up to its closing brace. -/
def scanMembers : Nat → Str → Option (List (Str × Json) × Str)
  | 0, _ => none
  | _ + 1, [] => none
  | fuel + 1, c :: rest =>
    if c ≠ .ofChar '"' then none
    else
      match scanString rest with
      | none => none
      | some (key, rest) =>
        match skipWhite rest with
        | [] => none
        | c :: rest =>
          if c ≠ .ofChar ':' then none
          else
            match scanValue fuel (skipWhite rest) with
            | none => none
            | some (value, rest) =>
              match skipWhite rest with
              | [] => none
              | c :: rest =>
                if c = .ofChar '\x7d' then some ([(key, value)], rest)
                else if c = .ofChar ',' then
                  (scanMembers fuel (skipWhite rest)).map fun (members, rest) =>
                    ((key, value) :: members, rest)
                else none

end

/-! ### Nesting -/

mutual

/-- How many arrays and objects `scanValue` is inside of at most. -/
def valueDepth : Nat → Str → Nat
  | 0, _ => 0
  | _ + 1, [] => 0
  | fuel + 1, c :: rest =>
    if c = .ofChar '\x7b' then
      if (skipWhite rest).head? = some (.ofChar '\x7d') then 1
      else membersDepth fuel (skipWhite rest) + 1
    else if c = .ofChar '[' then
      if (skipWhite rest).head? = some (.ofChar ']') then 1
      else itemsDepth fuel (skipWhite rest) + 1
    else 0

def itemsDepth : Nat → Str → Nat
  | 0, _ => 0
  | fuel + 1, text =>
    max (valueDepth fuel text) <|
      match scanValue fuel text with
      | none => 0
      | some (_, rest) =>
        match skipWhite rest with
        | [] => 0
        | c :: rest => if c = .ofChar ',' then itemsDepth fuel (skipWhite rest) else 0

def membersDepth : Nat → Str → Nat
  | 0, _ => 0
  | _ + 1, [] => 0
  | fuel + 1, c :: rest =>
    if c ≠ .ofChar '"' then 0
    else
      match scanString rest with
      | none => 0
      | some (_, rest) =>
        match skipWhite rest with
        | [] => 0
        | c :: rest =>
          if c ≠ .ofChar ':' then 0
          else
            max (valueDepth fuel (skipWhite rest)) <|
              match scanValue fuel (skipWhite rest) with
              | none => 0
              | some (_, rest) =>
                match skipWhite rest with
                | [] => 0
                | c :: rest => if c = .ofChar ',' then membersDepth fuel (skipWhite rest) else 0

end

end

end JsonText

section
variable [Library]

/-- `json.loads(data.decode("utf-8"))`, `none` where either raises. A level of
nesting takes two turns and a character. -/
def loads (data : Bytes) : Option Json :=
  match decodeUtf8 data with
  | none => none
  | some text =>
    if text.head? = some (.ofChar '\uFEFF') then none
    else
      match JsonText.scanValue (2 * text.length + 1) (JsonText.skipWhite text) with
      | none => none
      | some (value, rest) => if JsonText.skipWhite rest = [] then some value else none

/-- The nesting `loads` meets before it returns or raises. -/
def nesting (data : Bytes) : Nat :=
  match decodeUtf8 data with
  | none => 0
  | some text =>
    if text.head? = some (.ofChar '\uFEFF') then 0
    else JsonText.valueDepth (2 * text.length + 1) (JsonText.skipWhite text)

/-- `json.dumps(value, sort_keys=True, separators=(",", ":")).encode("utf-8")` -/
def dumps (value : Json) : Bytes := (encodeUtf8 (JsonText.write true value.sorted)).getD []

/-- The same with `ensure_ascii=False`; a lone surrogate has no encoding. -/
def dumpsUnicode (value : Json) : Option Bytes := encodeUtf8 (JsonText.write false value.sorted)

/-- JSON text written with sorted keys reads back as the value written. -/
def RoundTrips (value : Json) : Prop := loads (dumps value) = some value.sorted

end

end Litecast
