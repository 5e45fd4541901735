import Mathlib.Data.List.Forall2
import Mathlib.Data.List.Lex
import Mathlib.Data.Nat.Digits.Defs
import Mathlib.Data.Rat.Defs

/-! The Python values the code computes with, and the library functions it
calls whose results the model leaves open. -/

namespace Litecast

abbrev Bytes := List UInt8

/-! ## Text -/

/-- One element of a `str`; a lone surrogate is one too. -/
structure CodePoint where
  val : Nat
  lt : val < 0x110000
  deriving DecidableEq

abbrev Str := List CodePoint

instance : LawfulBEq Str := inferInstance

namespace CodePoint

def ofChar (c : Char) : CodePoint where
  val := c.toNat
  lt := by
    have h : c.toNat < 0xd800 ∨ (0xdfff < c.toNat ∧ c.toNat < 0x110000) := c.valid
    omega

theorem val_injective : Function.Injective val := by
  rintro ⟨a, ha⟩ ⟨b, hb⟩ h
  cases h
  rfl

def isSurrogate (c : CodePoint) : Bool := 0xd800 ≤ c.val && c.val ≤ 0xdfff

/-- `Py_ISSPACE`: the white space of ASCII. -/
def asciiSpace (c : CodePoint) : Bool := c.val = 32 || (9 ≤ c.val && c.val ≤ 13)

def hexValue? (c : CodePoint) : Option Nat :=
  if 48 ≤ c.val ∧ c.val ≤ 57 then some (c.val - 48)
  else if 97 ≤ c.val ∧ c.val ≤ 102 then some (c.val - 87)
  else if 65 ≤ c.val ∧ c.val ≤ 70 then some (c.val - 55)
  else none

end CodePoint

/-- A string literal of the source. -/
def str (s : String) : Str := s.toList.map CodePoint.ofChar

instance : Coe String Str := ⟨str⟩

/-- Python orders `str` by code points. -/
def Str.le (a b : Str) : Bool := decide (a.map CodePoint.val ≤ b.map CodePoint.val)

/-- `text.rstrip(c)` for one character. -/
def Str.rstrip (c : CodePoint) (s : Str) : Str := (s.reverse.dropWhile (· = c)).reverse

/-- `str(n)` for a count. -/
def decimal (n : Nat) : Str :=
  if n = 0 then str "0" else ((Nat.digits 10 n).reverse.map fun d => Nat.digitChar d).map .ofChar

/-! ## UTF-8 -/

/-- Decoding item by item undoes a map. -/
theorem mapM_eq_some_map {α β : Type} {f : α → Option β} {g : β → α} {p : β → Prop}
    (h : ∀ a b, f a = some b ↔ a = g b ∧ p b) {xs : List α} {ys : List β} :
    xs.mapM f = some ys ↔ xs = ys.map g ∧ ∀ y ∈ ys, p y := by
  induction xs generalizing ys with
  | nil => cases ys <;> simp
  | cons x xs ih =>
    simp only [List.mapM_cons, Option.bind_eq_bind, Option.bind_eq_some_iff, Option.pure_def,
      Option.some.injEq, h, ih]
    constructor
    · rintro ⟨y, ⟨rfl, hy⟩, ys, ⟨rfl, hys⟩, rfl⟩
      simpa [hy] using hys
    · rintro ⟨hmap, hall⟩
      cases ys with
      | nil => cases hmap
      | cons y ys =>
        obtain ⟨rfl, rfl⟩ := List.cons.inj hmap
        exact ⟨y, ⟨rfl, hall y (by simp)⟩, ys, ⟨rfl, fun z hz => hall z (by simp [hz])⟩, rfl⟩

/-- The character at this code point; a lone surrogate has none. -/
def CodePoint.toChar? (c : CodePoint) : Option Char :=
  if h : c.val.isValidChar then some (Char.ofNatAux c.val h) else none

/-- `text.encode("utf-8")`, `none` where it raises `UnicodeEncodeError`. -/
def encodeUtf8 (s : Str) : Option Bytes :=
  (s.mapM CodePoint.toChar?).map fun chars => chars.flatMap String.utf8EncodeChar

/-- `data.decode("utf-8")`, `none` where it raises `UnicodeDecodeError`. -/
def decodeUtf8 (b : Bytes) : Option Str :=
  b.toByteArray.utf8Decode?.map fun chars => chars.toList.map CodePoint.ofChar

theorem CodePoint.ofChar_toChar {c : CodePoint} {ch : Char} (h : c.toChar? = some ch) :
    CodePoint.ofChar ch = c := by
  by_cases hvalid : c.val.isValidChar
  · rw [CodePoint.toChar?, dif_pos hvalid] at h
    obtain rfl := Option.some.inj h
    rfl
  · rw [CodePoint.toChar?, dif_neg hvalid] at h
    cases h

@[simp] theorem CodePoint.toChar_ofChar (ch : Char) : (CodePoint.ofChar ch).toChar? = some ch := by
  have h : (CodePoint.ofChar ch).val.isValidChar := ch.valid
  rw [CodePoint.toChar?, dif_pos h]
  rfl

theorem toChar_eq_some {c : CodePoint} {ch : Char} :
    c.toChar? = some ch ↔ c = .ofChar ch ∧ True :=
  ⟨fun h => ⟨(CodePoint.ofChar_toChar h).symm, trivial⟩, by rintro ⟨rfl, -⟩; simp⟩

theorem mapM_toChar {s : Str} {chars : List Char} :
    s.mapM CodePoint.toChar? = some chars ↔ s = chars.map CodePoint.ofChar := by
  rw [mapM_eq_some_map fun _ _ => toChar_eq_some]
  simp

/-- UTF-8 text decodes to the one text that encodes to it. -/
theorem decodeUtf8_eq_some_iff {b : Bytes} {s : Str} :
    decodeUtf8 b = some s ↔ encodeUtf8 s = some b := by
  constructor
  · intro h
    obtain ⟨chars, hchars, rfl⟩ := Option.map_eq_some_iff.mp h
    have hsome : b.toByteArray.utf8Decode?.isSome := by rw [hchars]; rfl
    have hbytes := ByteArray.utf8Encode_get_utf8Decode? (h := hsome)
    simp only [hchars, Option.get_some, List.utf8Encode] at hbytes
    have hb : chars.toList.flatMap String.utf8EncodeChar = b := by
      have hdata := congrArg ByteArray.data hbytes
      simpa [List.data_toByteArray] using hdata
    rw [encodeUtf8, mapM_toChar.mpr rfl, Option.map_some, hb]
  · intro h
    obtain ⟨chars, hchars, rfl⟩ := Option.map_eq_some_iff.mp h
    have hdecode := List.utf8Decode?_utf8Encode (l := chars)
    rw [List.utf8Encode] at hdecode
    rw [decodeUtf8, hdecode, Option.map_some, ← mapM_toChar.mp hchars]

/-! ## Hexadecimal digests -/

def hexDigit (n : Nat) : CodePoint := .ofChar (Nat.digitChar (n % 16))

/-- `bytes.hex()` -/
def hex (b : Bytes) : Str := b.flatMap fun x => [hexDigit (x.toNat / 16), hexDigit (x.toNat % 16)]

/-- `bytes.fromhex(text)`, `none` where it raises `ValueError`. White space
may stand between two bytes, not inside one. -/
def fromHex? : Str → Option Bytes
  | [] => some []
  | [c] => if c.asciiSpace then some [] else none
  | c :: d :: rest =>
    if c.asciiSpace then fromHex? (d :: rest)
    else match c.hexValue?, d.hexValue?, fromHex? rest with
      | some h, some l, some bytes => some (UInt8.ofNat (16 * h + l) :: bytes)
      | _, _, _ => none

/-- A BLAKE3 digest. -/
structure Digest where
  bytes : Bytes
  length_eq : bytes.length = 32
  deriving DecidableEq

def Digest.hex (d : Digest) : Str := Litecast.hex d.bytes

/-! ## Floats and JSON values -/

/-- A `float` up to Python's `==`, so there is one zero. -/
inductive PyFloat where
  | finite (value : Rat)
  | infinite (negative : Bool)
  | nan
  deriving DecidableEq

/-- What `json.loads` can return. An object lists its members in the order of
the dictionary; looking a key up finds the first. -/
inductive Json where
  | null
  | bool (b : Bool)
  | int (n : Int)
  | float (x : PyFloat)
  | str (s : Str)
  | arr (items : List Json)
  | obj (members : List (Str × Json))

namespace Json

/-- Insertion by key, before the first key that is not smaller. -/
def insertMember (kv : Str × Json) : List (Str × Json) → List (Str × Json)
  | [] => [kv]
  | m :: rest => if Str.le kv.1 m.1 then kv :: m :: rest else m :: insertMember kv rest

mutual

/-- The value `sort_keys=True` writes: every object in key order. -/
def sorted : Json → Json
  | .arr items => .arr (sortedItems items)
  | .obj members => .obj (sortedMembers members)
  | .null => .null
  | .bool b => .bool b
  | .int n => .int n
  | .float x => .float x
  | .str s => .str s

def sortedItems : List Json → List Json
  | [] => []
  | j :: rest => j.sorted :: sortedItems rest

def sortedMembers : List (Str × Json) → List (Str × Json)
  | [] => []
  | (k, j) :: rest => insertMember (k, j.sorted) (sortedMembers rest)

end

def lookupMember (k : Str) : List (Str × Json) → Option Json
  | [] => none
  | (k', j) :: rest => if k' = k then some j else lookupMember k rest

/-- `value.get(key)` on an object. -/
def get? (key : Str) : Json → Option Json
  | .obj members => lookupMember key members
  | _ => none

def isObject : Json → Bool
  | .obj _ => true
  | _ => false

def keys : Json → List Str
  | .obj members => members.map Prod.fst
  | _ => []

/-- `set(value) == required` for an object. -/
def hasExactly (value : Json) (required : List Str) : Bool :=
  value.isObject && value.keys.all (fun k => decide (k ∈ required))
    && required.all (fun k => decide (k ∈ value.keys))

/-- `bool(value)` -/
def truthy : Json → Bool
  | .null => false
  | .bool b => b
  | .int n => n ≠ 0
  | .float x => x ≠ .finite 0
  | .str s => s ≠ []
  | .arr items => !items.isEmpty
  | .obj members => !members.isEmpty

/-- The number a value equals under `==`, booleans included. -/
def number? : Json → Option Rat
  | .bool b => some (if b then 1 else 0)
  | .int n => some n
  | .float (.finite q) => some q
  | _ => none

/-- `value == n` -/
def eqInt (value : Json) (n : Int) : Bool := value.number? = some (n : Rat)

/-- `isinstance(value, int) and not isinstance(value, bool)` -/
def plainInt? : Json → Option Int
  | .int n => some n
  | _ => none

def string? : Json → Option Str
  | .str s => some s
  | _ => none

/-- `hash(value)` exists. -/
def hashable : Json → Bool
  | .arr _ => false
  | .obj _ => false
  | _ => true

@[simp] theorem sorted_str (s : Str) : (Json.str s).sorted = .str s := by simp [sorted]
@[simp] theorem sorted_int (n : Int) : (Json.int n).sorted = .int n := by simp [sorted]
@[simp] theorem sorted_float (x : PyFloat) : (Json.float x).sorted = .float x := by simp [sorted]
@[simp] theorem sorted_null : Json.null.sorted = .null := by simp [sorted]
@[simp] theorem sorted_bool (b : Bool) : (Json.bool b).sorted = .bool b := by simp [sorted]

theorem plainInt?_eq_some {value : Json} {n : Int} : value.plainInt? = some n ↔ value = .int n := by
  cases value <;> simp [plainInt?]

theorem lookup_insertMember (k : Str) (kv : Str × Json) (l : List (Str × Json)) :
    lookupMember k (insertMember kv l) = if kv.1 = k then some kv.2 else lookupMember k l := by
  induction l with
  | nil => rfl
  | cons m rest ih =>
    obtain ⟨k', j⟩ := m
    by_cases hle : Str.le kv.1 k'
    · simp [insertMember, lookupMember, hle]
    · -- a member passed over has a strictly smaller key
      have hne : k' ≠ kv.1 := by
        rintro rfl
        exact hle (by simp [Str.le])
      by_cases hk : k' = k
      · subst hk
        simp [insertMember, lookupMember, hle, Ne.symm hne]
      · simp [insertMember, lookupMember, hle, hk, ih]

theorem lookup_sortedMembers (k : Str) (l : List (Str × Json)) :
    lookupMember k (sortedMembers l) = (lookupMember k l).map sorted := by
  induction l with
  | nil => simp [sortedMembers, lookupMember]
  | cons m rest ih =>
    obtain ⟨k', j⟩ := m
    by_cases h : k' = k <;> simp [sortedMembers, lookup_insertMember, lookupMember, h, ih]

/-- Sorting the keys changes no lookup. -/
theorem get?_sorted (key : Str) (value : Json) :
    value.sorted.get? key = (value.get? key).map sorted := by
  cases value <;> simp [sorted, get?, lookup_sortedMembers]

theorem mem_keys_insertMember (k : Str) (kv : Str × Json) (l : List (Str × Json)) :
    k ∈ (insertMember kv l).map Prod.fst ↔ k = kv.1 ∨ k ∈ l.map Prod.fst := by
  induction l with
  | nil => simp [insertMember]
  | cons m rest ih =>
    by_cases h : Str.le kv.1 m.1
    · simp [insertMember, h]
    · simp only [insertMember, h, Bool.false_eq_true, if_false, List.map_cons, List.mem_cons, ih]
      tauto

theorem mem_keys_sorted (k : Str) (value : Json) : k ∈ value.sorted.keys ↔ k ∈ value.keys := by
  cases value with
  | obj members =>
    simp only [sorted, keys]
    induction members with
    | nil => simp [sortedMembers]
    | cons m rest ih =>
      obtain ⟨k', j⟩ := m
      simp only [sortedMembers, mem_keys_insertMember, ih, List.map_cons, List.mem_cons]
  | _ => simp [sorted, keys]

theorem sortedItems_eq_map (items : List Json) : sortedItems items = items.map sorted := by
  induction items with
  | nil => rfl
  | cons j rest ih => simp [sortedItems, ih]

@[simp] theorem string?_sorted (j : Json) : j.sorted.string? = j.string? := by
  cases j <;> simp [sorted, string?]

@[simp] theorem plainInt?_sorted (j : Json) : j.sorted.plainInt? = j.plainInt? := by
  cases j <;> simp [sorted, plainInt?]

@[simp] theorem number?_sorted (j : Json) : j.sorted.number? = j.number? := by
  cases j <;> simp [sorted, number?]

@[simp] theorem isObject_sorted (j : Json) : j.sorted.isObject = j.isObject := by
  cases j <;> simp [sorted, isObject]

theorem any_keys_sorted (j : Json) (p : Str → Bool) : j.sorted.keys.any p = j.keys.any p := by
  rw [Bool.eq_iff_iff]
  simp only [List.any_eq_true, mem_keys_sorted]

theorem hasExactly_sorted (j : Json) (required : List Str) :
    j.sorted.hasExactly required = j.hasExactly required := by
  rw [Bool.eq_iff_iff]
  simp only [hasExactly, isObject_sorted, Bool.and_eq_true, List.all_eq_true, mem_keys_sorted]

/-- A field with a scalar default is sorted with its value. -/
theorem field_sorted (j missing : Json) (key : Str) (h : missing.sorted = missing) :
    (j.sorted.get? key).getD missing = ((j.get? key).getD missing).sorted := by
  rw [get?_sorted]
  cases j.get? key <;> simp [h]


theorem lookupMember_map {β : Type} (f : β → Json) {items : List (Str × β)}
    (hnodup : (items.map Prod.fst).Nodup) {item : Str × β} (hitem : item ∈ items) :
    lookupMember item.1 (items.map fun i => (i.1, f i.2)) = some (f item.2) := by
  induction items with
  | nil => cases hitem
  | cons first rest ih =>
    simp only [List.map_cons, List.nodup_cons] at hnodup
    rcases List.mem_cons.mp hitem with rfl | hrest
    · simp [lookupMember]
    · have hne : first.1 ≠ item.1 := by
        intro h
        exact hnodup.1 (h ▸ List.mem_map_of_mem hrest)
      simp only [List.map_cons, lookupMember, hne, if_false]
      exact ih hnodup.2 hrest

theorem lookupMember_eq_none {k : Str} {members : List (Str × Json)}
    (h : k ∉ members.map Prod.fst) : lookupMember k members = none := by
  induction members with
  | nil => rfl
  | cons first rest ih =>
    simp only [List.map_cons, List.mem_cons, not_or] at h
    rw [lookupMember, if_neg (Ne.symm h.1), ih h.2]

theorem get?_eq_none_of_hasExactly {value : Json} {required : List Str}
    (h : value.hasExactly required = true) {key : Str} (hkey : key ∉ required) :
    value.get? key = none := by
  simp only [hasExactly, Bool.and_eq_true, List.all_eq_true, decide_eq_true_eq] at h
  have habsent : key ∉ value.keys := fun hmem => hkey (h.1.2 key hmem)
  cases value with
  | obj members => exact lookupMember_eq_none habsent
  | _ => rfl

end Json

/-! ## Exceptions -/

inductive ExcClass where
  | typeError | valueError | indexError | keyError | overflowError | zeroDivisionError
  | unicodeEncodeError | runtimeError | recursionError | osError | fileNotFoundError
  | timeoutError | redisError | attributeError
  | versionTooLargeError | versionNotFoundError | invalidShardIndexError
  | protocolError | transportProtocolError | transportIntegrityError
  | versionUnavailableError | ucxxUnavailableError | endpointMetadataError
  deriving DecidableEq

/-- Caught by `except ValueError`. -/
def ExcClass.isValueError : ExcClass → Bool
  | .valueError | .unicodeEncodeError | .versionTooLargeError | .protocolError
  | .transportProtocolError | .transportIntegrityError | .endpointMetadataError => true
  | _ => false

/-- Caught by `except OSError`. -/
def ExcClass.isOSError : ExcClass → Bool
  | .osError | .fileNotFoundError | .timeoutError => true
  | _ => false

/-- Caught by `except RuntimeError`. -/
def ExcClass.isRuntimeError : ExcClass → Bool
  | .runtimeError | .recursionError => true
  | _ => false

structure Exc where
  cls : ExcClass
  message : Str := []
  deriving DecidableEq

section
variable {ε α β : Type}

theorem bind_eq_ok {x : Except ε α} {f : α → Except ε β} {b : β} :
    (x >>= f) = .ok b ↔ ∃ a, x = .ok a ∧ f a = .ok b := by
  cases x <;> simp [bind, Except.bind]

theorem map_eq_ok {x : Except ε α} {f : α → β} {b : β} :
    f <$> x = .ok b ↔ ∃ a, x = .ok a ∧ f a = b := by
  cases x <;> simp [Functor.map, Except.map]

theorem mapError_eq_ok {ε' : Type} {x : Except ε α} {f : ε → ε'} {a : α} :
    x.mapError f = .ok a ↔ x = .ok a := by
  cases x <;> simp [Except.mapError]

theorem mapM_eq_ok {f : α → Except ε β} {xs : List α} {ys : List β} :
    xs.mapM f = .ok ys ↔ List.Forall₂ (fun x y => f x = .ok y) xs ys := by
  induction xs generalizing ys with
  | nil => cases ys <;> simp [pure, Except.pure]
  | cons x xs ih =>
    simp only [List.mapM_cons, bind_eq_ok, pure, Except.pure, Except.ok.injEq, ih]
    cases ys with
    | nil => simp
    | cons y ys => simp

end

/-! ## Library functions -/

/-- The functions the code calls and the model does not define. -/
class Library where
  blake3 : Bytes → Digest
  /-- `str.lower` -/
  lower : Str → Str
  /-- `str(value)` for a JSON value that is not a string. -/
  strOf : Json → Str
  /-- `repr(x)` for a finite float. -/
  floatRepr : Rat → Str
  /-- `float(n)`, `none` for `OverflowError`. -/
  floatOfInt : Int → Option PyFloat
  /-- `float(text)`, `none` for `ValueError`. -/
  floatOfStr : Str → Option PyFloat
  /-- White space outside ASCII. -/
  unicodeSpace : CodePoint → Bool
  /-- The value of a decimal digit outside ASCII. -/
  unicodeDecimal : CodePoint → Option (Fin 10)
  /-- `str.isprintable` of a character outside ASCII. -/
  unicodePrintable : CodePoint → Bool

export Library (blake3 lower strOf)

/-- `str.lower` on ASCII letters. -/
def asciiLower (s : Str) : Str :=
  s.map fun c => if 65 ≤ c.val ∧ c.val ≤ 90 then .ofChar (Char.ofNat (c.val + 32)) else c

/-- The first 32 bytes, as a stand-in digest for runs on fixed inputs. -/
def paddedDigest (data : Bytes) : Digest where
  bytes := (data ++ List.replicate 32 0).take 32
  length_eq := by simp

/-- A library for runs on fixed inputs: ASCII text, and floats that are whole
numbers. -/
@[reducible] def asciiLibrary : Library where
  blake3 := paddedDigest
  lower := asciiLower
  strOf := fun _ => []
  floatRepr := fun q => decimal q.num.toNat ++ str ".0"
  floatOfInt := fun n => some (.finite n)
  floatOfStr := fun s =>
    let whole := (s.takeWhile (·.val ≠ 46)).foldl (fun (n : Nat) c => 10 * n + (c.val - 48)) 0
    some (.finite whole)
  unicodeSpace := fun _ => false
  unicodeDecimal := fun _ => none
  unicodePrintable := fun _ => false

section
variable [Library]

/-- `blake3.blake3(data).hexdigest()` -/
def hexdigest (data : Bytes) : Str := (blake3 data).hex

end

end Litecast
