import Litecast.HttpServer
import Litecast.Origin

/-! The texts of a distribution file: its lines, the numbers in them and the
order `update_distribution_file` gives them. -/

namespace Litecast

section
variable [Library]

/-! ## Python's text -/

def isSpace (c : CodePoint) : Bool :=
  c.asciiSpace || (28 ≤ c.val && c.val ≤ 31) || (127 < c.val && Library.unicodeSpace c)

/-- `text.strip()` -/
def strip (text : Str) : Str :=
  ((text.dropWhile isSpace).reverse.dropWhile isSpace).reverse

/-- `text.partition(separator)` without the separator, the rest empty when it
is missing. -/
def partition (separator : CodePoint) (text : Str) : Str × Str :=
  (text.takeWhile (· ≠ separator), (text.dropWhile (· ≠ separator)).drop 1)

/-- The digits of `int` after the first, single underscores between them. -/
def moreDigits (value : Nat) : Str → Option Nat
  | [] => some value
  | [c] => if JsonText.isDigit c then some (10 * value + (c.val - 48)) else none
  | c :: d :: rest =>
    if JsonText.isDigit c then moreDigits (10 * value + (c.val - 48)) (d :: rest)
    else if c = .ofChar '_' ∧ JsonText.isDigit d then
      moreDigits (10 * value + (d.val - 48)) rest
    else none

/-- `int(text)`, `none` for `ValueError`. Left out is CPython's own limit of 4300
digits, past which it raises as well. -/
def intOf? (text : Str) : Option Int :=
  let text := stripSpaces (asciiForm text)
  let magnitude : Option Nat :=
    match stripSign text with
    | [] => none
    | c :: rest => if JsonText.isDigit c then moreDigits (c.val - 48) rest else none
  magnitude.map fun (n : Nat) => if text.head? = some (.ofChar '-') then -(n : Int) else n

/-! ## Lines -/

/-- Version names with what their lines say of them. -/
abbrev Lines := OrderedDict Str Str

/-- A line takes effect only with a colon in it. -/
def addLine (lines : Lines) (line : Str) : Lines :=
  if .ofChar ':' ∈ line then
    let (version, info) := partition (.ofChar ':') (strip line)
    lines.insert (strip version) (strip info)
  else lines

/-- The dictionary `_monitor_upstream` makes of the upstream's text. -/
def parseListing (content : Str) : Lines :=
  ((strip content).splitOn (.ofChar '\n')).foldl addLine .empty

/-- The number a line is sorted by: `int` of the name without its prefix. -/
def lineKey? (version : Str) : Option Int :=
  if versionPrefix.isPrefixOf version then intOf? (version.drop versionPrefix.length) else some 0

def lineKey (version : Str) : Int := (lineKey? version).getD 0

/-- `f"{checksum}|{num_shards}"` -/
def lineInfo (checksum : Str) (numShards : Nat) : Str :=
  checksum ++ str "|" ++ decimal numShards

/-- `update_distribution_file` on a file with any names in it. A name that has
no number raises; by then the file is open for writing, and empty, unless there
was something to prune. -/
def updateLines (lines : Lines) (version checksum : Str) (maxVersions numShards : Nat) :
    Except Exc Unit × Lines :=
  let updated := lines.insert version (lineInfo checksum numShards)
  if updated.keys.all fun name => (lineKey? name).isSome then
    let removed :=
      if maxVersions < updated.length then
        (updated.keys.insertionSort fun a b => lineKey a ≤ lineKey b).take
          (updated.length - maxVersions)
      else []
    (.ok (), (removed.foldl OrderedDict.erase updated).sortBy lineKey)
  else
    (valueError (str "invalid literal for int() with base 10"),
      if maxVersions < updated.length then lines else .empty)

end

/-- `PurePath(name).stem` -/
def stem (name : Str) : Str :=
  let suffix := (name.reverse.takeWhile (· ≠ .ofChar '.')).reverse
  let before := name.take (name.length - suffix.length - 1)
  if .ofChar '.' ∈ name ∧ before ≠ [] ∧ suffix ≠ [] then before else name

end Litecast
