import Litecast.Listing

/-! `urllib.parse.urlsplit`. -/

namespace Litecast

structure SplitResult where
  scheme : Str
  netloc : Str
  path : Str
  query : Str
  fragment : Str
  deriving DecidableEq

namespace Url

/-- `_WHATWG_C0_CONTROL_OR_SPACE` -/
def c0ControlOrSpace (c : CodePoint) : Bool := c.val ≤ 0x20

/-- `_UNSAFE_URL_BYTES_TO_REMOVE` -/
def unsafeByte (c : CodePoint) : Bool := c.val = 9 || c.val = 10 || c.val = 13

def isLetter (c : CodePoint) : Bool := (65 ≤ c.val && c.val ≤ 90) || (97 ≤ c.val && c.val ≤ 122)

/-- `scheme_chars` -/
def schemeChar (c : CodePoint) : Bool :=
  isLetter c || JsonText.isDigit c || c = .ofChar '+' || c = .ofChar '-' || c = .ofChar '.'

/-- The characters removed before a URL is taken apart. -/
def cleaned (url : Str) : Str := (url.dropWhile c0ControlOrSpace).filter fun c => !unsafeByte c

/-- The scheme in lower case, empty where there is none, and what follows it. -/
def splitScheme (url : Str) : Str × Str :=
  let name := url.takeWhile (· ≠ .ofChar ':')
  if .ofChar ':' ∈ url ∧ name.head?.any isLetter ∧ name.all schemeChar then
    (asciiLower name, url.drop (name.length + 1))
  else ([], url)

def endsNetloc (c : CodePoint) : Bool := c = .ofChar '/' || c = .ofChar '?' || c = .ofChar '#'

def splitNetloc (url : Str) : Str × Str :=
  if url.take 2 = str "//" then
    ((url.drop 2).takeWhile fun c => !endsNetloc c, (url.drop 2).dropWhile fun c => !endsNetloc c)
  else ([], url)

/-- `netloc.rpartition("@")[0]` -/
def userinfo (netloc : Str) : Str :=
  ((netloc.reverse.dropWhile (· ≠ .ofChar '@')).drop 1).reverse

end Url

/-- Empty where the attribute is `None`. -/
def SplitResult.username (r : SplitResult) : Str :=
  (partition (.ofChar ':') (Url.userinfo r.netloc)).1

def SplitResult.password (r : SplitResult) : Str :=
  (partition (.ofChar ':') (Url.userinfo r.netloc)).2

open Url

/-- `checkNetloc` is what the library tests of a network location alone: the
address between brackets, and the characters its normal form brings in. -/
def urlsplit (checkNetloc : Str → Except Exc Unit) (url : Str) : Except Exc SplitResult := do
  let (scheme, url) := splitScheme (cleaned url)
  let (netloc, url) := splitNetloc url
  if decide (.ofChar '[' ∈ netloc) ≠ decide (.ofChar ']' ∈ netloc) then
    valueError (str "Invalid IPv6 URL")
  else
    checkNetloc netloc
    let (url, fragment) := partition (.ofChar '#') url
    let (path, query) := partition (.ofChar '?') url
    return { scheme, netloc, path, query, fragment }

/-! ## Parting -/

theorem partition_of_not_mem {c : CodePoint} {text : Str} (h : c ∉ text) :
    partition c text = (text, []) := by
  have hall : ∀ d ∈ text, decide (d ≠ c) = true := by
    intro d hd
    exact decide_eq_true fun heq => h (heq ▸ hd)
  rw [partition, List.takeWhile_eq_self_iff.mpr hall, List.dropWhile_eq_nil_iff.mpr hall]
  rfl

theorem partition_append_of_mem {c : CodePoint} {text : Str} (h : c ∈ text) (tail : Str) :
    partition c (text ++ tail) = ((partition c text).1, (partition c text).2 ++ tail) := by
  induction text with
  | nil => cases h
  | cons first rest ih =>
    by_cases heq : first = c
    · simp [partition, heq]
    · have hrest := ih ((List.mem_cons.mp h).resolve_left (Ne.symm heq))
      simpa [partition, heq] using hrest

theorem partition_append_snd {c : CodePoint} {text tail : Str}
    (h : (partition c (text ++ tail)).2 = []) : (partition c text).2 = [] := by
  by_cases hmem : c ∈ text
  · rw [partition_append_of_mem hmem] at h
    exact (List.append_eq_nil_iff.mp h).1
  · rw [partition_of_not_mem hmem]

/-! ## Trailing slashes -/

/-- What none of the tail belongs to ends where it did. -/
theorem span_append (p : CodePoint → Bool) {tail : Str} (htail : ∀ c ∈ tail, p c = false)
    (text : Str) : (text ++ tail).takeWhile p = text.takeWhile p ∧
      (text ++ tail).dropWhile p = text.dropWhile p ++ tail := by
  induction text with
  | nil =>
    have hdrop : tail.dropWhile p = tail := dropWhile_of_none htail
    refine ⟨?_, by simpa using hdrop⟩
    have hsplit := List.takeWhile_append_dropWhile (p := p) (l := tail)
    rw [hdrop] at hsplit
    simpa using hsplit
  | cons c text ih =>
    rw [List.cons_append, List.takeWhile_cons, List.takeWhile_cons, List.dropWhile_cons,
      List.dropWhile_cons, ih.1, ih.2]
    split <;> simp

/-- A URL is its stripped form and some slashes. -/
theorem exists_slashes (url : Str) :
    ∃ slashes, (∀ c ∈ slashes, c = .ofChar '/') ∧ Str.rstrip (.ofChar '/') url ++ slashes = url := by
  refine ⟨(url.reverse.takeWhile (· = .ofChar '/')).reverse, ?_, ?_⟩
  · intro c hc
    simpa using List.mem_takeWhile_imp (List.mem_reverse.mp hc)
  · rw [Str.rstrip, ← List.reverse_append, List.takeWhile_append_dropWhile, List.reverse_reverse]

section
variable {slashes : Str} (hslashes : ∀ c ∈ slashes, c = .ofChar '/')
include hslashes

theorem cleaned_append (text : Str) : cleaned (text ++ slashes) = cleaned text ++ slashes := by
  have hkept : slashes.filter (fun c => !unsafeByte c) = slashes := by
    rw [List.filter_eq_self]
    intro c hc
    rw [hslashes c hc]
    rfl
  rw [cleaned, List.dropWhile_append, cleaned]
  split_ifs with hnone
  · have hfirst : slashes.dropWhile c0ControlOrSpace = slashes := by
      refine dropWhile_of_none fun c hc => ?_
      rw [hslashes c hc]
      rfl
    rw [hfirst, hkept, List.isEmpty_iff.mp hnone]
    rfl
  · rw [List.filter_append, hkept]

theorem splitScheme_append {text : Str} (hscheme : (splitScheme (text ++ slashes)).1 ≠ []) :
    splitScheme (text ++ slashes) = ((splitScheme text).1, (splitScheme text).2 ++ slashes) := by
  have hcolon : CodePoint.ofChar ':' ∈ text := by
    by_contra hnot
    refine hscheme ?_
    rw [splitScheme, if_neg]
    rintro ⟨hmem, -⟩
    rcases List.mem_append.mp hmem with htext | hslash
    · exact hnot htext
    · exact absurd (hslashes _ hslash) (by decide)
  have hname : (text ++ slashes).takeWhile (· ≠ .ofChar ':') = text.takeWhile (· ≠ .ofChar ':') :=
    congrArg Prod.fst (partition_append_of_mem hcolon slashes)
  have hlength : (text.takeWhile (· ≠ .ofChar ':')).length < text.length := by
    refine lt_of_le_of_ne (List.takeWhile_prefix _).length_le fun heq => ?_
    have hall := List.takeWhile_eq_self_iff.mp
      ((List.takeWhile_prefix _).eq_of_length heq) _ hcolon
    simp at hall
  have hall : CodePoint.ofChar ':' ∈ text ++ slashes := List.mem_append_left _ hcolon
  unfold splitScheme at hscheme ⊢
  simp only [hname, hcolon, hall, true_and] at hscheme ⊢
  split_ifs at hscheme ⊢ with hgood
  · rw [List.drop_append_of_le_length (by omega)]
  · exact absurd rfl hscheme

theorem splitNetloc_append {text : Str} (hnetloc : (splitNetloc (text ++ slashes)).1 ≠ []) :
    splitNetloc (text ++ slashes) = ((splitNetloc text).1, (splitNetloc text).2 ++ slashes) := by
  have hspan := span_append (fun c => !endsNetloc c) fun c (hc : c ∈ slashes) => by
    rw [hslashes c hc]
    rfl
  have hnone {tail : Str} (htail : ∀ c ∈ tail, c = .ofChar '/') :
      tail.takeWhile (fun c => !endsNetloc c) = [] := by
    have hends : ∀ c ∈ tail, (!endsNetloc c) = false := fun c hc => by
      rw [htail c hc]
      rfl
    simpa using (span_append _ hends []).1
  unfold splitNetloc at hnetloc ⊢
  match text with
  | [] =>
    refine absurd ?_ hnetloc
    split_ifs
    · exact hnone fun c hc => hslashes c (List.mem_of_mem_drop hc)
    · rfl
  | [c] =>
    refine absurd ?_ hnetloc
    split_ifs
    · exact hnone fun d hd => hslashes d (List.mem_of_mem_drop (show d ∈ slashes.drop 1 from hd))
    · rfl
  | c :: d :: text =>
    have htake : (c :: d :: text ++ slashes).take 2 = (c :: d :: text).take 2 := rfl
    have hdrop : (c :: d :: text ++ slashes).drop 2 = text ++ slashes := rfl
    have hdrop' : (c :: d :: text).drop 2 = text := rfl
    rw [htake, hdrop] at hnetloc ⊢
    rw [hdrop']
    split_ifs at hnetloc ⊢ with hopen
    · rw [(hspan text).1, (hspan text).2]
    · exact absurd rfl hnetloc

end

/-- Slashes at the end of an absolute URL without a query and a fragment are
those of its path. -/
theorem urlsplit_rstrip {checkNetloc : Str → Except Exc Unit} {url : Str} {found : SplitResult}
    (h : urlsplit checkNetloc url = .ok found) (hscheme : found.scheme ≠ [])
    (hnetloc : found.netloc ≠ []) (hquery : found.query = []) (hfragment : found.fragment = []) :
    ∃ path, urlsplit checkNetloc (Str.rstrip (.ofChar '/') url) = .ok { found with path } := by
  obtain ⟨slashes, hslashes, hurl⟩ := exists_slashes url
  rw [← hurl] at h
  unfold urlsplit at h ⊢
  rw [cleaned_append hslashes] at h
  generalize cleaned (Str.rstrip (.ofChar '/') url) = text at h ⊢
  cases hparts : splitScheme (text ++ slashes) with
  | mk scheme rest =>
  cases hrest : splitNetloc rest with
  | mk netloc tail =>
  simp only [hparts, hrest] at h
  split_ifs at h with hbrackets
  obtain ⟨⟨⟩, hcheck, h⟩ := bind_eq_ok.mp h
  obtain rfl := Except.ok.inj h
  have hscheme' := splitScheme_append hslashes
    (show (splitScheme (text ++ slashes)).1 ≠ [] by rw [hparts]; exact hscheme)
  rw [hparts] at hscheme'
  obtain ⟨hscheme₁, hscheme₂⟩ := Prod.mk.inj hscheme'
  have hnetloc' := splitNetloc_append hslashes
    (show (splitNetloc ((splitScheme text).2 ++ slashes)).1 ≠ [] by
      rw [← hscheme₂, hrest]; exact hnetloc)
  rw [← hscheme₂, hrest] at hnetloc'
  obtain ⟨hnetloc₁, hnetloc₂⟩ := Prod.mk.inj hnetloc'
  simp only [hnetloc₂] at hquery hfragment
  have hfragment' := partition_append_snd hfragment
  have hquery' : (partition (.ofChar '?') (partition (.ofChar '#')
      (splitNetloc (splitScheme text).2).2).1).2 = [] := by
    by_cases hhash : CodePoint.ofChar '#' ∈ (splitNetloc (splitScheme text).2).2
    · rw [partition_append_of_mem hhash] at hquery
      exact hquery
    · have hnone : CodePoint.ofChar '#' ∉ (splitNetloc (splitScheme text).2).2 ++ slashes := by
        intro hmem
        rcases List.mem_append.mp hmem with hin | hslash
        · exact hhash hin
        · exact absurd (hslashes _ hslash) (by decide)
      rw [partition_of_not_mem hnone] at hquery
      rw [partition_of_not_mem hhash]
      exact partition_append_snd hquery
  simp only [← hscheme₁, ← hnetloc₁, hnetloc₂, if_neg hbrackets, hcheck, hfragment', hquery']
  rw [hfragment, hquery]
  exact ⟨_, rfl⟩

end Litecast
