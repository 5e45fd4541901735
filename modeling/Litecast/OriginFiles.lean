import Litecast.Boundaries
import Litecast.DistributionUpdate
import Litecast.OriginFaults
import Litecast.Lib.Simulation

/-! An origin with its distribution file as the bytes on its disk. -/

namespace Litecast

open JsonText

/-- An origin whose distribution file is the one at `path`. -/
structure DiskOrigin where
  maxDistributionFolders : Nat
  diskMirror : Bool
  path : Str
  store : CheckpointStore
  files : Files
  directories : OrderedDict Str VersionDirectory := .empty

namespace DiskOrigin

/-- `OriginServer(data_dir)`: what is on the disk stays, and a distribution file
that is missing is created. -/
def start (maxDistributionFolders : Nat) (diskMirror : Bool) (ramCacheBytes : Nat) (path : Str)
    (files : Files) (directories : OrderedDict Str VersionDirectory) : DiskOrigin where
  maxDistributionFolders := maxDistributionFolders
  diskMirror := diskMirror
  path := path
  store := .new ramCacheBytes
  files := if (files path).isSome then files else Function.update files path (some [])
  directories := directories

def ensureDir (s : DiskOrigin) (version : Str) : DiskOrigin :=
  if s.directories.contains version then s
  else { s with directories := s.directories.insert version {} }

def removePruned (s : DiskOrigin) (removed : List Str) : DiskOrigin :=
  removed.foldl (fun s old =>
    { s with store := (s.store.remove old).2, directories := s.directories.erase old }) s

section
variable [Library]

/-- `line.split(":", 1)[0].strip() for line in handle if ":" in line` -/
def listedNames (file : Option Bytes) : Except Exc (List Str) :=
  match file with
  | none => .ok []
  | some data =>
    match decodeUtf8 data with
    | none => valueError []
    | some text =>
      .ok ((((Utils.universalNewlines text).splitOn (.ofChar '\n')).filter
        fun line => decide (.ofChar ':' ∈ line)).map
          fun line => strip (partition (.ofChar ':') line).1)

/-- `_next_version` -/
def nextVersion (s : DiskOrigin) : Except Exc Str := do
  let listed ← listedNames (s.files s.path)
  let candidates := s.store.listVersions.map VersionMetadata.name ++ listed ++ s.directories.keys
  return versionName ((candidates.filterMap versionNumber?).foldl max 0 + 1)

/-- From `update_distribution_file` on. -/
def announce (s : DiskOrigin) (version checksum : Str) (numShards : Int) (evicted : List Str)
    (mirror : Bool) : Except Exc Str × DiskOrigin :=
  match Utils.updateDistributionFile s.files s.path version checksum s.maxDistributionFolders
      numShards with
  | (.error e, files) => (.error e, { s with files })
  | (.ok removed, files) =>
    if mirror then (.ok version, { s with files }.removePruned removed)
    else
      match Utils.removeDistributionVersions files s.path evicted with
      | (.error e, files) => (.error e, { s with files })
      | (.ok (), files) =>
        let directories := evicted.foldl OrderedDict.erase s.directories
        (.ok version, { s with files, directories }.removePruned removed)

def broadcastBuffer (s : DiskOrigin) (buffer : Bytes) (shardSize : Int) (diskMirror : Option Bool) :
    Except Exc Str × DiskOrigin :=
  let mirror := diskMirror.getD s.diskMirror
  match s.nextVersion with
  | .error e => (.error e, s)
  | .ok version =>
    match buildManifest version buffer shardSize with
    | .error e => (.error e, s)
    | .ok shardManifest =>
      match s.store.putVerified version buffer shardSize shardManifest.checksum
          shardManifest.shardChecksums with
      | (.error e, store) => (.error e, { s with store })
      | (.ok metadata, store) =>
        let evicted := OriginServer.capacityEvictions s.store store
        let s := { s with store }.ensureDir version
        match shardManifest.toBytes,
            OriginServer.mirrorFiles store version metadata.shardCount mirror with
        | .error e, _ => (.error e, s)
        | _, .error e => (.error e, s)
        | .ok manifest, .ok shards =>
          let directory : VersionDirectory := { manifest := some manifest, shards }
          { s with directories := s.directories.insert version directory }.announce version
            metadata.checksum metadata.shardCount evicted mirror

def broadcastLarge (s : DiskOrigin) (data : Bytes) (shardSize : Int) :
    Except Exc Str × DiskOrigin :=
  match s.nextVersion with
  | .error e => (.error e, s)
  | .ok version =>
    let s := s.ensureDir version
    if shardSize = 0 then
      (.error ⟨.zeroDivisionError, str "integer division or modulo by zero"⟩, s)
    else
      let numShards := ((data.length : Int) + shardSize - 1).fdiv shardSize
      let directory : VersionDirectory :=
        { shards := OriginServer.fileShards data shardSize numShards.toNat }
      { s with directories := s.directories.insert version directory }.announce version
        (hexdigest data) numShards [] true

def broadcast (s : DiskOrigin) (file : Option Bytes) (shardSize : Int) :
    Except Exc Str × DiskOrigin :=
  match file with
  | none => (.error ⟨.fileNotFoundError, str "File not found"⟩, s)
  | some data =>
    if data.length ≤ s.store.capacity then s.broadcastBuffer data shardSize (some true)
    else s.broadcastLarge data shardSize

def call (s : DiskOrigin) : OriginServer.Call → Except Exc Str × DiskOrigin
  | .buffer data shardSize diskMirror => s.broadcastBuffer data shardSize diskMirror
  | .file data shardSize => s.broadcast data shardSize

end

/-! ## Lines of a distribution -/

def linesOf (d : Distribution) : Lines := d.mapValues Listing.info

/-- The text of the file. -/
def textOf (d : Distribution) : Str := (linesOf d).entries.flatMap Utils.lineText

@[simp] theorem keys_linesOf (d : Distribution) : (linesOf d).keys = d.keys :=
  OrderedDict.keys_mapValues _ d

@[simp] theorem length_linesOf (d : Distribution) : (linesOf d).length = d.length :=
  OrderedDict.length_mapValues _ d

theorem linesOf_drop (d : Distribution) (n : Nat) : linesOf (d.drop n) = (linesOf d).drop n :=
  OrderedDict.mapValues_drop _ d n

theorem linesOf_foldl_erase (d : Distribution) (gone : List Str) :
    linesOf (gone.foldl OrderedDict.erase d) = gone.foldl OrderedDict.erase (linesOf d) :=
  OrderedDict.mapValues_foldl_erase _ d gone

/-! ## A tidy file -/

section
variable [Library]

/-- The names are those of versions, in the order of their numbers, and every
checksum can stand in a line. -/
structure Tidy (d : Distribution) : Prop where
  inOrder : InOrder d
  named : ∀ name ∈ d.keys, ∃ n, name = versionName n
  inline : ∀ line ∈ d.entries, Utils.Inline line.2.checksum

omit [Library] in
theorem isVersion_versionName (n : Nat) : Utils.IsVersion (versionName n) :=
  ⟨decimal n, decimal_ne_nil n, isDigit_decimal n, rfl⟩

theorem lineKey?_versionName (n : Nat) : lineKey? (versionName n) = some (n : Int) := by
  rw [versionName, Utils.lineKey?_version (decimal_ne_nil n) (isDigit_decimal n),
    digitsValue_decimal]

theorem inline_hexdigest (data : Bytes) : Utils.Inline (hexdigest data) := by
  have hbounds : ∀ c ∈ hexdigest data, 48 ≤ c.val ∧ c.val ≤ 102 := by
    intro c hc
    rcases CodePoint.isHexDigit_cases (hex_isHexDigit _ c hc) with h | h | h <;> omega
  constructor
  · intro c hc
    have := hbounds c hc
    simp only [CodePoint.isSurrogate, Bool.and_eq_false_iff, decide_eq_false_iff_not]
    omega
  · intro c hc
    have := hbounds c hc
    constructor
    · rintro rfl
      exact absurd this (by decide)
    · rintro rfl
      exact absurd this (by decide)
  · intro c hc
    have := hbounds c (List.mem_of_head? hc)
    apply Utils.not_isSpace
    · simp only [CodePoint.asciiSpace, Bool.or_eq_false_iff, Bool.and_eq_false_iff,
        decide_eq_false_iff_not]
      omega
    · omega
    · omega

/-- The line of a version, whatever number of shards it has. -/
theorem oneLine_listing (n : Nat) {listing : Listing} (h : Utils.Inline listing.checksum) :
    Utils.OneLine (versionName n, listing.info) := by
  obtain ⟨checksum, numShards⟩ := listing
  cases numShards with
  | ofNat count => exact Utils.oneLine_version (isVersion_versionName n) h count
  | negSucc count =>
    have hline := Utils.oneLine_version (isVersion_versionName n) h (count + 1)
    have hminus : isSpace (.ofChar '-') = false :=
      Utils.not_isSpace (by decide) (by decide) (by decide)
    have hinfo : Listing.info ⟨checksum, .negSucc count⟩ =
        (checksum ++ str "|") ++ .ofChar '-' :: decimal (count + 1) := rfl
    have hmem : ∀ c ∈ versionName n ++ Listing.info ⟨checksum, .negSucc count⟩,
        c = .ofChar '-' ∨ c ∈ versionName n ++ lineInfo checksum (count + 1) := by
      intro c hc
      rw [hinfo] at hc
      simp only [lineInfo, List.mem_append, List.mem_cons] at hc ⊢
      tauto
    constructor
    · exact hline.name
    · exact hline.colon
    · rw [hinfo]
      apply Utils.strip_inline _ hminus (isDigit_decimal _)
      intro c hc
      cases checksum with
      | nil =>
        obtain rfl := Option.some.inj hc
        exact Utils.not_isSpace (by decide) (by decide) (by decide)
      | cons first rest => exact h.front c hc
    · intro c hc
      rcases hmem c hc with rfl | hc
      · decide
      · exact hline.unbroken c hc
    · intro c hc
      rcases hmem c hc with rfl | hc
      · decide
      · exact hline.isText c hc

namespace Tidy

variable {d : Distribution}

theorem empty : Tidy .empty where
  inOrder := List.Pairwise.nil
  named := fun _ h => absurd h List.not_mem_nil
  inline := fun _ h => absurd h List.not_mem_nil

theorem oneLine (h : Tidy d) : ∀ line ∈ (linesOf d).entries, Utils.OneLine line := by
  intro line hline
  obtain ⟨entry, hentry, rfl⟩ := List.mem_map.mp hline
  obtain ⟨n, hn⟩ := h.named entry.1 (List.mem_map_of_mem hentry)
  rw [hn]
  exact oneLine_listing n (h.inline entry hentry)

theorem encoded (h : Tidy d) : ∃ data, encodeUtf8 (textOf d) = some data :=
  Utils.encodeUtf8_lines fun line hline => (h.oneLine line hline).isText_lineText

theorem lineKey_eq (h : Tidy d) {name : Str} (hname : name ∈ d.keys) :
    lineKey name = versionKey name := by
  obtain ⟨n, rfl⟩ := h.named name hname
  rw [lineKey, lineKey?_versionName, versionKey_versionName, Option.getD_some]

theorem numbered (h : Tidy d) : Utils.AllNumbered (linesOf d) := by
  intro name hname
  rw [keys_linesOf] at hname
  obtain ⟨n, rfl⟩ := h.named name hname
  rw [lineKey?_versionName]
  rfl

/-- Sorting by the numbers in the names changes nothing. -/
theorem sorted (h : Tidy d) : (linesOf d).sortBy lineKey = linesOf d := by
  apply OrderedDict.ext_entries
  apply List.Pairwise.insertionSort_eq
  have hkeys : (linesOf d).keys.Pairwise fun a b => lineKey a ≤ lineKey b := by
    rw [keys_linesOf]
    refine h.inOrder.imp_of_mem ?_
    intro a b ha hb hlt
    rw [h.lineKey_eq ha, h.lineKey_eq hb]
    exact_mod_cast hlt.le
  rwa [OrderedDict.keys, List.pairwise_map] at hkeys

theorem sublist (h : Tidy d) {e : Distribution} (hsub : e.entries.Sublist d.entries) : Tidy e where
  inOrder := h.inOrder.sublist (hsub.map Prod.fst)
  named := fun name hname => h.named name ((hsub.map Prod.fst).subset hname)
  inline := fun line hline => h.inline line (hsub.subset hline)

theorem insert (h : Tidy d) {n : Nat} {listing : Listing}
    (hlast : ∀ name ∈ d.keys, versionKey name < versionKey (versionName n))
    (hinline : Utils.Inline listing.checksum) : Tidy (d.insert (versionName n) listing) where
  inOrder := h.inOrder.insert hlast
  named := by
    intro name hname
    obtain ⟨entry, hentry, rfl⟩ := List.mem_map.mp hname
    rcases OrderedDict.mem_entries_insert hentry with rfl | hentry
    · exact ⟨n, rfl⟩
    · exact h.named entry.1 (List.mem_map_of_mem hentry)
  inline := by
    intro line hline
    rcases OrderedDict.mem_entries_insert hline with rfl | hline
    · exact hinline
    · exact h.inline line hline

theorem read (h : Tidy d) {data : Bytes} (hdata : encodeUtf8 (textOf d) = some data) :
    Utils.parseDistributionFile (some data) = .ok (linesOf d) ∧
      listAvailableVersions (some data) = linesOf d :=
  Utils.read_written h.oneLine hdata

end Tidy

end

/-! ## The file and the dictionary -/

/-- The files of a host, with the lines of `d` in the one at `path`. -/
def Holds (others : Files) (path : Str) (d : Distribution) (files : Files) : Prop :=
  ∃ data, encodeUtf8 (textOf d) = some data ∧ files = Function.update others path (some data)

theorem updateDistributionFile_eq {d : Distribution} {version : Str} {listing : Listing}
    (hd : InOrder (d.insert version listing)) (maxVersions : Nat) :
    updateDistributionFile d version listing maxVersions =
      let inserted := d.insert version listing
      (inserted.drop (inserted.length - maxVersions),
        inserted.keys.take (inserted.length - maxVersions)) := by
  have hsorted : (d.insert version listing).keys.insertionSort
      (fun a b => versionKey a ≤ versionKey b) = (d.insert version listing).keys :=
    List.Pairwise.insertionSort_eq (hd.imp fun hlt => hlt.le)
  have hpruned : prunedVersions (d.insert version listing) maxVersions =
      (d.insert version listing).keys.take ((d.insert version listing).length - maxVersions) := by
    rw [prunedVersions, hsorted]
    split_ifs with hmany
    · rfl
    · rw [Nat.sub_eq_zero_of_le (Nat.le_of_not_lt hmany), List.take_zero]
  simp only [updateDistributionFile, hpruned, OrderedDict.foldl_erase_take]
  rw [sortBy_of_inOrder]
  exact hd.sublist ((List.drop_sublist _ _).map Prod.fst)

section
variable [Library] {others files : Files} {path : Str} {d : Distribution}

theorem Holds.read (h : Holds others path d files) (hd : Tidy d) :
    Utils.parseDistributionFile (files path) = .ok (linesOf d) := by
  obtain ⟨data, hdata, rfl⟩ := h
  rw [Function.update_self]
  exact (hd.read hdata).1

theorem Holds.update (h : Holds others path d files) (hd : Tidy d) {n : Nat} {checksum : Str}
    (hlast : ∀ name ∈ d.keys, versionKey name < versionKey (versionName n))
    (hinline : Utils.Inline checksum) (numShards : Int) (maxVersions : Nat) :
    let updated := updateDistributionFile d (versionName n) ⟨checksum, numShards⟩ maxVersions
    ∃ files', Utils.updateDistributionFile files path (versionName n) checksum maxVersions
        numShards = (.ok updated.2, files') ∧ Holds others path updated.1 files' ∧
      Tidy updated.1 := by
  have hinserted : Tidy (d.insert (versionName n) ⟨checksum, numShards⟩) :=
    hd.insert hlast hinline
  simp only [updateDistributionFile_eq hinserted.inOrder]
  set inserted := d.insert (versionName n) ⟨checksum, numShards⟩ with hset
  have hwith : Utils.withLine (linesOf d) (versionName n) checksum numShards = linesOf inserted :=
    (OrderedDict.mapValues_insert Listing.info d (versionName n) ⟨checksum, numShards⟩).symm
  have hkept : Tidy (inserted.drop (inserted.length - maxVersions)) :=
    hinserted.sublist (List.drop_sublist _ _)
  obtain ⟨data, hdata⟩ := hkept.encoded
  have hhighest : OrderedDict.highest lineKey maxVersions (linesOf inserted) =
      linesOf (inserted.drop (inserted.length - maxVersions)) := by
    rw [OrderedDict.highest, hinserted.sorted, length_linesOf, linesOf_drop]
  have hlowest : OrderedDict.lowest lineKey maxVersions (linesOf inserted) =
      inserted.keys.take (inserted.length - maxVersions) := by
    rw [OrderedDict.lowest, hinserted.sorted, length_linesOf, keys_linesOf]
  have hupdate : Utils.updateDistributionFile files path (versionName n) checksum
      (maxVersions : Int) numShards = _ :=
    Utils.updateDistributionFile_numbered (h.read hd) (hwith ▸ hinserted.numbered)
  simp only [hwith, Int.toNat_natCast, hhighest, hlowest, Utils.writeLines_ok hdata] at hupdate
  refine ⟨_, hupdate, ⟨data, hdata, ?_⟩, hkept⟩
  obtain ⟨old, -, rfl⟩ := h
  rw [Function.update_idem]

omit [Library] in
theorem temporary_ne (path : Str) : path ++ str ".tmp" ≠ path := by
  intro h
  have := congrArg List.length h
  simp [str] at this

theorem Holds.remove (h : Holds others path d files) (hd : Tidy d)
    (htemporary : others (path ++ str ".tmp") = none) (versions : List Str) :
    ∃ files', Utils.removeDistributionVersions files path versions = (.ok (), files') ∧
      Holds others path (removeDistributionVersions d versions) files' ∧
      Tidy (removeDistributionVersions d versions) := by
  rw [removeDistributionVersions_eq hd.inOrder]
  have hkept : Tidy (versions.foldl OrderedDict.erase d) :=
    hd.sublist (entries_foldl_erase_sublist versions d)
  unfold Utils.removeDistributionVersions
  split_ifs with hnone
  · subst hnone
    exact ⟨files, rfl, h, hd⟩
  · obtain ⟨data, hdata⟩ := hkept.encoded
    have hlines : versions.foldl OrderedDict.erase (linesOf d) =
        linesOf (versions.foldl OrderedDict.erase d) :=
      (linesOf_foldl_erase d versions).symm
    simp only [h.read hd, hlines, Utils.rewriteLines, Utils.sortedByNumber_ok hkept.numbered,
      hkept.sorted, Utils.writeLines_ok hdata]
    refine ⟨_, rfl, ⟨data, hdata, ?_⟩, hkept⟩
    obtain ⟨old, -, rfl⟩ := h
    funext other
    have hne := temporary_ne path
    by_cases htmp : other = path ++ str ".tmp"
    · subst htmp
      simp [hne, htemporary]
    · by_cases hpath : other = path
      · subst hpath
        simp [Ne.symm hne]
      · simp [htmp, hpath]

/-- `_next_version` reads the names in the lines. -/
theorem Holds.listedNames (h : Holds others path d files) (hd : Tidy d) :
    DiskOrigin.listedNames (files path) = .ok d.keys := by
  obtain ⟨data, hdata, rfl⟩ := h
  have hdecode := decodeUtf8_eq_some_iff.mpr hdata
  have hreturn : CodePoint.ofChar '\r' ∉ textOf d := by
    intro hc
    obtain ⟨line, hline, hc⟩ := List.mem_flatMap.mp hc
    rcases List.mem_append.mp hc with hc | hc
    · exact ((hd.oneLine line hline).unbroken_text _ hc).2 rfl
    · exact absurd (List.mem_singleton.mp hc) (by decide)
  have hnames : ∀ lines : List (Str × Str), (∀ line ∈ lines, Utils.OneLine line) →
      (((lines.flatMap Utils.lineText).splitOn (.ofChar '\n')).filter
        fun line => decide (.ofChar ':' ∈ line)).map
          (fun line => strip (partition (.ofChar ':') line).1) = lines.map Prod.fst := by
    intro lines
    induction lines with
    | nil => exact fun _ => rfl
    | cons line rest ih =>
      intro hlines
      have hline := hlines line List.mem_cons_self
      have hnot : CodePoint.ofChar '\n' ∉ line.1 ++ str ": " ++ line.2 := fun hmem =>
        (hline.unbroken_text _ hmem).1 rfl
      have htext : (line :: rest).flatMap Utils.lineText =
          (line.1 ++ str ": " ++ line.2) ++ .ofChar '\n' :: rest.flatMap Utils.lineText := by
        simp [Utils.lineText]
      have hcolon : line.1 ++ str ": " ++ line.2 =
          line.1 ++ .ofChar ':' :: (.ofChar ' ' :: line.2) := by
        rw [List.append_assoc]
        rfl
      have hfirst : partition (.ofChar ':') (line.1 ++ str ": " ++ line.2) =
          (line.1, .ofChar ' ' :: line.2) := by
        rw [hcolon, Utils.partition_middle hline.colon]
      rw [htext, List.splitOn_append_cons_self, List.splitOn_eq_singleton hnot,
        List.singleton_append, List.filter_cons_of_pos (by rw [hcolon]; simp), List.map_cons,
        List.map_cons, hfirst, hline.name]
      exact congrArg _ (ih fun line hmem => hlines line (List.mem_cons_of_mem _ hmem))
  rw [Function.update_self]
  simp only [DiskOrigin.listedNames, hdecode, Utils.universalNewlines_of_not_mem hreturn]
  rw [textOf, hnames _ hd.oneLine]
  exact congrArg Except.ok (keys_linesOf d)

end

/-! ## Refinement -/

section
variable [Library]

/-- What `s` keeps in a dictionary, `t` has in its file; all else is the same. -/
structure Refines (others : Files) (path : Str) (t : DiskOrigin) (s : OriginServer) : Prop where
  located : t.path = path
  folders : t.maxDistributionFolders = s.maxDistributionFolders
  diskMirror : t.diskMirror = s.diskMirror
  store : t.store = s.store
  directories : t.directories = s.directories
  holds : Holds others path s.distribution t.files
  tidy : Tidy s.distribution
  temporary : others (path ++ str ".tmp") = none

variable {others : Files} {path : Str} {s : OriginServer} {t : DiskOrigin}

theorem Refines.nextVersion (h : Refines others path t s) : t.nextVersion = .ok s.nextVersion := by
  simp only [DiskOrigin.nextVersion, h.located, h.holds.listedNames h.tidy, h.store, h.directories]
  rfl

theorem Refines.withStore (h : Refines others path t s) (store : CheckpointStore) :
    Refines others path { t with store } { s with store } :=
  ⟨h.located, h.folders, h.diskMirror, rfl, h.directories, h.holds, h.tidy, h.temporary⟩

theorem Refines.withDirectory (h : Refines others path t s) (version : Str)
    (directory : VersionDirectory) :
    Refines others path { t with directories := t.directories.insert version directory }
      { s with directories := s.directories.insert version directory } where
  located := h.located
  folders := h.folders
  diskMirror := h.diskMirror
  store := h.store
  directories := by rw [h.directories]
  holds := h.holds
  tidy := h.tidy
  temporary := h.temporary

theorem Refines.ensureDir (h : Refines others path t s) (version : Str) :
    Refines others path (t.ensureDir version) (s.ensureDir version) := by
  rw [DiskOrigin.ensureDir, OriginServer.ensureDir, h.directories]
  split_ifs
  · exact h
  · exact h.directories ▸ h.withDirectory version {}

theorem Refines.removePruned (h : Refines others path t s) (removed : List Str) :
    Refines others path (t.removePruned removed) (s.removePruned removed) := by
  induction removed generalizing t s with
  | nil => exact h
  | cons old rest ih =>
    apply ih
    constructor
    · exact h.located
    · exact h.folders
    · exact h.diskMirror
    · simp only [h.store]
    · simp only [h.directories]
    · exact h.holds
    · exact h.tidy
    · exact h.temporary

theorem Refines.announce (h : Refines others path t s) {n : Nat} {checksum : Str}
    (hlast : ∀ name ∈ s.distribution.keys, versionKey name < versionKey (versionName n))
    (hinline : Utils.Inline checksum) (numShards : Int) (evicted : List Str) (mirror : Bool) :
    (t.announce (versionName n) checksum numShards evicted mirror).1 = .ok (versionName n) ∧
      Refines others path (t.announce (versionName n) checksum numShards evicted mirror).2
        (s.announce (versionName n) ⟨checksum, numShards⟩ evicted mirror) := by
  obtain ⟨files, hupdate, hholds, htidy⟩ :=
    h.holds.update h.tidy hlast hinline numShards t.maxDistributionFolders
  have hmodel : updateDistributionFile s.distribution (versionName n) ⟨checksum, numShards⟩
      s.maxDistributionFolders = updateDistributionFile s.distribution (versionName n)
        ⟨checksum, numShards⟩ t.maxDistributionFolders := by rw [h.folders]
  unfold DiskOrigin.announce OriginServer.announce
  simp only [h.located, hupdate, hmodel]
  generalize updateDistributionFile s.distribution (versionName n) ⟨checksum, numShards⟩
    t.maxDistributionFolders = updated at hholds htidy
  obtain ⟨distribution, removed⟩ := updated
  cases mirror with
  | true =>
    refine ⟨rfl, Refines.removePruned ?_ removed⟩
    exact ⟨rfl, h.folders, h.diskMirror, h.store, h.directories, hholds, htidy, h.temporary⟩
  | false =>
    obtain ⟨files', hremove, hholds', htidy'⟩ := hholds.remove htidy h.temporary evicted
    simp only [Bool.false_eq_true, if_false, hremove, true_and]
    apply Refines.removePruned
    refine ⟨rfl, h.folders, h.diskMirror, h.store, ?_, hholds', htidy', h.temporary⟩
    exact congrArg (evicted.foldl OrderedDict.erase) h.directories

variable (hlower : ∀ data, lower (hexdigest data) = hexdigest data)
include hlower

theorem Refines.broadcastBuffer (h : Refines others path t s) (hs : s.Orderly)
    (buffer : Bytes) (shardSize : Int) (diskMirror : Option Bool) :
    (t.broadcastBuffer buffer shardSize diskMirror).1 =
        (s.broadcastBuffer buffer shardSize diskMirror).1 ∧
      Refines others path (t.broadcastBuffer buffer shardSize diskMirror).2
        (s.broadcastBuffer buffer shardSize diskMirror).2 := by
  have hmirror : diskMirror.getD t.diskMirror = diskMirror.getD s.diskMirror := by rw [h.diskMirror]
  unfold DiskOrigin.broadcastBuffer OriginServer.broadcastBuffer
  simp only [h.nextVersion, hmirror]
  cases hm : buildManifest s.nextVersion buffer shardSize with
  | error e => exact ⟨rfl, h⟩
  | ok m =>
    simp only [h.store]
    rcases OriginServer.putVerified_built hs.stocked hm with
      ⟨-, e, hput⟩ | ⟨-, metadata, store, hput, -, hchecksum, -⟩
    · simp only [hput]
      exact ⟨trivial, h.withStore s.store⟩
    · simp only [hput]
      have hensured := (h.withStore store).ensureDir s.nextVersion
      have hlines : (OriginServer.ensureDir { s with store } s.nextVersion).distribution =
          s.distribution := (OriginServer.ensureDir_frame _ _).2.1
      cases m.toBytes with
      | error e => exact ⟨rfl, hensured⟩
      | ok manifest =>
        cases OriginServer.mirrorFiles store s.nextVersion metadata.shardCount
          (diskMirror.getD s.diskMirror) with
        | error e => exact ⟨rfl, hensured⟩
        | ok shards =>
          apply Refines.announce
          · exact hensured.withDirectory s.nextVersion _
          · intro name hname
            simp only [hlines] at hname
            exact OriginServer.Orderly.listed_older hname
          · rw [hchecksum, hlower]
            exact inline_hexdigest buffer

omit hlower in
theorem Refines.broadcastLarge (h : Refines others path t s) (data : Bytes) (shardSize : Int) :
    (t.broadcastLarge data shardSize).1 = (s.broadcastLarge data shardSize).1 ∧
      Refines others path (t.broadcastLarge data shardSize).2
        (s.broadcastLarge data shardSize).2 := by
  unfold DiskOrigin.broadcastLarge OriginServer.broadcastLarge
  simp only [h.nextVersion]
  have hensured := h.ensureDir s.nextVersion
  have hlines : (s.ensureDir s.nextVersion).distribution = s.distribution :=
    (OriginServer.ensureDir_frame _ _).2.1
  split_ifs with hzero
  · exact ⟨rfl, hensured⟩
  · apply Refines.announce
    · exact hensured.withDirectory s.nextVersion _
    · intro name hname
      simp only [hlines] at hname
      exact OriginServer.Orderly.listed_older hname
    · exact inline_hexdigest data

theorem Refines.call (h : Refines others path t s) (hs : s.Orderly) (c : OriginServer.Call) :
    (t.call c).1 = (c.run s).1 ∧ Refines others path (t.call c).2 (s.call c) := by
  unfold OriginServer.call
  cases c with
  | buffer data shardSize diskMirror =>
    exact h.broadcastBuffer hlower hs data shardSize diskMirror
  | file data shardSize =>
    cases data with
    | none => exact ⟨rfl, h⟩
    | some data =>
      unfold DiskOrigin.call DiskOrigin.broadcast OriginServer.Call.run OriginServer.broadcast
      simp only [h.store]
      split_ifs
      · exact h.broadcastBuffer hlower hs data shardSize (some true)
      · exact h.broadcastLarge data shardSize

end

/-! ## Runs -/

/-- A call, or a new process on the same disk. -/
inductive Event where
  | call (c : OriginServer.Call)
  | restart (maxDistributionFolders : Nat) (diskMirror : Bool) (ramCacheBytes : Nat)

/-- An origin keeps at least one version. -/
def Event.Legal : Event → Prop
  | .call _ => True
  | .restart maxDistributionFolders _ _ => 1 ≤ maxDistributionFolders

section
variable [Library]

def step (s : DiskOrigin) : Event → Option (Except Exc Str) × DiskOrigin
  | .call c => ((s.call c).map some id)
  | .restart maxDistributionFolders diskMirror ramCacheBytes =>
    (none, start maxDistributionFolders diskMirror ramCacheBytes s.path s.files s.directories)

/-- The same events with the lines in a dictionary. -/
def modelStep (s : OriginServer) : Event → Option (Except Exc Str) × OriginServer
  | .call c => ((c.run s).map some id)
  | .restart maxDistributionFolders diskMirror ramCacheBytes =>
    (none, s.restart maxDistributionFolders diskMirror ramCacheBytes)

theorem Refines.restart {others : Files} {path : Str} {t : DiskOrigin} {s : OriginServer}
    (h : Refines others path t s)
    (maxDistributionFolders : Nat) (diskMirror : Bool) (ramCacheBytes : Nat) :
    Refines others path
      (start maxDistributionFolders diskMirror ramCacheBytes t.path t.files t.directories)
      (s.restart maxDistributionFolders diskMirror ramCacheBytes) := by
  have hfile : (t.files t.path).isSome = true := by
    obtain ⟨data, -, hfiles⟩ := h.holds
    rw [hfiles, h.located, Function.update_self]
    rfl
  refine ⟨h.located, rfl, rfl, rfl, h.directories, ?_, h.tidy, h.temporary⟩
  simp only [start, if_pos hfile]
  exact h.holds

theorem refines_new {files : Files} {path : Str}
    (hmissing : files path = none ∨ files path = some [])
    (htemporary : files (path ++ str ".tmp") = none) (maxDistributionFolders : Nat)
    (diskMirror : Bool) (ramCacheBytes : Nat) :
    Refines files path (start maxDistributionFolders diskMirror ramCacheBytes path files .empty)
      (.new maxDistributionFolders diskMirror ramCacheBytes) := by
  refine ⟨rfl, rfl, rfl, rfl, rfl, ⟨[], rfl, ?_⟩, Tidy.empty, htemporary⟩
  rcases hmissing with hnone | hnil
  · simp [start, hnone]
  · simp only [start, hnil, Option.isSome_some, if_true]
    rw [Function.update_eq_self_iff.mpr hnil.symm]

/-- **The bytes of the distribution file say what the origin knows.** Over any
calls and restarts an origin that reads its lines back from disk before every
call returns what one with a dictionary returns, keeps the same in RAM and in its
directories, and touches no file but the distribution file. That is the text of
the dictionary's lines and nothing else; whoever reads it finds them in order. -/
theorem run_on_disk (hlower : ∀ data, lower (hexdigest data) = hexdigest data) {files : Files}
    {path : Str} (hmissing : files path = none ∨ files path = some [])
    (htemporary : files (path ++ str ".tmp") = none) {maxDistributionFolders : Nat}
    (hfolders : 1 ≤ maxDistributionFolders) (diskMirror : Bool) (ramCacheBytes : Nat)
    {events : List Event} (hlegal : ∀ e ∈ events, e.Legal) :
    let disk := Simulation.run step
      (start maxDistributionFolders diskMirror ramCacheBytes path files .empty) events
    let origin := Simulation.run modelStep
      (.new maxDistributionFolders diskMirror ramCacheBytes) events
    disk.1 = origin.1 ∧ disk.2.store = origin.2.store ∧
      disk.2.directories = origin.2.directories ∧
      ∃ data, disk.2.files = Function.update files path (some data) ∧
        encodeUtf8 (textOf origin.2.distribution) = some data ∧
        Utils.parseDistributionFile (some data) = .ok (linesOf origin.2.distribution) ∧
        listAvailableVersions (some data) = linesOf origin.2.distribution ∧
        InOrder origin.2.distribution := by
  intro disk origin
  have hkeep (t : DiskOrigin) (s : OriginServer) (e : Event)
      (h : Refines files path t s ∧ s.Orderly) (hlegal : e.Legal) :
      (step t e).1 = (modelStep s e).1 ∧
        Refines files path (step t e).2 (modelStep s e).2 ∧ (modelStep s e).2.Orderly := by
    obtain ⟨hrefines, hs⟩ := h
    cases e with
    | call c =>
      obtain ⟨hreturned, hrefines⟩ := hrefines.call hlower hs c
      exact ⟨congrArg some hreturned, hrefines, OriginServer.call_orderly hs c⟩
    | restart maxDistributionFolders diskMirror ramCacheBytes =>
      exact ⟨rfl, hrefines.restart _ _ _, CheckpointStore.ledger_new _,
        CheckpointStore.every_new _, hs.inOrder, hlegal⟩
  have hnew := refines_new hmissing htemporary maxDistributionFolders diskMirror ramCacheBytes
  obtain ⟨hreturned, hrefines, -⟩ := Simulation.run_simulates hkeep
    ⟨hnew, OriginServer.orderly_new hfolders diskMirror ramCacheBytes⟩ hlegal
  obtain ⟨data, hdata, hfiles⟩ := hrefines.holds
  obtain ⟨hparse, hlist⟩ := hrefines.tidy.read hdata
  exact ⟨hreturned, hrefines.store, hrefines.directories, data, hfiles, hdata, hparse, hlist,
    hrefines.tidy.inOrder⟩

omit [Library] in
/-- Two versions with a restart between them, where one is kept. -/
theorem run_on_disk_two_versions :
    letI := asciiLibrary
    let events : List Event := [.call (.buffer [1, 2, 3] 2 none), .restart 1 true 8,
      .call (.file (some [4, 5]) 2)]
    let disk := Simulation.run step
      (start 2 false 8 (str "data/distribution.txt") (fun _ => none) .empty) events
    let origin := Simulation.run modelStep (.new 2 false 8) events
    disk.1 = origin.1 ∧
      disk.2.files (str "data/distribution.txt") = encodeUtf8 (textOf origin.2.distribution) ∧
      Utils.parseDistributionFile (disk.2.files (str "data/distribution.txt")) =
        .ok (linesOf origin.2.distribution) := by
  let _ := asciiLibrary
  intro events disk origin
  have hlegal : ∀ e ∈ events, e.Legal := by simp [events, Event.Legal]
  clear_value events
  obtain ⟨hreturned, -, -, data, hfiles, hdata, hparse, -⟩ :=
    @run_on_disk asciiLibrary (fun data => asciiLower_hex _) (fun _ => none)
      (str "data/distribution.txt") (Or.inl rfl) rfl 2 (by decide) false 8 events hlegal
  have hfile := congrFun hfiles (str "data/distribution.txt")
  rw [Function.update_self] at hfile
  exact ⟨hreturned, hfile.trans hdata.symm, (congrArg Utils.parseDistributionFile hfile).trans hparse⟩

end

end DiskOrigin

end Litecast
