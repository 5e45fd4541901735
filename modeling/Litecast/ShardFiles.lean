import Litecast.Boundaries
import Litecast.Lib.Lexicographic

/-! The files of a version in the order in which a middle hashes them. -/

namespace Litecast

open JsonText (isDigit)

/-! ## Names in order -/

def fileKey (index : Nat) : List Nat := (getShardFilename index).map CodePoint.val

theorem le_iff_fileKey {i j : Nat} :
    (getShardFilename i).le (getShardFilename j) = true ↔ fileKey i ≤ fileKey j := decide_eq_true_iff

theorem getShardFilename_injective : Function.Injective getShardFilename := by
  intro i j h
  exact shardPath_injective [] (by rw [shardPath, shardPath, h])

theorem fileKey_injective : Function.Injective fileKey :=
  (List.map_injective_iff.mpr CodePoint.val_injective).comp getShardFilename_injective

theorem value_zeroPadded (n : Nat) :
    Lexicographic.value 10 48 0 ((zeroPadded n).map CodePoint.val) = n := by
  have hvalue := digitsValue_zeroPadded n
  rw [JsonText.digitsValue] at hvalue
  rw [Lexicographic.value, List.foldl_map, hvalue]

theorem areDigits_zeroPadded (n : Nat) :
    Lexicographic.AreDigits 10 48 ((zeroPadded n).map CodePoint.val) := by
  intro c hc
  obtain ⟨d, hd, rfl⟩ := List.mem_map.mp hc
  have hdigit := isDigit_zeroPadded n d hd
  simp only [isDigit, Bool.and_eq_true, decide_eq_true_eq] at hdigit
  omega

theorem length_fiveDigits {n : Nat} (h : n < 100000) : (zeroPadded n).length = 5 := by
  have hle := (JsonText.length_decimal_le_iff (by decide : 1 ≤ 5)).mpr h
  rw [length_zeroPadded]
  omega

theorem le_antisymm_names : Std.Antisymm fun a b =>
    (getShardFilename a).le (getShardFilename b) = true where
  antisymm := fun _ _ hab hba =>
    fileKey_injective (le_antisymm (le_iff_fileKey.mp hab) (le_iff_fileKey.mp hba))

theorem le_total_names : Std.Total fun a b =>
    (getShardFilename a).le (getShardFilename b) = true where
  total := fun a b => (le_total (fileKey a) (fileKey b)).imp le_iff_fileKey.mpr le_iff_fileKey.mpr

theorem le_trans_names : IsTrans Nat fun a b =>
    (getShardFilename a).le (getShardFilename b) = true where
  trans := fun _ _ _ hab hbc =>
    le_iff_fileKey.mpr (le_trans (le_iff_fileKey.mp hab) (le_iff_fileKey.mp hbc))

/-- Numbers of five digits order the names. -/
theorem fileKey_lt {i j : Nat} (hij : i < j) (hj : j < 99999) : fileKey i < fileKey j := by
  have hlength : ((zeroPadded (i + 1)).map CodePoint.val).length =
      ((zeroPadded (j + 1)).map CodePoint.val).length := by
    rw [List.length_map, List.length_map, length_fiveDigits (by omega), length_fiveDigits (by omega)]
  have hdigits : (zeroPadded (i + 1)).map CodePoint.val < (zeroPadded (j + 1)).map CodePoint.val := by
    apply Lexicographic.lt_of_value_lt hlength (areDigits_zeroPadded _)
    rw [value_zeroPadded, value_zeroPadded]
    omega
  simp only [fileKey, getShardFilename, List.map_append]
  exact Lexicographic.append_lt hlength hdigits

/-- The first number of six digits comes before the last of five. -/
theorem fileKey_sixDigits : fileKey 99999 < fileKey 99998 := by decide +kernel

/-! ## Hashing the files -/

/-- `handle.read(1024 * 1024)` until nothing is left, each chunk going into the
digest. -/
def hashFile (hashed rest : Bytes) : Bytes :=
  if rest = [] then hashed
  else hashFile (hashed ++ rest.take (1024 * 1024)) (rest.drop (1024 * 1024))
  termination_by rest.length
  decreasing_by
    rename_i hne
    have hpos : 0 < rest.length := List.length_pos_iff.mpr hne
    rw [List.length_drop]
    omega

/-- What has gone into the digest after all files. -/
def hashFiles (files : List Bytes) : Bytes := files.foldl hashFile []

theorem hashFile_eq (hashed rest : Bytes) : hashFile hashed rest = hashed ++ rest := by
  induction hashed, rest using hashFile.induct with
  | case1 hashed =>
    rw [hashFile, if_pos rfl, List.append_nil]
  | case2 hashed rest hne ih =>
    rw [hashFile, if_neg hne, ih, List.append_assoc, List.take_append_drop]

theorem hashFiles_eq (files : List Bytes) : hashFiles files = files.flatten := by
  have hfrom : ∀ hashed : Bytes, files.foldl hashFile hashed = hashed ++ files.flatten := by
    induction files with
    | nil => exact fun hashed => (List.append_nil hashed).symm
    | cons file rest ih =>
      intro hashed
      rw [List.foldl_cons, ih, hashFile_eq, List.append_assoc, List.flatten_cons]
  exact hfrom []

namespace Monitor

/-- The shards of a version one after the other. -/
def inIndexOrder (shards : Nat → Bytes) (count : Nat) : Bytes :=
  ((List.range count).map shards).flatten

theorem sortedFiles_of_lt {count : Nat} (h : count < 100000) (shards : Nat → Bytes) :
    sortedFiles (fun index => some (shards index)) count = (List.range count).map shards := by
  have hsorted : (List.range count).Pairwise fun a b =>
      (getShardFilename a).le (getShardFilename b) = true := by
    apply List.pairwise_lt_range.imp_of_mem
    intro a b _ hb hab
    rw [List.mem_range] at hb
    exact le_iff_fileKey.mpr (fileKey_lt hab (by omega)).le
  rw [sortedFiles, List.Pairwise.insertionSort_eq hsorted]
  exact congrFun List.filterMap_eq_map _

/-- Shards of one byte each, of which the last two of five digits differ. -/
def lastBytes (index : Nat) : UInt8 :=
  if index = 99999 then 2 else if index = 99998 then 1 else 0

theorem lastBytes_eq {index : Nat} :
    (lastBytes index = 2 ↔ index = 99999) ∧ (lastBytes index = 1 ↔ index = 99998) := by
  rw [lastBytes]
  split_ifs with hlast hprevious
  · rw [hlast]
    decide
  · rw [hprevious]
    decide
  · exact ⟨iff_of_false (by decide) hlast, iff_of_false (by decide) hprevious⟩

/-- The last of five digits is hashed after the first of six. -/
theorem sortedFiles_of_ge {count : Nat} (h : 100000 ≤ count) :
    (sortedFiles (fun index => some [lastBytes index]) count).flatten ≠
      inIndexOrder (fun index => [lastBytes index]) count := by
  have hbytes : ∀ indices : List Nat,
      (indices.map fun index => [lastBytes index]).flatten = indices.map lastBytes := by
    intro indices
    induction indices with
    | nil => rfl
    | cons index rest ih =>
      rw [List.map_cons, List.flatten_cons, ih]
      rfl
  have hfiles : ∀ indices : List Nat, indices.filterMap (fun index => some [lastBytes index]) =
      indices.map fun index => [lastBytes index] := congrFun List.filterMap_eq_map
  have hpair : [99999, 99998].Sublist ((List.range count).insertionSort fun a b =>
      (getShardFilename a).le (getShardFilename b) = true) := by
    have hsub : [99999, 99998].Subperm (List.range count) := by
      apply List.subperm_of_subset (by decide)
      intro index hindex
      simp only [List.mem_cons, List.not_mem_nil, or_false] at hindex
      rw [List.mem_range]
      omega
    have := le_antisymm_names
    have := le_total_names
    have := le_trans_names
    exact List.pair_sublist_insertionSort' (le_iff_fileKey.mpr fileKey_sixDigits.le) hsub
  intro heq
  rw [sortedFiles, hfiles, hbytes, inIndexOrder, hbytes] at heq
  -- the two bytes in the order of the files would be two shards in the order of their indices
  have hswapped := hpair.map lastBytes
  rw [heq, List.sublist_map_iff] at hswapped
  obtain ⟨indices, hindices, hmap⟩ := hswapped
  obtain ⟨i, j, rfl⟩ : ∃ i j, indices = [i, j] := List.length_eq_two.mp (by
    simpa using (congrArg List.length hmap).symm)
  have hi : lastBytes i = 2 := (List.cons.inj hmap).1.symm
  have hj : lastBytes j = 1 := (List.cons.inj (List.cons.inj hmap).2).1.symm
  rw [lastBytes_eq.1] at hi
  rw [lastBytes_eq.2] at hj
  have hlt : i < j := by
    have hpairwise := List.pairwise_lt_range.sublist hindices
    exact (List.pairwise_cons.mp hpairwise).1 j List.mem_cons_self
  omega

/-- A library whose digest tells one payload from the others. -/
@[reducible] def tellingLibrary (payload : Bytes) : Library :=
  { asciiLibrary with
    blake3 := fun data => if data = payload then paddedDigest [1] else paddedDigest [] }

theorem hexdigest_telling {payload data : Bytes} :
    letI := tellingLibrary payload
    hexdigest data = hexdigest payload ↔ data = payload := by
  have hne : (paddedDigest []).hex ≠ (paddedDigest [1]).hex := by decide +kernel
  have htold : ∀ data : Bytes, (tellingLibrary payload).blake3 data =
      if data = payload then paddedDigest [1] else paddedDigest [] := fun _ => rfl
  simp only [hexdigest]
  rw [htold, htold, if_pos (Eq.refl payload)]
  split_ifs with hdata
  · exact iff_of_true rfl hdata
  · exact iff_of_false hne hdata

/-- A middle that has all the files of a new version takes it when what it
hashes has the published digest. -/
theorem whole_files_iff [Library] {config : Config} (hmirror : config.diskMirror = true) {s : Middle}
    {version : Str} (hnew : version ∉ s.processedVersions) (checksum : Str) (count : Nat)
    (shards : Nat → Bytes) :
    version ∈ (processWhole config s version checksum count
        { shardFile := fun index => some (shards index) }).2.processedVersions ↔
      hexdigest (sortedFiles (fun index => some (shards index)) count).flatten = checksum := by
  have hall : (List.range count).all (fun index => (some (shards index)).isSome) = true :=
    List.all_eq_true.mpr fun _ _ => rfl
  simp only [processWhole, if_pos hmirror, processFiles, hall, true_and]
  split_ifs with hdigest
  · exact iff_of_true List.mem_insert_self hdigest
  · exact iff_of_false hnew hdigest

/-- **The files are hashed in the order of their shards exactly when five digits
number them.** Then, and only then, is every version taken whose shards all
arrived as they were published. -/
theorem hashed_in_order_iff (count : Nat) :
    ((∀ shards : Nat → Bytes,
        hashFiles (sortedFiles (fun index => some (shards index)) count) =
          inIndexOrder shards count) ↔ count < 100000) ∧
    ((∀ (_ : Library) (config : Config) (s : Middle) (version : Str) (shards : Nat → Bytes),
        config.diskMirror = true → version ∉ s.processedVersions →
          version ∈ (processWhole config s version (hexdigest (inIndexOrder shards count)) count
            { shardFile := fun index => some (shards index) }).2.processedVersions) ↔
      count < 100000) := by
  have hswapped : ¬ count < 100000 → hashFiles (sortedFiles (fun index => some [lastBytes index])
      count) ≠ inIndexOrder (fun index => [lastBytes index]) count := by
    intro hlarge
    rw [hashFiles_eq]
    exact sortedFiles_of_ge (by omega)
  refine ⟨⟨?_, ?_⟩, ⟨?_, ?_⟩⟩
  · intro hall
    by_contra hlarge
    exact hswapped hlarge (hall _)
  · intro hsmall shards
    rw [hashFiles_eq, sortedFiles_of_lt hsmall, inIndexOrder]
  · intro hall
    by_contra hlarge
    have hnew : ([] : Str) ∉ (started 0 .empty .empty).processedVersions := List.not_mem_nil
    have htaken := hall (tellingLibrary (inIndexOrder (fun index => [lastBytes index]) count))
      ⟨none, true, 0, false⟩ (started 0 .empty .empty) [] (fun index => [lastBytes index]) rfl hnew
    let _ := tellingLibrary (inIndexOrder (fun index => [lastBytes index]) count)
    rw [whole_files_iff rfl hnew, hexdigest_telling, ← hashFiles_eq] at htaken
    exact hswapped hlarge htaken
  · intro hsmall _ config s version shards hmirror hnew
    rw [whole_files_iff hmirror hnew, sortedFiles_of_lt hsmall, inIndexOrder]

/-- A hundred thousand shards of one byte. -/
theorem sixth_digit_misplaced :
    let published := inIndexOrder (fun index => [lastBytes index]) 100000
    letI := tellingLibrary published
    hashFiles (sortedFiles (fun index => some [lastBytes index]) 100000) ≠ published ∧
      str "v1" ∉ (processWhole ⟨none, true, 1000, false⟩ (started 8 .empty .empty) (str "v1")
        (hexdigest published) 100000
        { shardFile := fun index => some [lastBytes index] }).2.processedVersions := by
  intro published
  let _ := tellingLibrary published
  have hmisplaced := sortedFiles_of_ge (le_refl 100000)
  refine ⟨by rwa [hashFiles_eq], ?_⟩
  rw [whole_files_iff rfl List.not_mem_nil, hexdigest_telling]
  exact hmisplaced

end Monitor

end Litecast
