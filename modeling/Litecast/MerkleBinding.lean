import Litecast.Lib.BigEndian
import Litecast.Lib.HashTree
import Litecast.Manifest

/-! Which lists of shard digests have the same Merkle root. -/

namespace Litecast

open HashTree

theorem hex_injective {a b : Bytes} (h : hex a = hex b) : a = b := by
  have hread := congrArg fromHex? h
  rw [fromHex_hex, fromHex_hex] at hread
  exact Option.some.inj hread

/-- 64 hexadecimal digits and nothing else. -/
def IsHexDigest (checksum : Str) : Prop :=
  checksum.length = 64 ∧ ∀ c ∈ checksum, c.isHexDigit = true

instance (checksum : Str) : Decidable (IsHexDigest checksum) :=
  inferInstanceAs (Decidable (_ ∧ ∀ c ∈ checksum, _))

/-- Pairs of digits are read as bytes. -/
theorem fromHex?_digits : ∀ {n : Nat} {text : Str}, text.length = 2 * n →
    (∀ c ∈ text, c.isHexDigit = true) → ∃ data, fromHex? text = some data
  | 0, text, hlength, _ => by
    rw [List.length_eq_zero_iff.mp hlength]
    exact ⟨[], rfl⟩
  | n + 1, text, hlength, hdigits => by
    obtain ⟨c, d, rest, rfl⟩ : ∃ c d rest, text = c :: d :: rest := by
      match text, hlength with
      | c :: d :: rest, _ => exact ⟨c, d, rest, rfl⟩
    obtain ⟨high, hhigh⟩ := Option.isSome_iff_exists.mp (hdigits c (by simp))
    obtain ⟨low, hlow⟩ := Option.isSome_iff_exists.mp (hdigits d (by simp))
    have hrest : rest.length = 2 * n := by
      simp only [List.length_cons] at hlength
      omega
    obtain ⟨data, hdata⟩ := fromHex?_digits hrest fun e he => hdigits e (by simp [he])
    have hspace := CodePoint.not_space_of_isHexDigit (hdigits c (by simp))
    refine ⟨UInt8.ofNat (16 * high + low) :: data, ?_⟩
    simp only [fromHex?, hspace, Bool.false_eq_true, if_false, hhigh, hlow, hdata]

theorem mapM_digestOfHex {checksums : List Str}
    (h : ∀ checksum ∈ checksums, IsHexDigest checksum) :
    ∃ digests, checksums.mapM digestOfHex = .ok digests := by
  induction checksums with
  | nil => exact ⟨[], rfl⟩
  | cons first rest ih =>
    obtain ⟨hlength, hdigits⟩ := h first List.mem_cons_self
    obtain ⟨digests, hrest⟩ := ih fun checksum hmem => h checksum (List.mem_cons_of_mem _ hmem)
    obtain ⟨digest, hfirst⟩ := @fromHex?_digits 32 first hlength hdigits
    refine ⟨digest :: digests, ?_⟩
    rw [List.mapM_cons, digestOfHex, hfirst, hrest]
    rfl

theorem digest_ext {a b : Digest} (h : a.bytes = b.bytes) : a = b := by
  cases a
  cases b
  cases h
  rfl

def merkleLeafInput (digest : Bytes) : Bytes := asciiBytes "litecast-leaf\x00" ++ digest

def merkleNodeInput (left right : Digest) : Bytes :=
  asciiBytes "litecast-node\x00" ++ left.bytes ++ right.bytes

def merkleEmptyInput : Bytes := asciiBytes "litecast-empty\x00"

theorem merkle_separated : Separated merkleLeafInput merkleNodeInput where
  leaf := fun _ _ h => List.append_cancel_left h
  node := by
    intro l r l' r' h
    rw [merkleNodeInput, merkleNodeInput, List.append_assoc, List.append_assoc] at h
    obtain ⟨hleft, hright⟩ :=
      List.append_inj (List.append_cancel_left h) (l.length_eq.trans l'.length_eq.symm)
    exact ⟨digest_ext hleft, digest_ext hright⟩
  apart := by
    intro d l r h
    rw [merkleLeafInput, merkleNodeInput, List.append_assoc] at h
    have hlength : (asciiBytes "litecast-leaf\x00").length =
        (asciiBytes "litecast-node\x00").length := by decide +kernel
    have hne : asciiBytes "litecast-leaf\x00" ≠ asciiBytes "litecast-node\x00" := by decide +kernel
    exact hne (List.append_inj_left h hlength)

section
variable [Library]

/-- The digests on the way are those of a hash tree. -/
theorem merkleLevel_map (digests : List Digest) : merkleLevel (digests.map Digest.bytes) =
    (level (fun left right => blake3 (merkleNodeInput left right)) digests).map Digest.bytes := by
  induction digests using level.induct with
  | case1 => rfl
  | case2 last => rfl
  | case3 left right rest ih =>
    rw [List.map_cons, List.map_cons, merkleLevel, ih]
    rfl

theorem merkleTop_map (fuel : Nat) (digests : List Digest) :
    merkleTop fuel (digests.map Digest.bytes) =
      ((top (fun left right => blake3 (merkleNodeInput left right)) fuel digests).map
        Digest.bytes).getD [] := by
  induction fuel generalizing digests with
  | zero => cases digests <;> rfl
  | succ fuel ih =>
    rw [merkleTop, top, List.length_map]
    split_ifs
    · cases digests <;> rfl
    · rw [merkleLevel_map, ih]

/-- The digest at the root of the tree over the digests of shards. -/
def merkleDigest (digests : List Bytes) : Digest :=
  (treeOf digests).elim (blake3 merkleEmptyInput) (Tree.digest blake3 merkleLeafInput merkleNodeInput)

/-- Everything `merkle_root` hashes. -/
def merkleInputs (digests : List Bytes) : List Bytes :=
  (treeOf digests).elim [merkleEmptyInput] (Tree.inputs blake3 merkleLeafInput merkleNodeInput)

theorem merkleRoot_eq {checksums : List Str} {digests : List Bytes}
    (h : checksums.mapM digestOfHex = .ok digests) :
    merkleRoot checksums = .ok (merkleDigest digests).hex := by
  have hlevel : (checksums.mapM fun checksum => do return merkleLeaf (← digestOfHex checksum)) =
      .ok (digests.map merkleLeaf) := by
    rw [mapM_eq_ok] at h ⊢
    rw [List.forall₂_map_right_iff]
    refine h.imp fun checksum digest hdigest => ?_
    rw [hdigest]
    rfl
  rw [merkleRoot, hlevel]
  cases digests with
  | nil => rfl
  | cons first rest =>
    have hleaves : (first :: rest).map merkleLeaf =
        (((first :: rest).map Tree.leaf).map
          (Tree.digest blake3 merkleLeafInput merkleNodeInput)).map Digest.bytes := by
      rw [List.map_map, List.map_map]
      rfl
    obtain ⟨tree, htree, -⟩ := exists_treeOf (List.cons_ne_nil first rest)
    have htop : merkleTop ((first :: rest).map merkleLeaf).length ((first :: rest).map merkleLeaf) =
        (merkleDigest (first :: rest)).bytes := by
      have hjoin : ∀ left right : HashTree.Tree Bytes,
          Tree.digest blake3 merkleLeafInput merkleNodeInput (.node left right) =
            blake3 (merkleNodeInput (left.digest blake3 merkleLeafInput merkleNodeInput)
              (right.digest blake3 merkleLeafInput merkleNodeInput)) := fun _ _ => rfl
      rw [List.length_map, hleaves, merkleTop_map, ← HashTree.map_top hjoin, ← treeOf.eq_def,
        merkleDigest, htree]
      rfl
    have hhex : hex (merkleTop ((first :: rest).map merkleLeaf).length
        ((first :: rest).map merkleLeaf)) = (merkleDigest (first :: rest)).hex := by
      rw [htop, Digest.hex]
    rw [← hhex]
    rfl

/-- What is hashed last is not what is hashed for the empty list. -/
theorem exists_rootInput (tree : HashTree.Tree Bytes) :
    ∃ input ∈ tree.inputs blake3 merkleLeafInput merkleNodeInput,
      tree.digest blake3 merkleLeafInput merkleNodeInput = blake3 input ∧ input ≠ merkleEmptyInput := by
  have hten : ∀ domain rest : Bytes, 10 ≤ domain.length →
      domain.take 10 ≠ merkleEmptyInput.take 10 → domain ++ rest ≠ merkleEmptyInput := by
    intro domain rest hlength hne heq
    rw [← heq, List.take_append_of_le_length hlength] at hne
    exact hne rfl
  cases tree with
  | leaf digest =>
    refine ⟨_, List.mem_singleton_self _, rfl, ?_⟩
    exact hten _ _ (by decide +kernel) (by decide +kernel)
  | node left right =>
    refine ⟨_, List.mem_cons_self, rfl, ?_⟩
    rw [merkleNodeInput, List.append_assoc]
    exact hten _ _ (by decide +kernel) (by decide +kernel)

/-- Without a collision among what is hashed, the root fixes the tree. -/
theorem merkleDigest_eq_iff {ds es : List Bytes}
    (hno : ∀ a ∈ merkleInputs ds, ∀ b ∈ merkleInputs es, blake3 a = blake3 b → a = b) :
    merkleDigest ds = merkleDigest es ↔ treeOf ds = treeOf es := by
  refine ⟨fun h => ?_, fun h => by rw [merkleDigest, merkleDigest, h]⟩
  rw [merkleDigest, merkleDigest] at h
  rw [merkleInputs, merkleInputs] at hno
  cases hds : treeOf ds with
  | none =>
    cases hes : treeOf es with
    | none => rfl
    | some tree =>
      rw [hds, hes] at h hno
      obtain ⟨input, hinput, hdigest, hne⟩ := exists_rootInput tree
      exact absurd (hno _ (List.mem_singleton_self _) _ hinput (h.trans hdigest)).symm hne
  | some tree =>
    rw [hds] at h hno
    cases hes : treeOf es with
    | none =>
      rw [hes] at h hno
      obtain ⟨input, hinput, hdigest, hne⟩ := exists_rootInput tree
      exact absurd (hno _ hinput _ (List.mem_singleton_self _) (hdigest.symm.trans h)) hne
    | some tree' =>
      rw [hes] at h hno
      exact congrArg some (Tree.eq_of_digest_eq merkle_separated hno h)

theorem merkleRoot_eq_iff {xs ys : List Str} {ds es : List Bytes}
    (hxs : xs.mapM digestOfHex = .ok ds) (hys : ys.mapM digestOfHex = .ok es)
    (hno : ∀ a ∈ merkleInputs ds, ∀ b ∈ merkleInputs es, blake3 a = blake3 b → a = b) :
    merkleRoot xs = merkleRoot ys ↔ treeOf ds = treeOf es := by
  rw [merkleRoot_eq hxs, merkleRoot_eq hys, Except.ok.injEq, ← merkleDigest_eq_iff hno]
  exact ⟨fun h => digest_ext (hex_injective h), congrArg Digest.hex⟩

/-- **A Merkle root binds the list up to what fills its levels.** The lists
decode, and where nothing that is hashed collides equal roots are equal trees. Of
two such lists one begins with the other, and the rest of it repeats digests of
that one; of one length they are the same. -/
theorem merkleRoot_binds {xs ys : List Str} (hxs : ∀ checksum ∈ xs, IsHexDigest checksum)
    (hys : ∀ checksum ∈ ys, IsHexDigest checksum) :
    ∃ ds es, xs.mapM digestOfHex = .ok ds ∧ ys.mapM digestOfHex = .ok es ∧
      ((∀ a ∈ merkleInputs ds, ∀ b ∈ merkleInputs es, blake3 a = blake3 b → a = b) →
        (merkleRoot xs = merkleRoot ys ↔ treeOf ds = treeOf es) ∧
        (merkleRoot xs = merkleRoot ys →
          (ds <+: es ∨ es <+: ds) ∧ (∀ digest, digest ∈ ds ↔ digest ∈ es) ∧
            (xs.length = ys.length → ds = es))) := by
  obtain ⟨ds, hds⟩ := mapM_digestOfHex hxs
  obtain ⟨es, hes⟩ := mapM_digestOfHex hys
  refine ⟨ds, es, hds, hes, fun hno => ?_⟩
  have hroots := merkleRoot_eq_iff hds hes hno
  refine ⟨hroots, fun h => ?_⟩
  have hfront := prefix_of_treeOf_eq (hroots.mp h)
  refine ⟨hfront, mem_iff_of_treeOf_eq (hroots.mp h), fun hlength => ?_⟩
  have hsame : ds.length = es.length := by
    rw [← (mapM_eq_ok.mp hds).length_eq, ← (mapM_eq_ok.mp hes).length_eq, hlength]
  exact hfront.elim (fun h => h.eq_of_length hsame) fun h => (h.eq_of_length hsame.symm).symm

end

/-! ## Two trees -/

/-- The digest of a shard in hexadecimal, told by its first byte. -/
def tailedDigest (first : UInt8) : Bytes := first :: List.replicate 31 0

/-- A stand-in digest that all of the data goes into. -/
def foldedDigest (data : Bytes) : Digest where
  bytes := BigEndian.encode 32 (data.foldl (fun n b => (257 * n + b.toNat + 1) % 2 ^ 256) 0)
  length_eq := BigEndian.length_encode 32 _

/-- Three shards in two orders. -/
theorem merkleRoot_binds_three_shards :
    letI : Library := { asciiLibrary with blake3 := foldedDigest }
    let ds := [tailedDigest 1, tailedDigest 2, tailedDigest 3]
    let es := [tailedDigest 1, tailedDigest 3, tailedDigest 2]
    (∀ checksum ∈ ds.map hex, IsHexDigest checksum) ∧
      (∀ checksum ∈ es.map hex, IsHexDigest checksum) ∧
      merkleRoot (ds.map hex) ≠ merkleRoot (es.map hex) := by
  let _ : Library := { asciiLibrary with blake3 := foldedDigest }
  intro ds es
  have hds : ∀ checksum ∈ ds.map hex, IsHexDigest checksum := by decide +kernel
  have hes : ∀ checksum ∈ es.map hex, IsHexDigest checksum := by decide +kernel
  have hxs : (ds.map hex).mapM digestOfHex = .ok ds := by decide +kernel
  have hys : (es.map hex).mapM digestOfHex = .ok es := by decide +kernel
  have hno : ∀ a ∈ merkleInputs ds, ∀ b ∈ merkleInputs es, blake3 a = blake3 b → a = b := by
    decide +kernel
  refine ⟨hds, hes, fun h => ?_⟩
  obtain ⟨_, _, hread, hread', hbinds⟩ := merkleRoot_binds hds hes
  obtain rfl := Except.ok.inj (hxs.symm.trans hread)
  obtain rfl := Except.ok.inj (hys.symm.trans hread')
  have hsame := ((hbinds hno).2 h).2.2 rfl
  exact absurd hsame (by decide)

/-- Three shards, and the last of them once more: no input collides, the roots
are equal and the lists are not. -/
theorem merkleRoot_repeats_last :
    letI := asciiLibrary
    let ds := [tailedDigest 1, tailedDigest 2, tailedDigest 3]
    let es := ds ++ [tailedDigest 3]
    (∀ a ∈ merkleInputs ds, ∀ b ∈ merkleInputs es, blake3 a = blake3 b → a = b) ∧
      (∀ checksum ∈ es.map hex, IsHexDigest checksum) ∧
      (ds.map hex).mapM digestOfHex = .ok ds ∧ (es.map hex).mapM digestOfHex = .ok es ∧
      merkleRoot (ds.map hex) = merkleRoot (es.map hex) ∧ ds ≠ es := by
  let _ := asciiLibrary
  decide +kernel

end Litecast
