import Mathlib.Data.List.Infix

/-! Hash trees over a list, built level by level: neighbours are joined, and the
last of an odd level is joined with itself. -/

namespace HashTree

variable {D H M : Type}

/-! ## Levels -/

def level (join : H → H → H) : List H → List H
  | [] => []
  | [last] => [join last last]
  | left :: right :: rest => join left right :: level join rest

/-- The one entry left after enough levels. -/
def top (join : H → H → H) : Nat → List H → Option H
  | 0, entries => entries.head?
  | fuel + 1, entries =>
    if entries.length ≤ 1 then entries.head? else top join fuel (level join entries)

theorem length_level (join : H → H → H) (entries : List H) :
    (level join entries).length = (entries.length + 1) / 2 := by
  induction entries using level.induct with
  | case1 => simp [level]
  | case2 last => simp [level]
  | case3 left right rest ih =>
    rw [level, List.length_cons, ih, List.length_cons, List.length_cons]
    omega

/-- A map that respects joining commutes with a level. -/
theorem map_level {H' : Type} {join : H → H → H} {join' : H' → H' → H'} {f : H → H'}
    (hf : ∀ left right, f (join left right) = join' (f left) (f right)) (entries : List H) :
    (level join entries).map f = level join' (entries.map f) := by
  induction entries using level.induct with
  | case1 => rfl
  | case2 last => simp [level, hf]
  | case3 left right rest ih => simp [level, hf, ih]

theorem map_top {H' : Type} {join : H → H → H} {join' : H' → H' → H'} {f : H → H'}
    (hf : ∀ left right, f (join left right) = join' (f left) (f right)) (fuel : Nat)
    (entries : List H) : (top join fuel entries).map f = top join' fuel (entries.map f) := by
  induction fuel generalizing entries with
  | zero => rw [top, top, List.head?_map]
  | succ fuel ih =>
    rw [top, top, List.length_map]
    split_ifs
    · rw [List.head?_map]
    · rw [ih, map_level hf]

/-! ## The tree itself -/

inductive Tree (D : Type) where
  | leaf (d : D)
  | node (left right : Tree D)

def Tree.leaves : Tree D → List D
  | .leaf d => [d]
  | .node left right => left.leaves ++ right.leaves

/-- The tree the levels over a list make. -/
def treeOf (ds : List D) : Option (Tree D) := top .node ds.length (ds.map .leaf)

theorem leaves_prefix_level (entries : List (Tree D)) :
    entries.flatMap Tree.leaves <+: (level Tree.node entries).flatMap Tree.leaves := by
  induction entries using level.induct with
  | case1 => exact List.prefix_rfl
  | case2 last =>
    simp only [level, List.flatMap_cons, List.flatMap_nil, List.append_nil, Tree.leaves]
    exact List.prefix_append _ _
  | case3 left right rest ih =>
    simp only [level, List.flatMap_cons, Tree.leaves, List.append_assoc]
    exact (List.prefix_append_right_inj _).mpr ((List.prefix_append_right_inj _).mpr ih)

theorem exists_top {fuel : Nat} {entries : List (Tree D)} (hne : entries ≠ [])
    (hfuel : entries.length ≤ fuel) :
    ∃ tree, top Tree.node fuel entries = some tree ∧
      entries.flatMap Tree.leaves <+: tree.leaves := by
  induction fuel generalizing entries with
  | zero => exact absurd (List.length_eq_zero_iff.mp (Nat.le_zero.mp hfuel)) hne
  | succ fuel ih =>
    rw [top]
    split_ifs with hone
    · obtain ⟨tree, rfl⟩ : ∃ tree, entries = [tree] := by
        rw [← List.length_eq_one_iff]
        have := List.length_pos_iff.mpr hne
        omega
      exact ⟨tree, rfl, by simp⟩
    · have hlength := length_level Tree.node entries
      have hlevel : level Tree.node entries ≠ [] := by
        rw [← List.length_pos_iff]
        omega
      obtain ⟨tree, htree, hprefix⟩ := ih hlevel (by omega)
      exact ⟨tree, htree, (leaves_prefix_level entries).trans hprefix⟩

theorem flatMap_leaves_leaf (ds : List D) : (ds.map Tree.leaf).flatMap Tree.leaves = ds := by
  simp [List.flatMap_map, Tree.leaves]

/-- Its leaves are the list, and what was repeated to fill the levels. -/
theorem exists_treeOf {ds : List D} (h : ds ≠ []) :
    ∃ tree, treeOf ds = some tree ∧ ds <+: tree.leaves := by
  have hne : ds.map Tree.leaf ≠ [] := by simpa using h
  obtain ⟨tree, htree, hprefix⟩ := exists_top hne (List.length_map Tree.leaf).le
  exact ⟨tree, htree, flatMap_leaves_leaf ds ▸ hprefix⟩

theorem leaves_level_subset (entries : List (Tree D)) :
    (level Tree.node entries).flatMap Tree.leaves ⊆ entries.flatMap Tree.leaves := by
  induction entries using level.induct with
  | case1 => exact List.Subset.refl _
  | case2 last =>
    intro d hd
    simpa [level, Tree.leaves] using hd
  | case3 left right rest ih =>
    intro d hd
    simp only [level, List.flatMap_cons, Tree.leaves, List.mem_append] at hd ⊢
    rcases hd with (hd | hd) | hd
    · exact Or.inl hd
    · exact Or.inr (Or.inl hd)
    · exact Or.inr (Or.inr (ih hd))

theorem leaves_top_subset {fuel : Nat} {entries : List (Tree D)} {tree : Tree D}
    (h : top Tree.node fuel entries = some tree) : tree.leaves ⊆ entries.flatMap Tree.leaves := by
  have hhead {entries : List (Tree D)} (h : entries.head? = some tree) :
      tree.leaves ⊆ entries.flatMap Tree.leaves := by
    intro d hd
    exact List.mem_flatMap.mpr ⟨tree, List.mem_of_head? h, hd⟩
  induction fuel generalizing entries with
  | zero => exact hhead h
  | succ fuel ih =>
    rw [top] at h
    split_ifs at h
    · exact hhead h
    · exact List.Subset.trans (ih h) (leaves_level_subset entries)

/-- A level is filled with what is there. -/
theorem mem_leaves_treeOf {ds : List D} {tree : Tree D} (h : treeOf ds = some tree) {d : D} :
    d ∈ tree.leaves ↔ d ∈ ds := by
  have hne : ds ≠ [] := by
    rintro rfl
    cases h
  obtain ⟨tree', htree, hprefix⟩ := exists_treeOf hne
  obtain rfl : tree' = tree := Option.some.inj (htree.symm.trans h)
  have hsubset := leaves_top_subset h
  rw [flatMap_leaves_leaf] at hsubset
  exact ⟨fun hd => hsubset hd, fun hd => hprefix.subset hd⟩

/-- Lists with the same tree have the same members. -/
theorem mem_iff_of_treeOf_eq {ds es : List D} (h : treeOf ds = treeOf es) (d : D) :
    d ∈ ds ↔ d ∈ es := by
  cases hds : treeOf ds with
  | some tree => rw [← mem_leaves_treeOf hds, ← mem_leaves_treeOf (h.symm.trans hds)]
  | none =>
    have hnil {xs : List D} (hnone : treeOf xs = none) : xs = [] := by
      by_contra hne
      obtain ⟨tree, htree, -⟩ := exists_treeOf hne
      rw [hnone] at htree
      cases htree
    rw [hnil hds, hnil (h.symm.trans hds)]

/-- One of two lists with the same tree begins with the other. -/
theorem prefix_of_treeOf_eq {ds es : List D} (h : treeOf ds = treeOf es) :
    ds <+: es ∨ es <+: ds := by
  by_cases hds : ds = []
  · exact Or.inl (hds ▸ List.nil_prefix)
  · by_cases hes : es = []
    · exact Or.inr (hes ▸ List.nil_prefix)
    · obtain ⟨tree, htree, hfront⟩ := exists_treeOf hds
      obtain ⟨tree', htree', hlater⟩ := exists_treeOf hes
      obtain rfl : tree = tree' := Option.some.inj (htree.symm.trans (h.trans htree'))
      exact List.prefix_or_prefix_of_prefix hfront hlater

/-! ## Hashing -/

section
variable (hash : M → H) (leafInput : D → M) (nodeInput : H → H → M)

def Tree.digest : Tree D → H
  | .leaf d => hash (leafInput d)
  | .node left right => hash (nodeInput left.digest right.digest)

/-- Everything that is hashed on the way to the root. -/
def Tree.inputs : Tree D → List M
  | .leaf d => [leafInput d]
  | .node left right =>
    nodeInput (left.digest hash leafInput nodeInput) (right.digest hash leafInput nodeInput) ::
      (left.inputs ++ right.inputs)

/-- What is hashed for a leaf and for a node tells which it is for, and of what. -/
structure Separated : Prop where
  leaf : ∀ d e, leafInput d = leafInput e → d = e
  node : ∀ l r l' r', nodeInput l r = nodeInput l' r' → l = l' ∧ r = r'
  apart : ∀ d l r, leafInput d ≠ nodeInput l r

variable {hash leafInput nodeInput}

/-- The root fixes the tree, unless two of the inputs collide. -/
theorem Tree.eq_of_digest_eq (hsep : Separated leafInput nodeInput) {t u : Tree D}
    (hno : ∀ a ∈ t.inputs hash leafInput nodeInput, ∀ b ∈ u.inputs hash leafInput nodeInput,
      hash a = hash b → a = b)
    (h : t.digest hash leafInput nodeInput = u.digest hash leafInput nodeInput) : t = u := by
  induction t generalizing u with
  | leaf d =>
    cases u with
    | leaf e => rw [hsep.leaf d e (hno _ (by simp [inputs]) _ (by simp [inputs]) h)]
    | node left right => exact absurd (hno _ (by simp [inputs]) _ (by simp [inputs]) h) (hsep.apart _ _ _)
  | node left right ihleft ihright =>
    cases u with
    | leaf e => exact absurd (hno _ (by simp [inputs]) _ (by simp [inputs]) h).symm (hsep.apart _ _ _)
    | node left' right' =>
      obtain ⟨hleft, hright⟩ := hsep.node _ _ _ _ (hno _ (by simp [inputs]) _ (by simp [inputs]) h)
      rw [ihleft (fun a ha b hb => hno a (by simp [inputs, ha]) b (by simp [inputs, hb])) hleft,
        ihright (fun a ha b hb => hno a (by simp [inputs, ha]) b (by simp [inputs, hb])) hright]

end

end HashTree
