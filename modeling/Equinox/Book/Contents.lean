import Equinox.Book.Matching
import Equinox.Book.Update

/-! # The leaves of a laid out book

The searches of a book in terms of the leaves of its trees, and the change of a
leaf's quantity in place.
-/

namespace Equinox

open Foundation CritBit Function List

namespace PagedBookV3

def leavesFrom (b : PagedBookV3) : (fuel current : ℕ) → List (ℕ × LeafNode)
  | 0, _ => []
  | fuel + 1, current =>
    match b.nodeBytes current with
    | .ok (.leaf leaf) => [(current, leaf)]
    | .ok (.inner inner) =>
      b.leavesFrom fuel (inner.children false) ++ b.leavesFrom fuel (inner.children true)
    | _ => []

/-- The orders resting in one tree, with their handles. -/
def leaves (b : PagedBookV3) (tree : TreeKind) : List (ℕ × LeafNode) :=
  b.leavesFrom 129 (b.root tree)

/-- The records of a book are two crit-bit trees, a free list and unused slots. -/
def WellFormed (b : PagedBookV3) : Prop := ∃ forest free, Layout b forest free []

variable {b b' : PagedBookV3} {forest : Forest} {free loose : List ℕ} {tree : TreeKind} {i : ℕ}
  {leaf : LeafNode} {key : Key}

theorem Stores.leavesFrom {t : BookTree} {fuel : ℕ} (h : b.Stores t) (hf : t.depth < fuel) :
    b.leavesFrom fuel t.handle = t.leaves := by
  refine Tree.Stored.walk_eq b.leavesFrom Tree.leaves (fun i leaf fuel h => ?_)
    (fun i p rep child fuel h _ ih => ?_) h hf
  · simp only [PagedBookV3.leavesFrom, h.nodeBytes, cellNode, Tree.leaves]
  · simp only [PagedBookV3.leavesFrom, h.nodeBytes, cellNode, Tree.leaves, ih]

namespace Layout

section

variable (L : Layout b forest free loose)

include L

theorem leaves_eq : b.leaves tree = treeLeaves (forest tree) := by
  rw [leaves, L.root]
  cases ht : forest tree with
  | none => rfl
  | some t => exact (L.stores tree t ht).leavesFrom (Nat.lt_succ_of_le (L.depth_le ht))

theorem depth_lt_fuel {t : BookTree} (ht : forest tree = some t) :
    t.depth < bookSlotsPerSide + 1 := by
  have := L.depth_le ht
  unfold bookSlotsPerSide
  omega

theorem find_eq_ok :
    b.find tree key = .ok i ↔ ∃ leaf, (i, leaf) ∈ treeLeaves (forest tree) ∧ leaf.key = key := by
  rw [find, L.root]
  cases ht : forest tree with
  | none => simp [rootHandle, treeLeaves, findFrom]
  | some t =>
    simp only [rootHandle, treeLeaves, Option.elim,
      (L.stores tree t ht).findFrom (L.depth_lt_fuel ht)]
    cases hd : t.descend LeafNode.key key with
    | none =>
      simp only [reduceCtorEq, false_iff, not_exists]
      intro leaf hl
      have := (L.wf tree t ht).descend_eq_some_iff.2 hl
      simp [hd] at this
    | some x =>
      have hx := (L.wf tree t ht).descend_eq_some_iff.1 hd
      simp only [Except.ok.injEq]
      constructor
      · rintro rfl
        exact ⟨x.2, hx⟩
      · rintro ⟨leaf, hl⟩
        have := (L.wf tree t ht).leaf_ext hx.1 hl.1 (hx.2.trans hl.2.symm)
        rw [this]

theorem leaf_eq (h : (i, leaf) ∈ treeLeaves (forest tree)) : b.leaf i = .ok leaf := by
  cases ht : forest tree with
  | none => simp [ht, treeLeaves] at h
  | some t =>
    rw [ht] at h
    obtain ⟨fs, hfs⟩ := exists_plug_of_mem_leaves (show (i, leaf) ∈ t.leaves from h)
    exact leaf_eq_ok.2 ((L.stores tree t ht).holds_of_plug hfs)

theorem best_eq : b.best tree = .ok ((forest tree).map fun t => t.leftmost.1) := by
  rw [best, L.root]
  cases ht : forest tree with
  | none => simp [rootHandle, bestFrom]
  | some t => exact (L.stores tree t ht).bestFrom (L.depth_lt_fuel ht)

theorem firstExpired_eq (now : ℕ) :
    b.firstExpired tree now =
      .ok ((forest tree).bind fun t => (t.firstDue LeafNode.expiresAt now).map Prod.fst) := by
  rw [firstExpired, L.root]
  cases ht : forest tree with
  | none => simp [rootHandle, firstExpiredFrom]
  | some t => exact (L.stores tree t ht).firstExpiredFrom (L.depth_lt_fuel ht)

theorem putLeaf {new : LeafNode}
    (h : (i, leaf) ∈ treeLeaves (forest tree)) (hk : new.key = leaf.key)
    (he : new.expiresAt = leaf.expiresAt) :
    ∃ t', PagedBookV3.putLeaf i new b = .ok () (b.write i (.leaf new)) ∧
      Layout (b.write i (.leaf new)) (update forest tree (some t')) free loose ∧
      ∃ rest, (treeLeaves (forest tree)).Perm ((i, leaf) :: rest) ∧
        t'.leaves.Perm ((i, new) :: rest) := by
  obtain ⟨t, ht⟩ : ∃ t, forest tree = some t := by
    cases ht : forest tree with
    | none => simp [ht, treeLeaves] at h
    | some t => exact ⟨t, rfl⟩
  rw [ht] at h
  obtain ⟨fs, rfl⟩ := exists_plug_of_mem_leaves (show (i, leaf) ∈ t.leaves from h)
  have hst := L.stores tree _ ht
  have hi := (hst.holds_of_plug rfl).lt
  have hnd : (i :: contextHandles fs).Nodup := by
    have := (nodup_append.1 (L.nodup_loose tree)).1
    rw [ht] at this
    exact (handles_plug (t := Tree.leaf i leaf)).nodup_iff.1 this
  have hst' : (b.write i (.leaf new)).Stores (plug fs (.leaf i new)) := by
    refine stored_plug_congr hst (holds_write hi (.leaf new)) rfl he.symm fun j hj c hc => ?_
    refine Holds.congr hc ((agreeOff_write b i (.leaf new)).node j ?_)
    rw [mem_singleton]
    rintro rfl
    exact (nodup_cons.1 hnd).1 hj
  have ho := (agreeOff_write b i (.leaf new)).withRoot_self tree
  rw [L.root tree, ht, rootHandle, Option.elim, handle_plug_congr
    (show (Tree.leaf i leaf : BookTree).handle = (Tree.leaf i new : BookTree).handle from rfl)]
    at ho
  obtain ⟨-, ha, hctx⟩ := wf_plug_iff.1 (L.wf tree _ ht)
  refine ⟨plug fs (.leaf i new), run_putNodeBytes.2 ⟨hi, rfl⟩, ?_, contextLeaves fs, ?_,
    leaves_plug⟩
  · refine L.replace (o := some _) ho ?_ ?_ ?_ ?_
    · rintro _ ⟨⟩; exact hst'
    · rintro _ ⟨⟩
      exact wf_plug_iff.2 ⟨trivial, by simpa [Tree.leaves, hk] using ha, hctx⟩
    · simp only [mem_singleton, forall_eq, ht]
      exact handles_plug.mem_iff.2 (by simp [Tree.handles])
    · rw [ht]
      refine Perm.append_right _ ?_
      exact (handles_plug (t := Tree.leaf i new)).trans (handles_plug (t := Tree.leaf i leaf)).symm
  · rw [ht]
    exact leaves_plug

end

theorem mem_leaves_of_leaf (L : Layout b forest free []) (hi : i < b.bumpIndex)
    (h : b.leaf i = .ok leaf) : ∃ tree, (i, leaf) ∈ treeLeaves (forest tree) := by
  have hc : b.Holds i (.leaf leaf) := leaf_eq_ok.1 h
  have hf : ∀ j c c', b.Holds j c → b.Holds j c' → c = c' := by
    intro j c c' hc hc'
    have := Except.ok.inj (hc.symm.trans hc')
    cases c <;> cases c' <;> simp_all [cellNode]
  have hmem := L.perm.mem_iff.2 (mem_range.2 hi)
  simp only [append_nil, mem_append, forestHandles] at hmem
  have htr {k : TreeKind} (hk : i ∈ treeHandles (forest k)) :
      (i, leaf) ∈ treeLeaves (forest k) := by
    cases ht : forest k with
    | none => simp [ht, treeHandles] at hk
    | some t =>
      rw [ht] at hk
      exact Tree.Stored.mem_leaves hf (L.stores k t ht) hk hc
  rcases hmem with (hk | hk) | hk
  · exact ⟨_, htr hk⟩
  · exact ⟨_, htr hk⟩
  · obtain ⟨next, hn⟩ := L.linked.exists_next hk
    have := hn.symm.trans hc.node_eq
    unfold freeNode at this
    split at this <;> simp [cellNode] at this

end Layout

/-- One tree exchanged some leaves for others; the other tree kept all of its leaves. -/
structure Exchanged (tree : TreeKind) (gone come : List (ℕ × LeafNode)) (b b' : PagedBookV3) :
    Prop where
  other : ∀ k ≠ tree, b'.leaves k = b.leaves k
  perm : (b'.leaves tree ++ gone).Perm (b.leaves tree ++ come)

theorem exchanged_of_update {free' : List ℕ} {o : Option BookTree} {gone come : List (ℕ × LeafNode)}
    (L : Layout b forest free []) (L' : Layout b' (update forest tree o) free' [])
    (h : (treeLeaves o ++ gone).Perm (treeLeaves (forest tree) ++ come)) :
    Exchanged tree gone come b b' where
  other k hk := by rw [L.leaves_eq, L'.leaves_eq, update_of_ne hk]
  perm := by rw [L.leaves_eq, L'.leaves_eq, update_self]; exact h

theorem mem_treeHandles {o : Option BookTree} (h : (i, leaf) ∈ treeLeaves o) :
    i ∈ treeHandles o := by
  cases o with
  | none => simp [treeLeaves] at h
  | some t => exact Tree.leaf_handle_mem h

namespace WellFormed

section

variable (hb : b.WellFormed)

include hb

theorem find_eq_ok :
    b.find tree key = .ok i ↔ ∃ leaf, (i, leaf) ∈ b.leaves tree ∧ leaf.key = key := by
  obtain ⟨forest, free, L⟩ := hb
  rw [L.leaves_eq, L.find_eq_ok]

theorem leaf_eq (h : (i, leaf) ∈ b.leaves tree) : b.leaf i = .ok leaf := by
  obtain ⟨forest, free, L⟩ := hb
  exact L.leaf_eq (L.leaves_eq ▸ h)

theorem handle_lt_bump (h : (i, leaf) ∈ b.leaves tree) : i < b.bumpIndex := by
  obtain ⟨forest, free, L⟩ := hb
  rw [L.leaves_eq] at h
  exact L.lt_bump (mem_append_left _ (Layout.mem_forestHandles (mem_treeHandles h)))

theorem bump_le : b.bumpIndex ≤ bookSlotsPerSide := by
  obtain ⟨forest, free, L⟩ := hb
  exact L.bump_le

theorem mem_leaves_of_leaf (hi : i < b.bumpIndex) (h : b.leaf i = .ok leaf) :
    ∃ tree, (i, leaf) ∈ b.leaves tree := by
  obtain ⟨forest, free, L⟩ := hb
  obtain ⟨tree, hmem⟩ := L.mem_leaves_of_leaf hi h
  exact ⟨tree, L.leaves_eq ▸ hmem⟩

theorem tree_unique {tree' : TreeKind} {leaf' : LeafNode}
    (h : (i, leaf) ∈ b.leaves tree) (h' : (i, leaf') ∈ b.leaves tree') : tree = tree' := by
  obtain ⟨forest, free, L⟩ := hb
  rw [L.leaves_eq] at h h'
  by_contra hne
  exact L.tree_not_other hne (mem_treeHandles h) (mem_treeHandles h')

theorem leaves_sorted (tree : TreeKind) :
    (b.leaves tree).Pairwise fun x y => x.2.key < y.2.key := by
  obtain ⟨forest, free, L⟩ := hb
  rw [L.leaves_eq]
  cases ht : forest tree with
  | none => exact Pairwise.nil
  | some t => exact (L.wf tree t ht).leaves_sorted

theorem best_eq (tree : TreeKind) : b.best tree = .ok ((b.leaves tree).head?.map Prod.fst) := by
  obtain ⟨forest, free, L⟩ := hb
  rw [L.leaves_eq, L.best_eq]
  cases ht : forest tree with
  | none => rfl
  | some t =>
    obtain ⟨rest, h⟩ := Tree.exists_leaves_eq_cons t
    simp [treeLeaves, h]

theorem firstExpired_eq (tree : TreeKind) (now : ℕ) :
    (b.firstExpired tree now = .ok none ∧ ∀ x ∈ b.leaves tree, now < x.2.expiresAt) ∨
    ∃ x ∈ b.leaves tree, b.firstExpired tree now = .ok (some x.1) ∧ x.2.expiresAt ≤ now := by
  obtain ⟨forest, free, L⟩ := hb
  rw [L.leaves_eq, L.firstExpired_eq]
  cases ht : forest tree with
  | none => exact .inl ⟨rfl, by simp [treeLeaves]⟩
  | some t =>
    cases hd : t.firstDue LeafNode.expiresAt now with
    | none => exact .inl ⟨by simp [hd], Tree.firstDue_eq_none_iff.1 hd⟩
    | some x =>
      obtain ⟨hx, hle⟩ := Tree.mem_of_firstDue hd
      exact .inr ⟨x, hx, by simp [hd], hle⟩

theorem insert (h : PagedBookV3.insert tree leaf b = .ok i b') :
    b'.WellFormed ∧ Exchanged tree [] [(i, leaf)] b b' ∧
      ∀ x ∈ b.leaves tree, x.2.key ≠ leaf.key := by
  obtain ⟨forest, free, L⟩ := hb
  obtain ⟨⟨t', free', L', hp⟩, hne⟩ := L.insert h
  refine ⟨⟨_, _, L'⟩, exchanged_of_update L L' ?_, L.leaves_eq ▸ hne⟩
  rw [append_nil]
  exact hp.trans (perm_append_singleton _ _).symm

theorem remove {x : ℕ × LeafNode} (hx : x ∈ b.leaves tree) :
    ∃ b', PagedBookV3.remove tree x.2.key b = .ok x.2 b' ∧ b'.WellFormed ∧
      Exchanged tree [x] [] b b' ∧ b'.bumpIndex = b.bumpIndex := by
  obtain ⟨forest, free, L⟩ := hb
  rw [L.leaves_eq] at hx
  obtain ⟨b', o, free', hr, L', hp, hbu⟩ := L.remove hx
  refine ⟨b', hr, ⟨_, _, L'⟩, exchanged_of_update L L' ?_, hbu⟩
  rw [append_nil]
  exact (perm_append_singleton _ _).trans hp.symm

theorem of_remove (h : PagedBookV3.remove tree key b = .ok leaf b') :
    leaf.key = key ∧ b'.WellFormed ∧ b'.bumpIndex = b.bumpIndex ∧
      ∃ i, (i, leaf) ∈ b.leaves tree ∧ Exchanged tree [(i, leaf)] [] b b' := by
  have hmem : leaf.key = key ∧ ∃ i, (i, leaf) ∈ b.leaves tree := by
    obtain ⟨forest, free, L⟩ := hb
    rw [L.leaves_eq]
    exact L.mem_of_remove h
  obtain ⟨rfl, i, hi⟩ := hmem
  obtain ⟨b'', hr, hb'', hex, hbu⟩ := hb.remove hi
  obtain rfl : b'' = b' := by simpa [h] using hr.symm
  exact ⟨rfl, hb'', hbu, i, hi, hex⟩

theorem putLeaf (new : LeafNode) (h : (i, leaf) ∈ b.leaves tree)
    (hk : new.key = leaf.key) (he : new.expiresAt = leaf.expiresAt) :
    ∃ b', PagedBookV3.putLeaf i new b = .ok () b' ∧ b'.WellFormed ∧
      Exchanged tree [(i, leaf)] [(i, new)] b b' ∧ (i, new) ∈ b'.leaves tree ∧
      b'.bumpIndex = b.bumpIndex := by
  obtain ⟨forest, free, L⟩ := hb
  obtain ⟨t', hr, L', rest, hold, hn⟩ := L.putLeaf (L.leaves_eq ▸ h) hk he
  refine ⟨_, hr, ⟨_, _, L'⟩, exchanged_of_update L L' ?_, ?_, bumpIndex_write⟩
  · refine (hn.append_right _).trans (Perm.trans ?_ (hold.append_right _).symm)
    exact (perm_append_singleton _ _).trans
      ((Perm.swap _ _ _).trans (perm_append_singleton _ _).symm)
  · rw [L'.leaves_eq, update_self]
    exact hn.mem_iff.2 mem_cons_self

end

end WellFormed

end PagedBookV3

end Equinox
