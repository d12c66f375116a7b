import Equinox.V2.Updates
import Equinox.V2.Validation

/-! # The orders of a valid arena

In an arena that passes validation every order rests at one handle of one tree.
The operations are changes of this table at one place: an insertion adds an
order, a removal takes one away, a change of quantity rewrites one. All of them
leave a valid arena, but for an insertion that takes back the last slot.
-/

namespace Equinox.V2

open Foundation CritBit Function List Except
open PagedBookV3 (BookTree BookFrame Forest)

namespace Arena

def restingAt (a : Arena) (tree : TreeKind) (handle : ℕ) : Option LeafNode :=
  match a.leaf handle with
  | .ok leaf => if a.find tree leaf.key = .ok handle then some leaf else none
  | .error _ => none

/-- The orders of a tree with their handles, by handle. -/
def resting (a : Arena) (tree : TreeKind) : List (ℕ × LeafNode) :=
  (range a.bumpIndex).filterMap fun handle => (a.restingAt tree handle).map (handle, ·)

def Valid (a : Arena) : Prop := a.validate = .ok ()

variable {a a' : Arena} {forest : Forest} {free : List ℕ} {tree k : TreeKind} {i j : ℕ}
  {leaf leaf' : LeafNode} {key : Key}

theorem LaidOut.valid (L : a.LaidOut forest free) : a.Valid := validate_iff.2 ⟨_, _, L⟩

theorem Layout.restingAt_eq_some (L : Layout a forest free []) :
    a.restingAt tree i = some leaf ↔ (i, leaf) ∈ leavesOf (forest tree) := by
  constructor
  · intro h
    unfold restingAt at h
    split at h
    · rename_i l hl
      split_ifs at h with hf
      obtain rfl := Option.some.inj h
      obtain ⟨leaf', hmem, -⟩ := L.find_eq_ok.1 hf
      obtain rfl : leaf' = l := ok.inj ((L.leaf_eq hmem).symm.trans hl)
      exact hmem
    · simp at h
  · intro h
    have hle := L.leaf_eq h
    have hf := L.find_eq_ok.2 ⟨leaf, h, rfl⟩
    simp [restingAt, hle, hf]

theorem Layout.restingAt_eq (L : Layout a forest free []) {o : Option LeafNode}
    (h : ∀ leaf, (i, leaf) ∈ leavesOf (forest tree) ↔ o = some leaf) : a.restingAt tree i = o :=
  Option.ext fun leaf => by rw [L.restingAt_eq_some, h]

theorem mem_resting_of_bump (h : a.restingAt tree i = some leaf) (hi : i < a.bumpIndex) :
    (i, leaf) ∈ a.resting tree := mem_filterMap.2 ⟨i, mem_range.2 hi, by simp [h]⟩

variable {x : ℕ × LeafNode}

theorem restingAt_of_mem (h : x ∈ a.resting tree) :
    x.1 < a.bumpIndex ∧ a.restingAt tree x.1 = some x.2 := by
  obtain ⟨j, hj, hx⟩ := mem_filterMap.1 h
  obtain ⟨leaf, hl, rfl⟩ := Option.map_eq_some_iff.1 hx
  exact ⟨mem_range.1 hj, hl⟩

theorem resting_sorted (a : Arena) (tree : TreeKind) :
    (a.resting tree).Pairwise fun x y => x.1 < y.1 := by
  refine Pairwise.filterMap _ (R := (· < ·)) (fun i j hij x hx y hy => ?_) pairwise_lt_range
  obtain ⟨_, -, rfl⟩ := Option.map_eq_some_iff.1 hx
  obtain ⟨_, -, rfl⟩ := Option.map_eq_some_iff.1 hy
  exact hij

namespace Valid

section

variable (ha : a.Valid)

include ha

theorem lt_bump (h : a.restingAt tree i = some leaf) : i < a.bumpIndex := by
  obtain ⟨forest, free, L, -⟩ := validate_iff.1 ha
  exact L.lt_bump (mem_handlesOf (L.restingAt_eq_some.1 h))

theorem mem_resting :
    x ∈ a.resting tree ↔ a.restingAt tree x.1 = some x.2 :=
  ⟨fun h => (restingAt_of_mem h).2, fun h => mem_resting_of_bump h (ha.lt_bump h)⟩

theorem bump_le : a.bumpIndex ≤ arenaCapacity := by
  obtain ⟨forest, free, L, -⟩ := validate_iff.1 ha
  exact L.bump_le

theorem leaf_eq (h : a.restingAt tree i = some leaf) : a.leaf i = .ok leaf := by
  obtain ⟨forest, free, L, -⟩ := validate_iff.1 ha
  exact L.leaf_eq (L.restingAt_eq_some.1 h)

theorem find_eq_ok : a.find tree key = .ok i ↔
    ∃ leaf, a.restingAt tree i = some leaf ∧ leaf.key = key := by
  obtain ⟨forest, free, L, -⟩ := validate_iff.1 ha
  simp only [L.find_eq_ok, L.restingAt_eq_some]

theorem find_eq_error (h : ∀ i leaf, a.restingAt tree i = some leaf → leaf.key ≠ key) :
    a.find tree key = .error .missingKey := by
  obtain ⟨forest, free, L, -⟩ := validate_iff.1 ha
  exact L.find_eq_error fun x hx => h x.1 x.2 (L.restingAt_eq_some.2 hx)

theorem handle_unique (h : a.restingAt tree i = some leaf)
    (h' : a.restingAt tree j = some leaf') (hk : leaf.key = leaf'.key) : i = j := by
  have hi := ha.find_eq_ok.2 ⟨leaf, h, rfl⟩
  have hj := ha.find_eq_ok.2 ⟨leaf', h', hk.symm⟩
  exact ok.inj (hi.symm.trans hj)

theorem root_eq_none_iff : a.roots tree = NONE ↔ ∀ i, a.restingAt tree i = none := by
  obtain ⟨forest, free, L, -⟩ := validate_iff.1 ha
  refine L.root_eq_nil_iff.trans ⟨fun h i => L.restingAt_eq fun leaf => by simp [h], fun h => ?_⟩
  cases ht : forest tree with
  | none => rfl
  | some t =>
    obtain ⟨x, hx⟩ := exists_mem_of_ne_nil _ t.leaves_ne_nil
    have : a.restingAt tree x.1 = some x.2 := L.restingAt_eq_some.2 (by rw [ht]; exact hx)
    simp [h] at this

theorem best_eq (tree : TreeKind) :
    (a.best tree = .ok none ∧ ∀ i, a.restingAt tree i = none) ∨
    ∃ i leaf, a.best tree = .ok (some i) ∧ a.restingAt tree i = some leaf ∧
      ∀ j leaf', a.restingAt tree j = some leaf' → leaf.key ≤ leaf'.key := by
  obtain ⟨forest, free, L, -⟩ := validate_iff.1 ha
  rw [L.best_eq]
  cases ht : forest tree with
  | none => exact .inl ⟨rfl, fun i => L.restingAt_eq fun leaf => by simp [ht]⟩
  | some t =>
    obtain ⟨rest, hl⟩ := t.exists_leaves_eq_cons
    have hs := (L.wf tree t ht).leaves_sorted
    rw [hl, pairwise_cons] at hs
    refine .inr ⟨t.leftmost.1, t.leftmost.2, rfl, ?_, fun j leaf' hj => ?_⟩
    · rw [L.restingAt_eq_some, ht, leavesOf_some, hl]
      exact mem_cons_self
    · rw [L.restingAt_eq_some, ht, leavesOf_some, hl] at hj
      rcases mem_cons.1 hj with h | h
      · rw [← h]
      · exact (hs.1 _ h).le

theorem firstExpired_eq (tree : TreeKind) (now : ℕ) :
    (a.firstExpired tree now = .ok none ∧
      ∀ i leaf, a.restingAt tree i = some leaf → now < expiryOf leaf) ∨
    ∃ i leaf, a.firstExpired tree now = .ok (some i) ∧ a.restingAt tree i = some leaf ∧
      expiryOf leaf ≤ now := by
  obtain ⟨forest, free, L, -⟩ := validate_iff.1 ha
  rw [L.firstExpired_eq]
  simp only [L.restingAt_eq_some]
  cases ht : forest tree with
  | none => exact .inl ⟨rfl, by simp⟩
  | some t =>
    cases hd : t.firstDue expiryOf now with
    | none =>
      refine .inl ⟨by simp [hd], fun i leaf h => ?_⟩
      exact Tree.firstDue_eq_none_iff.1 hd _ h
    | some x =>
      obtain ⟨hx, hle⟩ := Tree.mem_of_firstDue hd
      exact .inr ⟨x.1, x.2, by simp [hd], hx, hle⟩

end

end Valid

/-! ## Changes of the table -/

/-- The table with another entry at one place. -/
structure Changed (tree : TreeKind) (i : ℕ) (entry : Option LeafNode) (a a' : Arena) : Prop where
  self : a'.restingAt tree i = entry
  other : ∀ k j, (k, j) ≠ (tree, i) → a'.restingAt k j = a.restingAt k j

theorem Changed.restingAt {entry : Option LeafNode} (h : Changed tree i entry a a') :
    a'.restingAt k j = if (k, j) = (tree, i) then entry else a.restingAt k j := by
  split_ifs with hij
  · obtain ⟨rfl, rfl⟩ := Prod.mk.inj hij
    exact h.self
  · exact h.other k j hij

variable {o : Option BookTree}

theorem changed_of_update {free' : List ℕ} {entry : Option LeafNode}
    {rest : List (ℕ × LeafNode)} (L : Layout a forest free [])
    (L' : Layout a' (update forest tree o) free' [])
    (hn : ∀ x, x ∈ leavesOf o ↔ (x.1 = i ∧ entry = some x.2) ∨ x ∈ rest)
    (hold : ∀ x : ℕ × LeafNode, x.1 ≠ i → (x ∈ leavesOf (forest tree) ↔ x ∈ rest))
    (hr : ∀ x ∈ rest, x.1 ≠ i) : Changed tree i entry a a' where
  self := L'.restingAt_eq fun leaf => by
    rw [update_self, hn]
    constructor
    · rintro (⟨-, h⟩ | h)
      · exact h
      · exact absurd rfl (hr _ h)
    · exact fun h => .inl ⟨rfl, h⟩
  other k j hij := L'.restingAt_eq fun leaf => by
    rw [L.restingAt_eq_some]
    by_cases hk : k = tree
    · subst hk
      have hj : j ≠ i := fun h => hij (by rw [h])
      rw [update_self, hn, hold _ hj]
      simp [hj]
    · rw [update_of_ne hk]

theorem Layout.handle_ne_of_perm {rest : List (ℕ × LeafNode)} (L : Layout a forest free [])
    (ho : forest tree = o) (h : (leavesOf o).Perm (x :: rest)) : ∀ y ∈ rest, y.1 ≠ x.1 := by
  subst ho
  have hk : ((leavesOf (forest tree)).map fun x => x.2.key).Nodup := by
    cases ht : forest tree with
    | none => simp
    | some t => exact (pairwise_map.2 (L.wf tree t ht).leaves_sorted).imp ne_of_lt
  have hnd := ((h.map fun x => x.2.key).nodup_iff.1 hk)
  intro y hy heq
  have hmem : y ∈ leavesOf (forest tree) := h.mem_iff.2 (mem_cons_of_mem _ hy)
  have hm' : x ∈ leavesOf (forest tree) := h.mem_iff.2 mem_cons_self
  have hl : y.2 = x.2 := by
    have hy' := L.leaf_eq hmem
    rw [heq, L.leaf_eq hm'] at hy'
    exact (ok.inj hy').symm
  rw [map_cons, nodup_cons] at hnd
  exact hnd.1 (mem_map.2 ⟨y, hy, by rw [hl]⟩)

theorem length_update (count : ℕ → ℕ)
    (hc : ∀ k, a.leafCounts k = (leavesOf (forest k)).length)
    (hn : a'.leafCounts = update a.leafCounts tree (count (a.leafCounts tree)))
    (ho : (leavesOf o).length = count (leavesOf (forest tree)).length) (k : TreeKind) :
    a'.leafCounts k = (leavesOf (update forest tree o k)).length := by
  rw [hn]
  by_cases hk : k = tree
  · subst hk
    rw [update_self, update_self, hc, ho]
  · rw [update_of_ne hk, update_of_ne hk, hc]

namespace Valid

/-- A removal of an order succeeds, takes exactly it away and frees its slots. -/
theorem remove (ha : a.Valid) (h : a.restingAt tree i = some leaf) :
    ∃ a', Arena.remove tree leaf.key a = .ok leaf a' ∧ a'.Valid ∧
      Changed tree i none a a' ∧ a'.bumpIndex = a.bumpIndex ∧ a'.freeHead = i ∧
      a'.freeLen = a.freeLen + (if a'.roots tree = NONE then 1 else 2) ∧
      ∀ k ≠ tree, a'.roots k = NONE ↔ a.roots k = NONE := by
  obtain ⟨forest, free, L, hc⟩ := validate_iff.1 ha
  have hmem := L.restingAt_eq_some.1 h
  have hco : a.leafCounts tree ≠ 0 := by
    rw [hc]
    exact length_pos_of_mem hmem |>.ne'
  obtain ⟨a', o, free', hrun, L', hp, hlen, hh, hb, hc'⟩ := L.remove hmem hco
  have hr := L.handle_ne_of_perm rfl hp
  have hold : ∀ x : ℕ × LeafNode, x.1 ≠ i → (x ∈ leavesOf (forest tree) ↔ x ∈ leavesOf o) := by
    intro x hx
    rw [hp.mem_iff, mem_cons, or_iff_right]
    rintro rfl
    exact hx rfl
  refine ⟨a', hrun, LaidOut.valid ⟨L', length_update (· - 1) hc hc' ?_⟩,
    changed_of_update L L' (by simp) hold hr, hb, hh, ?_, ?_⟩
  · rw [hp.length_eq]
    simp
  · have hro : a'.roots tree = NONE ↔ o = none := by
      have := L'.root_eq_nil_iff (k := tree)
      rwa [update_self] at this
    have hf' : a'.freeLen = free'.length := L'.count
    have hf : a.freeLen = free.length := L.count
    rw [hf', hf, hlen]
    simp only [hro]
  · intro k hk
    have h₁ : a'.roots k = NONE ↔ _ := L'.root_eq_nil_iff (k := k)
    rw [update_of_ne hk] at h₁
    exact h₁.trans L.root_eq_nil_iff.symm

theorem remove_missing (ha : a.Valid)
    (h : ∀ i leaf, a.restingAt tree i = some leaf → leaf.key ≠ key) :
    Arena.remove tree key a = .error .missingKey a := by
  obtain ⟨forest, free, L, -⟩ := validate_iff.1 ha
  exact L.remove_missing fun x hx => h x.1 x.2 (L.restingAt_eq_some.2 hx)

/-- A new key with room for it goes to a handle that held nothing. -/
theorem insert_new (ha : a.Valid)
    (hn : ∀ i leaf', a.restingAt tree i = some leaf' → leaf'.key ≠ leaf.key)
    (hro : a.required tree ≤ a.available) :
    ∃ i a', Arena.insert tree leaf a = .ok i a' ∧ a'.Valid ∧ Changed tree i (some leaf) a a' ∧
      a.restingAt tree i = none ∧ a'.available + a.required tree = a.available ∧
      a'.freeLen ≤ a.freeLen ∧ (a.freeLen = 0 → i = a.bumpIndex) := by
  obtain ⟨forest, free, L, hc⟩ := validate_iff.1 ha
  obtain ⟨i, a', t', free', hrun, L', hp, hc', hav, hlen, ht⟩ := L.insert_new
    (fun x hx => hn x.1 x.2 (L.restingAt_eq_some.2 hx)) hro
  have hr : ∀ x ∈ leavesOf (forest tree), x.1 ≠ i :=
    L'.handle_ne_of_perm (o := some t') (update_self tree (some t') forest) hp
  have hne : ∀ x, x ∈ leavesOf (some t') ↔
      (x.1 = i ∧ some leaf = some x.2) ∨ x ∈ leavesOf (forest tree) := by
    intro x
    rw [leavesOf_some, hp.mem_iff, mem_cons, Prod.ext_iff, Option.some.injEq, eq_comm (a := x.2)]
  refine ⟨i, a', hrun, LaidOut.valid ⟨L', length_update (· + 1) hc hc' ?_⟩,
    changed_of_update L L' hne (fun _ _ => Iff.rfl) hr, ?_, hav, hlen, ht⟩
  · exact hp.length_eq
  · exact L.restingAt_eq fun leaf' => by
      simp only [reduceCtorEq, iff_false]
      exact fun hm => hr _ hm rfl

theorem insert_duplicate (ha : a.Valid) (h : a.restingAt tree i = some leaf')
    (hk : leaf'.key = leaf.key) : Arena.insert tree leaf a = .error .duplicateKey a := by
  obtain ⟨forest, free, L, -⟩ := validate_iff.1 ha
  exact L.insert_duplicate (L.restingAt_eq_some.1 h) hk

/-- A new key without room for it leaves all orders, and a valid arena unless the slot it gives
back was the last one. -/
theorem insert_full (ha : a.Valid)
    (hn : ∀ i leaf', a.restingAt tree i = some leaf' → leaf'.key ≠ leaf.key)
    (hr : a.available < a.required tree) :
    ∃ a', Arena.insert tree leaf a = .error .full a' ∧
      (¬a.LastFreed tree → a'.Valid ∧ ∀ k j, a'.restingAt k j = a.restingAt k j) ∧
      (a.LastFreed tree → ¬a'.Valid) := by
  obtain ⟨forest, free, L, hc⟩ := validate_iff.1 ha
  obtain ⟨a', hrun, hg, hb⟩ := L.insert_full (fun x hx => hn x.1 x.2 (L.restingAt_eq_some.2 hx)) hr
  refine ⟨a', hrun, fun hl => ?_, fun hl hv => ?_⟩
  · obtain ⟨L', hc'⟩ := hg hl
    refine ⟨LaidOut.valid ⟨L', by simpa only [hc'] using hc⟩, fun k j => ?_⟩
    exact L'.restingAt_eq fun leaf => by rw [L.restingAt_eq_some]
  · obtain ⟨-, hs⟩ := hb hl
    obtain ⟨forest', free', L', -⟩ := validate_iff.1 hv
    exact hs (L'.unused _ le_rfl)

end Valid

end Arena

end Equinox.V2
