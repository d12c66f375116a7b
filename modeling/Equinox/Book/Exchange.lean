import Equinox.Book.Plan

/-! # The orders of a book

A book as the multiset of its resting orders. Inserting, removing and shrinking an
order change one element of it, and applying a plan exchanges the orders the plan
uses for what it leaves of them.
-/

namespace Equinox

open Foundation CritBit List Maker

/-- An order and where it rests. -/
structure Resting where
  tree : TreeKind
  handle : ℕ
  leaf : LeafNode
  deriving DecidableEq

def Maker.resting (x : Maker) : Resting := ⟨x.tree, x.handle, x.leaf⟩

namespace PagedBookV3

variable {b b' : PagedBookV3} {tree : TreeKind} {i : ℕ} {leaf : LeafNode} {key : Key} {r : Resting}

def contents (b : PagedBookV3) : Multiset Resting :=
  ↑(((b.leaves .fixed).map fun e => Resting.mk .fixed e.1 e.2) ++
    ((b.leaves .oraclePegged).map fun e => Resting.mk .oraclePegged e.1 e.2))

theorem mem_contents : r ∈ b.contents ↔ (r.handle, r.leaf) ∈ b.leaves r.tree := by
  obtain ⟨tree, i, leaf⟩ := r
  simp only [contents, Multiset.mem_coe, mem_append, mem_map, Resting.mk.injEq]
  cases tree <;> simp

theorem distinctSequences_iff :
    b.DistinctSequences ↔ (b.contents.map fun r => r.leaf.sequence).Nodup := by
  simp [DistinctSequences, contents, Function.comp_def]

theorem resting_mem_contents {side : Side} {oracle : Option I64} {now : ℕ} {x : Maker}
    (hx : x ∈ b.makers side oracle now) : x.resting ∈ b.contents :=
  mem_contents.2 (mem_makers.1 hx).1

theorem makers_resting_nodup {side : Side} {oracle : Option I64} {now : ℕ}
    (h : b.DistinctSequences) : ((b.makers side oracle now).map resting).Nodup := by
  refine Nodup.of_map (fun r => r.leaf.sequence) ?_
  rw [map_map]
  exact makers_sequences_nodup h

theorem Exchanged.contents_eq {gone come : List (ℕ × LeafNode)}
    (h : Exchanged tree gone come b b') :
    b'.contents + (gone.map fun e => Resting.mk tree e.1 e.2 : List Resting) =
      b.contents + (come.map fun e => Resting.mk tree e.1 e.2 : List Resting) := by
  have hp := Multiset.coe_eq_coe.2 (h.perm.map fun e => Resting.mk tree e.1 e.2)
  simp only [map_append, ← Multiset.coe_add] at hp
  cases tree with
  | fixed =>
    simp only [contents, h.other .oraclePegged (by decide), ← Multiset.coe_add]
    rw [add_right_comm, hp, add_right_comm]
  | oraclePegged =>
    simp only [contents, h.other .fixed (by decide), ← Multiset.coe_add]
    rw [add_assoc, hp, add_assoc]

theorem WellFormed.contents_insert (hb : b.WellFormed)
    (h : PagedBookV3.insert tree leaf b = .ok i b') :
    b'.WellFormed ∧ b'.contents = ⟨tree, i, leaf⟩ ::ₘ b.contents := by
  obtain ⟨hb', hex, -⟩ := hb.insert h
  refine ⟨hb', ?_⟩
  rw [← Multiset.singleton_add, add_comm]
  simpa using hex.contents_eq

theorem WellFormed.contents_remove (hb : b.WellFormed)
    (h : PagedBookV3.remove tree key b = .ok leaf b') :
    leaf.key = key ∧ b'.WellFormed ∧ ∃ i, b.contents = ⟨tree, i, leaf⟩ ::ₘ b'.contents := by
  obtain ⟨hk, hb', -, i, -, hex⟩ := hb.of_remove h
  refine ⟨hk, hb', i, ?_⟩
  rw [← Multiset.singleton_add, add_comm]
  simpa using hex.contents_eq.symm

theorem WellFormed.resting_ext (hb : b.WellFormed) {r r' : Resting} (h : r ∈ b.contents)
    (h' : r' ∈ b.contents) (ht : r.tree = r'.tree) (hk : r.leaf.key = r'.leaf.key) : r = r' := by
  obtain ⟨tree, i, leaf⟩ := r
  obtain ⟨tree', i', leaf'⟩ := r'
  obtain rfl : tree = tree' := ht
  have hmem := mem_contents.1 h
  have hm' := mem_contents.1 h'
  have hf := hb.find_eq_ok.2 ⟨leaf, hmem, rfl⟩
  have hf' := hb.find_eq_ok.2 ⟨leaf', hm', rfl⟩
  obtain rfl : i = i' := by
    change leaf.key = leaf'.key at hk
    rw [hk, hf'] at hf
    exact (Except.ok.inj hf).symm
  obtain rfl : leaf = leaf' := by simpa [hb.leaf_eq hmem] using hb.leaf_eq hm'
  rfl

theorem WellFormed.contents_putLeaf (hb : b.WellFormed) (hr : r ∈ b.contents) {new : LeafNode}
    {u : Unit} (h : PagedBookV3.putLeaf r.handle new b = .ok u b')
    (hk : new.key = r.leaf.key) (he : new.expiresAt = r.leaf.expiresAt) :
    b'.WellFormed ∧ r ::ₘ b'.contents = { r with leaf := new } ::ₘ b.contents := by
  obtain ⟨b'', hrun, hb'', hex, -, -⟩ := hb.putLeaf new (mem_contents.1 hr) hk he
  obtain rfl : b'' = b' := by simpa [h] using hrun.symm
  refine ⟨hb'', ?_⟩
  rw [← Multiset.singleton_add, add_comm, ← Multiset.singleton_add, add_comm _ b.contents]
  simpa using hex.contents_eq

/-! ## Applying a plan -/

variable {x : Maker} {u : Unit} {n : ℕ} {uses : List (Maker × Use)}

/-- The orders that leave the book, or shrink, in a use. -/
def goneIn : Maker × Use → Multiset Resting
  | (_, .passed) => 0
  | (x, _) => {x.resting}

def leftIn : Maker × Use → Multiset Resting
  | (x, .filled n) => if n = x.leaf.quantity then 0 else
      {{ x.resting with leaf := { x.leaf with quantity := x.leaf.quantity - n } }}
  | _ => 0

theorem WellFormed.applyCancellation_eq_ok (hb : b.WellFormed) (hx : x.resting ∈ b.contents)
    (h : applyCancellation x.toCancellation b = .ok u b') :
    b'.WellFormed ∧ b.contents = x.resting ::ₘ b'.contents := by
  obtain ⟨leaf, b₁, hr, he⟩ := run_bind_eq_ok.1 h
  obtain ⟨-, rfl⟩ := run_pure_eq_ok.1 he
  obtain ⟨hk, hb', i, hc⟩ := hb.contents_remove hr
  have hmem : (⟨x.tree, i, leaf⟩ : Resting) ∈ b.contents := by
    rw [hc]
    exact Multiset.mem_cons_self _ _
  have heq := hb.resting_ext hmem hx rfl hk
  exact ⟨hb', heq ▸ hc⟩

theorem WellFormed.applyFill_eq_ok (hb : b.WellFormed) (hx : x.resting ∈ b.contents)
    (hn : n ≤ x.leaf.quantity) (h : applyFill (x.toFill n) b = .ok u b') :
    b'.WellFormed ∧ b'.contents + goneIn (x, .filled n) = b.contents + leftIn (x, .filled n) := by
  unfold applyFill at h
  split at h
  · rename_i hz
    have ha : n = x.leaf.quantity := by
      simp only [toFill] at hz
      omega
    obtain ⟨hb', hc⟩ := hb.applyCancellation_eq_ok hx h
    refine ⟨hb', ?_⟩
    simp only [goneIn, leftIn, if_pos ha, add_zero]
    rw [add_comm, Multiset.singleton_add, hc]
  · rename_i hp
    have hp' : n ≠ x.leaf.quantity := by
      simp only [toFill] at hp
      omega
    rw [run_reading_bind] at h
    obtain ⟨leaf, hl, h⟩ := h
    have hx' : b.leaf x.handle = .ok x.leaf := hb.leaf_eq (mem_contents.1 hx)
    obtain rfl : x.leaf = leaf := by simpa [toFill, hx'] using hl
    obtain ⟨hb', hc⟩ := hb.contents_putLeaf (r := x.resting) hx h rfl rfl
    refine ⟨hb', ?_⟩
    simp only [goneIn, leftIn, if_neg hp']
    rw [add_comm, Multiset.singleton_add, add_comm, Multiset.singleton_add]
    exact hc

/-- The cancellations of a plan remove its cancelled orders. -/
theorem WellFormed.applyCancellations_eq_ok (hb : b.WellFormed)
    (hmem : ∀ u ∈ uses, u.1.resting ∈ b.contents) (hnd : (uses.map (·.1.resting)).Nodup)
    (h : (uses.filterMap cancellationOf).forM applyCancellation b = .ok u b') :
    b'.WellFormed ∧ b'.contents +
      (uses.map fun u => if u.2 = .cancelled then goneIn u else 0).sum = b.contents := by
  induction uses generalizing b with
  | nil =>
    obtain ⟨-, rfl⟩ := run_pure_eq_ok.1 h
    exact ⟨hb, by simp⟩
  | cons v uses ih =>
    obtain ⟨x, use⟩ := v
    rw [map_cons, nodup_cons] at hnd
    have hr : ∀ u ∈ uses, u.1.resting ∈ b.contents := fun u hu =>
      hmem u (mem_cons_of_mem _ hu)
    cases use with
    | cancelled =>
      obtain ⟨b₁, h₁, h⟩ := run_forM_cons.1 h
      obtain ⟨hb₁, hc⟩ := hb.applyCancellation_eq_ok (hmem (x, .cancelled) (by simp)) h₁
      have hm₁ : ∀ u ∈ uses, u.1.resting ∈ b₁.contents := by
        intro u hu
        have := hr u hu
        rw [hc, Multiset.mem_cons] at this
        refine this.resolve_left fun heq => hnd.1 ?_
        rw [← heq]
        exact mem_map_of_mem hu
      obtain ⟨hb', hsum⟩ := ih hb₁ hm₁ hnd.2 h
      refine ⟨hb', ?_⟩
      rw [map_cons, sum_cons, if_pos rfl, add_left_comm, hsum, hc]
      exact Multiset.singleton_add _ _
    | passed | filled n =>
      obtain ⟨hb', hsum⟩ := ih hb hr hnd.2 h
      refine ⟨hb', ?_⟩
      rw [map_cons, sum_cons, if_neg (by simp), zero_add, hsum]

/-- The fills of a plan exchange its filled orders for what is left of them. -/
theorem WellFormed.applyFills_eq_ok (hb : b.WellFormed)
    (hmem : ∀ u ∈ uses, u.2 ≠ .cancelled → u.1.resting ∈ b.contents)
    (hnd : (uses.map (·.1.resting)).Nodup)
    (hle : ∀ x n, (x, .filled n) ∈ uses → n ≤ x.leaf.quantity)
    (h : (uses.filterMap fillOf).forM applyFill b = .ok u b') :
    b'.WellFormed ∧ b'.contents +
      (uses.map fun u => if u.2 = .cancelled then 0 else goneIn u).sum =
        b.contents + (uses.map leftIn).sum := by
  induction uses generalizing b with
  | nil =>
    obtain ⟨-, rfl⟩ := run_pure_eq_ok.1 h
    exact ⟨hb, by simp⟩
  | cons v uses ih =>
    obtain ⟨x, use⟩ := v
    rw [map_cons, nodup_cons] at hnd
    have hr : ∀ u ∈ uses, u.2 ≠ .cancelled → u.1.resting ∈ b.contents := fun u hu =>
      hmem u (mem_cons_of_mem _ hu)
    have hle' : ∀ x n, (x, .filled n) ∈ uses → n ≤ x.leaf.quantity := fun x n hu =>
      hle x n (mem_cons_of_mem _ hu)
    cases use with
    | filled n =>
      obtain ⟨b₁, h₁, h⟩ := run_forM_cons.1 h
      obtain ⟨hb₁, hc⟩ := hb.applyFill_eq_ok (hmem (x, .filled n) (by simp) (by simp))
        (hle x n (by simp)) h₁
      have hm₁ : ∀ u ∈ uses, u.2 ≠ .cancelled → u.1.resting ∈ b₁.contents := by
        intro u hu hne
        have hin : u.1.resting ∈ b₁.contents + goneIn (x, .filled n) := by
          rw [hc]
          exact Multiset.mem_add.2 (.inl (hr u hu hne))
        refine (Multiset.mem_add.1 hin).resolve_right fun heq => hnd.1 ?_
        rw [← Multiset.mem_singleton.1 heq]
        exact mem_map_of_mem hu
      obtain ⟨hb', hsum⟩ := ih hb₁ hm₁ hnd.2 hle' h
      refine ⟨hb', ?_⟩
      simp only [map_cons, sum_cons, reduceCtorEq, if_false]
      rw [add_left_comm, hsum, add_left_comm, ← add_assoc, hc, add_assoc]
    | passed | cancelled =>
      obtain ⟨hb', hsum⟩ := ih hb hr hnd.2 hle' h
      refine ⟨hb', ?_⟩
      simpa [goneIn, leftIn] using hsum

/-- Applying a plan exchanges the orders it uses for what is left of them. -/
theorem WellFormed.applyMatchPlan_eq_ok (hb : b.WellFormed) {quantity : ℕ}
    (hmem : ∀ u ∈ uses, u.1.resting ∈ b.contents) (hnd : (uses.map (·.1.resting)).Nodup)
    (hle : ∀ x n, (x, .filled n) ∈ uses → n ≤ x.leaf.quantity)
    (h : applyMatchPlan (V3MatchPlan.extend ⟨[], quantity, []⟩ uses) b = .ok u b') :
    b'.WellFormed ∧ b'.contents + (uses.map goneIn).sum = b.contents + (uses.map leftIn).sum := by
  simp only [applyMatchPlan, V3MatchPlan.extend, nil_append] at h
  obtain ⟨⟨⟩, _, hch, h⟩ := run_bind_eq_ok.1 h
  obtain ⟨-, rfl⟩ := run_forM_reading.1 hch
  obtain ⟨⟨⟩, _, hc', h⟩ := run_bind_eq_ok.1 h
  obtain ⟨-, rfl⟩ := run_forM_reading.1 hc'
  obtain ⟨⟨⟩, b₁, hca, hf⟩ := run_bind_eq_ok.1 h
  obtain ⟨hb₁, hs₁⟩ := hb.applyCancellations_eq_ok hmem hnd hca
  have hm₁ : ∀ u ∈ uses, u.2 ≠ .cancelled → u.1.resting ∈ b₁.contents := by
    intro u hu hne
    have hin := hmem u hu
    rw [← hs₁, Multiset.mem_add] at hin
    refine hin.resolve_right fun hg => ?_
    rw [← Multiset.sum_coe] at hg
    obtain ⟨s, hs, hg⟩ := Multiset.mem_join.1 hg
    obtain ⟨v, hv, rfl⟩ := mem_map.1 hs
    split at hg
    · rename_i hc
      have hsa : u.1.resting = v.1.resting := by
        obtain ⟨x, use⟩ := v
        obtain rfl : use = .cancelled := hc
        exact Multiset.mem_singleton.1 hg
      exact hne (inj_on_of_nodup_map hnd hu hv hsa ▸ hc)
    · exact Multiset.notMem_zero _ hg
  obtain ⟨hb', hsum⟩ := hb₁.applyFills_eq_ok hm₁ hnd hle hf
  have hsp : (uses.map goneIn).sum =
      (uses.map fun u => if u.2 = .cancelled then goneIn u else 0).sum +
        (uses.map fun u => if u.2 = .cancelled then 0 else goneIn u).sum := by
    rw [← sum_map_add]
    congr 1
    refine map_congr_left fun u _ => ?_
    split <;> simp
  refine ⟨hb', ?_⟩
  rw [hsp, add_left_comm, hsum, ← hs₁, add_left_comm, add_assoc]

end PagedBookV3

end Equinox
