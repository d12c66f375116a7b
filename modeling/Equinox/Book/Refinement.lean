import Equinox.Book.Contents
import Equinox.Foundation.Run

/-! # The book as two finite maps

The purpose of a paged book is to keep two finite maps from keys to resting
orders. Every operation of the book acts on these maps as its name says, along
every sequence of successful operations from freshly initialized pages.
-/

namespace Equinox

open Foundation CritBit Function List PagedBookV3

abbrev AbstractBook := TreeKind → Finmap fun _ : Key => LeafNode

namespace AbstractBook

def insert (m : AbstractBook) (tree : TreeKind) (leaf : LeafNode) : AbstractBook :=
  update m tree ((m tree).insert leaf.key leaf)

def erase (m : AbstractBook) (tree : TreeKind) (key : Key) : AbstractBook :=
  update m tree ((m tree).erase key)

def applyCancellation (m : AbstractBook) (cancel : V3SelfTradeCancellation) : AbstractBook :=
  m.erase cancel.makerTree cancel.key

def applyFill (m : AbstractBook) (fill : V3Fill) : AbstractBook :=
  if fill.makerRemaining = 0 then m.erase fill.makerTree fill.key
  else match (m fill.makerTree).lookup fill.key with
    | none => m
    | some leaf => m.insert fill.makerTree { leaf with quantity := fill.makerRemaining }

end AbstractBook

inductive BookOp where
  | insert (tree : TreeKind) (leaf : LeafNode)
  | remove (tree : TreeKind) (key : Key)
  | removeOwned (tree : TreeKind) (key : Key) (owner : ℕ)
  | applyMatchPlan (plan : V3MatchPlan)
  | sweepExpired (tree : TreeKind) (now max : ℕ)

def BookOp.exec : BookOp → BookM Unit
  | insert tree leaf => do let _ ← PagedBookV3.insert tree leaf
  | remove tree key => do let _ ← PagedBookV3.remove tree key
  | removeOwned tree key owner => do let _ ← PagedBookV3.removeOwned tree key owner
  | applyMatchPlan plan => PagedBookV3.applyMatchPlan plan
  | sweepExpired tree now max => do let _ ← PagedBookV3.sweepExpired tree now max

def BookOp.Succeeds (op : BookOp) (b b' : PagedBookV3) : Prop := op.exec b = .ok () b'

def BookOp.Effect (op : BookOp) (m m' : AbstractBook) : Prop :=
  match op with
  | insert tree leaf => leaf.key ∉ m tree ∧ m' = m.insert tree leaf
  | remove tree key => key ∈ m tree ∧ m' = m.erase tree key
  | removeOwned tree key owner =>
    (∃ leaf, (m tree).lookup key = some leaf ∧ leaf.owner = owner) ∧ m' = m.erase tree key
  | applyMatchPlan plan =>
    m' = plan.fills.foldl AbstractBook.applyFill
      (plan.cancellations.foldl AbstractBook.applyCancellation m)
  | sweepExpired tree now max => ∃ keys : List Key,
      keys.length ≤ max ∧
      (∀ key ∈ keys, ∃ leaf, (m tree).lookup key = some leaf ∧ leaf.expiresAt ≤ now) ∧
      m' = keys.foldl (fun m key => m.erase tree key) m ∧
      (keys.length < max → ∀ key leaf, (m' tree).lookup key = some leaf → now < leaf.expiresAt)

namespace PagedBookV3

variable {b b' : PagedBookV3} {m m' : AbstractBook} {tree : TreeKind} {i : ℕ} {leaf : LeafNode}
  {key : Key}

/-- The maps hold exactly the leaves of the trees, under their keys. -/
def Represents (b : PagedBookV3) (m : AbstractBook) : Prop :=
  ∀ tree key leaf, (m tree).lookup key = some leaf ↔
    leaf.key = key ∧ ∃ i, (i, leaf) ∈ b.leaves tree

variable {gone come : List (ℕ × LeafNode)} {x : ℕ × LeafNode}

theorem Exchanged.mem_or_gone
    (h : Exchanged tree gone come b b') (hx : x ∈ b.leaves tree) :
    x ∈ b'.leaves tree ∨ x ∈ gone := mem_append.1 (h.perm.mem_iff.2 (mem_append_left _ hx))

theorem Exchanged.mem_or_come
    (h : Exchanged tree gone come b b') (hx : x ∈ b'.leaves tree) :
    x ∈ b.leaves tree ∨ x ∈ come := mem_append.1 (h.perm.mem_iff.1 (mem_append_left _ hx))

theorem WellFormed.leaf_ext (hb : b.WellFormed) {y : ℕ × LeafNode} (hx : x ∈ b.leaves tree)
    (hy : y ∈ b.leaves tree) (h : x.2.key = y.2.key) : x = y := by
  have hs : ((b.leaves tree).map fun x => x.2.key).Nodup :=
    (pairwise_map.2 (hb.leaves_sorted tree)).imp ne_of_lt
  exact inj_on_of_nodup_map hs hx hy h

theorem Represents.update (hm : b.Represents m) (key : Key)
    (hex : Exchanged tree gone come b b') (hgo : ∀ x ∈ gone, x.2.key = key)
    (hco : ∀ x ∈ come, x.2.key = key) {s : Finmap fun _ : Key => LeafNode}
    (hs : ∀ leaf, s.lookup key = some leaf ↔ leaf.key = key ∧ ∃ i, (i, leaf) ∈ b'.leaves tree)
    (ho : ∀ k ≠ key, s.lookup k = (m tree).lookup k) : b'.Represents (update m tree s) := by
  intro k key' leaf
  by_cases hk : k = tree
  · subst hk
    rw [update_self]
    by_cases hkey : key' = key
    · subst hkey; exact hs leaf
    · rw [ho key' hkey, hm k key' leaf]
      refine and_congr_right fun hl => exists_congr fun i => ⟨fun h => ?_, fun h => ?_⟩
      · exact (hex.mem_or_gone h).resolve_right fun hg => hkey (hl.symm.trans (hgo _ hg))
      · exact (hex.mem_or_come h).resolve_right fun hc => hkey (hl.symm.trans (hco _ hc))
  · rw [update_of_ne hk, hex.other k hk]
    exact hm k key' leaf

theorem Represents.insert (hm : b.Represents m)
    (hex : Exchanged tree gone [(i, leaf)] b b') (hg : ∀ x ∈ gone, x.2.key = leaf.key)
    (hn : (i, leaf) ∈ b'.leaves tree) (hb' : b'.WellFormed) :
    b'.Represents (m.insert tree leaf) := by
  refine hm.update leaf.key hex hg (by simp) (fun leaf' => ?_) fun k hk =>
    Finmap.lookup_insert_of_ne _ hk
  rw [Finmap.lookup_insert, Option.some.injEq]
  constructor
  · rintro rfl; exact ⟨rfl, i, hn⟩
  · rintro ⟨hk, j, hj⟩
    exact congrArg Prod.snd (hb'.leaf_ext hn hj hk.symm)

theorem Represents.erase (hm : b.Represents m) (hb : b.WellFormed)
    (hex : Exchanged tree [(i, leaf)] [] b b') : b'.Represents (m.erase tree leaf.key) := by
  refine hm.update leaf.key hex (by simp) (by simp) (fun leaf' => ?_) fun k hk =>
    Finmap.lookup_erase_ne hk
  rw [Finmap.lookup_erase]
  simp only [reduceCtorEq, false_iff, not_and, not_exists]
  intro hk j hj
  have hnd : ((b.leaves tree).map fun x => x.2.key).Nodup :=
    (pairwise_map.2 (hb.leaves_sorted tree)).imp ne_of_lt
  have hp := (hex.perm.map fun x => x.2.key).nodup_iff.2 (by simpa using hnd)
  rw [map_append] at hp
  exact disjoint_of_nodup_append hp (mem_map_of_mem hj) (by simp [hk])

theorem Represents.lookup (hm : b.Represents m) (h : (i, leaf) ∈ b.leaves tree) :
    (m tree).lookup leaf.key = some leaf := (hm tree leaf.key leaf).2 ⟨rfl, i, h⟩

theorem Represents.mem_iff (hm : b.Represents m) :
    key ∈ m tree ↔ ∃ x ∈ b.leaves tree, x.2.key = key := by
  rw [Finmap.mem_iff]
  constructor
  · rintro ⟨leaf, h⟩
    obtain ⟨hk, i, hi⟩ := (hm tree key leaf).1 h
    exact ⟨(i, leaf), hi, hk⟩
  · rintro ⟨x, hx, rfl⟩
    exact ⟨x.2, hm.lookup hx⟩

def Implements (b : PagedBookV3) (m : AbstractBook) : Prop := b.WellFormed ∧ b.Represents m

theorem Implements.insert (h : b.Implements m) (hr : PagedBookV3.insert tree leaf b = .ok i b') :
    leaf.key ∉ m tree ∧ b'.Implements (m.insert tree leaf) := by
  obtain ⟨hb', hex, hne⟩ := h.1.insert hr
  have hn : (i, leaf) ∈ b'.leaves tree := by
    simpa using hex.perm.mem_iff.2 (mem_append_right _ (mem_singleton_self _))
  refine ⟨?_, hb', h.2.insert hex (by simp) hn hb'⟩
  rw [h.2.mem_iff]
  rintro ⟨x, hx, hk⟩
  exact hne x hx hk

theorem Implements.remove (h : b.Implements m)
    (hr : PagedBookV3.remove tree key b = .ok leaf b') :
    (m tree).lookup key = some leaf ∧ b'.Implements (m.erase tree key) := by
  obtain ⟨rfl, hb', -, i, hi, hex⟩ := h.1.of_remove hr
  exact ⟨h.2.lookup hi, hb', h.2.erase h.1 hex⟩

theorem Implements.removeOwned {owner : ℕ} (h : b.Implements m)
    (hr : PagedBookV3.removeOwned tree key owner b = .ok leaf b') :
    ((m tree).lookup key = some leaf ∧ leaf.owner = owner) ∧ b'.Implements (m.erase tree key) := by
  simp only [PagedBookV3.removeOwned, run_bind_eq_ok, run_reading_eq_ok] at hr
  obtain ⟨i, _, ⟨hf, rfl⟩, leaf', _, ⟨hle, rfl⟩, hr⟩ := hr
  obtain ⟨leaf'', hi, hk⟩ := h.1.find_eq_ok.1 hf
  obtain rfl : leaf'' = leaf' := by simpa [h.1.leaf_eq hi] using hle
  by_cases ho : leaf''.owner = owner
  · simp only [ho, ne_eq, not_true_eq_false, if_false] at hr
    obtain ⟨hl, himp⟩ := h.remove hr
    have := (hk ▸ h.2.lookup hi).symm.trans hl
    obtain rfl := Option.some.inj this
    exact ⟨⟨hl, ho⟩, himp⟩
  · simp [ho] at hr

/-- Every leaf was already there under its handle and key. -/
def Within (b b₀ : PagedBookV3) : Prop :=
  ∀ tree, ∀ x ∈ b.leaves tree, ∃ y ∈ b₀.leaves tree, y.1 = x.1 ∧ y.2.key = x.2.key

variable {b₀ : PagedBookV3}

theorem Within.of_exchanged (hw : Within b b₀) (hex : Exchanged tree gone come b b')
    (hc : ∀ x ∈ come, ∃ y ∈ b.leaves tree, y.1 = x.1 ∧ y.2.key = x.2.key) : Within b' b₀ := by
  intro k x hx
  by_cases hk : k = tree
  · subst hk
    rcases hex.mem_or_come hx with hx | hx
    · exact hw k x hx
    · obtain ⟨y, hy, h1, h2⟩ := hc x hx
      obtain ⟨z, hz, h1', h2'⟩ := hw k y hy
      exact ⟨z, hz, h1'.trans h1, h2'.trans h2⟩
  · rw [hex.other k hk] at hx
    exact hw k x hx

/-- The state of a plan's application: the book has lost some leaves of the book planned on. -/
structure Applying (b₀ b : PagedBookV3) (m : AbstractBook) : Prop where
  implements : b.Implements m
  within : Within b b₀
  bumpIndex : b.bumpIndex = b₀.bumpIndex

theorem Applying.remove (h : Applying b₀ b m)
    (hr : PagedBookV3.remove tree key b = .ok leaf b') : Applying b₀ b' (m.erase tree key) := by
  obtain ⟨-, -, hb, i, -, hex⟩ := h.implements.1.of_remove hr
  exact ⟨(h.implements.remove hr).2, h.within.of_exchanged hex (by simp), hb.trans h.bumpIndex⟩

theorem Applying.applyFill {fill : V3Fill} (hb₀ : b₀.WellFormed)
    (hc : b₀.checkFill fill = .ok ()) (h : Applying b₀ b m)
    (hrun : PagedBookV3.applyFill fill b = .ok () b') : Applying b₀ b' (m.applyFill fill) := by
  simp only [PagedBookV3.applyFill] at hrun
  simp only [AbstractBook.applyFill]
  by_cases hr : fill.makerRemaining = 0
  · simp only [hr, if_true, run_bind_eq_ok, run_pure_eq_ok] at hrun ⊢
    obtain ⟨leaf, b₁, hrun, -, rfl⟩ := hrun
    exact h.remove hrun
  · simp only [hr, if_false, run_bind_eq_ok, run_reading_eq_ok] at hrun ⊢
    obtain ⟨leaf, _, ⟨hle, rfl⟩, hp⟩ := hrun
    simp only [checkFill, bind_eq_ok, require_eq_ok] at hc
    obtain ⟨current, -, ⟨⟩, ⟨hk, -⟩, handle, hf, rfl, -⟩ := hc
    obtain ⟨current', hm₀, hk₀⟩ := hb₀.find_eq_ok.1 hf
    obtain ⟨tree', hmem⟩ := h.implements.1.mem_leaves_of_leaf
      (h.bumpIndex ▸ hb₀.handle_lt_bump hm₀) hle
    obtain ⟨⟨j, l⟩, hy, rfl, hky⟩ := h.within _ _ hmem
    obtain rfl := hb₀.tree_unique hm₀ hy
    obtain rfl : current' = l := by simpa [hb₀.leaf_eq hm₀] using hb₀.leaf_eq hy
    obtain ⟨b₁, hp', hb₁, hex, hn, hb⟩ := h.implements.1.putLeaf
      { leaf with quantity := fill.makerRemaining } hmem rfl rfl
    obtain rfl : b₁ = b' := by simpa [hp] using hp'.symm
    have hl := h.implements.2.lookup hmem
    rw [← hky, hk₀] at hl
    rw [hl]
    exact ⟨⟨hb₁, h.implements.2.insert hex (by simp) hn hb₁⟩,
      h.within.of_exchanged hex fun x hx => ⟨_, hmem, by simp_all⟩, hb.trans h.bumpIndex⟩

theorem Implements.applyMatchPlan {plan : V3MatchPlan} (h : b.Implements m)
    (hrun : PagedBookV3.applyMatchPlan plan b = .ok () b') :
    b'.Implements (plan.fills.foldl AbstractBook.applyFill
      (plan.cancellations.foldl AbstractBook.applyCancellation m)) := by
  simp only [PagedBookV3.applyMatchPlan, run_bind_eq_ok, run_forM_reading] at hrun
  obtain ⟨_, _, ⟨-, rfl⟩, _, _, ⟨hfil, rfl⟩, _, b₁, hc, hfi⟩ := hrun
  have h₀ : Applying b b m := ⟨h, fun _ x hx => ⟨x, hx, rfl, rfl⟩, rfl⟩
  have h₁ := run_forM_foldl (R := Applying b) (g := AbstractBook.applyCancellation)
    (fun cancel _ s s' t hs hr => ?_) h₀ hc
  · exact (run_forM_foldl (R := Applying b) (g := AbstractBook.applyFill)
      (fun fill hf s s' t hs hr => hs.applyFill h.1 (hfil fill hf) hr) h₁ hfi).implements
  · simp only [applyCancellation, run_bind_eq_ok, run_pure_eq_ok] at hr
    obtain ⟨leaf, s₁, hr, -, rfl⟩ := hr
    exact hs.remove hr

theorem Implements.sweepExpired {now max removed : ℕ} (h : b.Implements m)
    (hr : PagedBookV3.sweepExpired tree now max b = .ok removed b') :
    ∃ keys : List Key, keys.length ≤ max ∧
      (∀ key ∈ keys, ∃ leaf, (m tree).lookup key = some leaf ∧ leaf.expiresAt ≤ now) ∧
      b'.Implements (keys.foldl (fun m key => m.erase tree key) m) ∧
      (keys.length < max → ∀ key leaf,
        (keys.foldl (fun m key => m.erase tree key) m tree).lookup key = some leaf →
          now < leaf.expiresAt) := by
  induction max generalizing b m removed with
  | zero =>
    obtain ⟨-, rfl⟩ := run_pure_eq_ok.1 hr
    exact ⟨[], by simp, by simp, h, by simp⟩
  | succ max ih =>
    simp only [PagedBookV3.sweepExpired, run_bind_eq_ok, run_reading_eq_ok] at hr
    obtain ⟨found, _, ⟨hf, rfl⟩, hr⟩ := hr
    rcases h.1.firstExpired_eq tree now with ⟨hn, ha⟩ | ⟨x, hx, hs, hle⟩
    · obtain rfl := Except.ok.inj (hn.symm.trans hf)
      obtain ⟨-, rfl⟩ := run_pure_eq_ok.1 hr
      refine ⟨[], by simp, by simp, h, fun _ key leaf hlo => ?_⟩
      obtain ⟨-, i, hi⟩ := (h.2 tree key leaf).1 hlo
      exact ha _ hi
    · obtain rfl := Except.ok.inj (hs.symm.trans hf)
      simp only [run_bind_eq_ok, run_reading_eq_ok] at hr
      obtain ⟨leaf, _, ⟨hleaf, rfl⟩, leaf', b₁, hre, n, b₂, hsw, he⟩ := hr
      obtain ⟨-, rfl⟩ := run_pure_eq_ok.1 he
      obtain rfl : x.2 = leaf := by simpa [h.1.leaf_eq hx] using hleaf
      obtain ⟨hlo, h₁⟩ := h.remove hre
      obtain ⟨keys, hlen, hexp, himp, hrest⟩ := ih h₁ hsw
      refine ⟨x.2.key :: keys, by simpa using hlen, ?_, himp, fun hlt => hrest (by simpa using hlt)⟩
      rintro key hk
      rcases mem_cons.1 hk with rfl | hk
      · exact ⟨x.2, h.2.lookup hx, hle⟩
      · obtain ⟨l, hl, hle'⟩ := hexp key hk
        refine ⟨l, ?_, hle'⟩
        have hne : key ≠ x.2.key := by
          rintro rfl
          simp [AbstractBook.erase, Finmap.lookup_erase] at hl
        simpa [AbstractBook.erase, Finmap.lookup_erase_ne hne] using hl

theorem Implements.step {op : BookOp} (h : b.Implements m) (hr : op.Succeeds b b') :
    ∃ m', op.Effect m m' ∧ b'.Implements m' := by
  cases op with
  | insert tree leaf =>
    obtain ⟨i, _, hr, ⟨⟩⟩ := run_bind_eq_ok.1 hr
    obtain ⟨hn, h'⟩ := h.insert hr
    exact ⟨_, ⟨hn, rfl⟩, h'⟩
  | remove tree key =>
    obtain ⟨leaf, _, hr, ⟨⟩⟩ := run_bind_eq_ok.1 hr
    obtain ⟨hl, h'⟩ := h.remove hr
    exact ⟨_, ⟨Finmap.mem_iff.2 ⟨leaf, hl⟩, rfl⟩, h'⟩
  | removeOwned tree key owner =>
    obtain ⟨leaf, _, hr, ⟨⟩⟩ := run_bind_eq_ok.1 hr
    obtain ⟨hl, h'⟩ := h.removeOwned hr
    exact ⟨_, ⟨⟨leaf, hl⟩, rfl⟩, h'⟩
  | applyMatchPlan plan => exact ⟨_, rfl, h.applyMatchPlan hr⟩
  | sweepExpired tree now max =>
    obtain ⟨removed, _, hr, ⟨⟩⟩ := run_bind_eq_ok.1 hr
    obtain ⟨keys, hlen, he, h', hre⟩ := h.sweepExpired hr
    exact ⟨_, ⟨keys, hlen, he, rfl, hre⟩, h'⟩

/-- The pages of a book as their initialization leaves them. -/
def Prepared (b : PagedBookV3) : Prop :=
  ∀ page < bookPagesPerSide, ∃ data, initializeBookPageMetadata data page = .ok (b.pages page)

theorem Prepared.layout (h : b.Prepared) : Layout b (fun _ => none) [] [] := by
  obtain ⟨data, hd⟩ := h 0 (by decide)
  simp only [initializeBookPageMetadata, bind_eq_ok, pure_eq_ok, if_true] at hd
  obtain ⟨-, -, hp⟩ := hd
  refine ⟨?_, by simp, by simp, ?_, ?_, ?_, ?_⟩
  · rintro (_ | _) <;> simp [root, ← hp, rootHandle]
  · simp [Linked, freeHead, ← hp]
  · simp [freeCount, ← hp]
  · simp [bumpIndex, ← hp]
  · simp [bumpIndex, ← hp, forestHandles, treeHandles]

theorem Prepared.implements (h : b.Prepared) : b.Implements fun _ => ∅ := by
  refine ⟨⟨_, _, h.layout⟩, fun tree key leaf => ?_⟩
  simp [h.layout.leaves_eq, treeLeaves]

/-- The records of a book read as two finite maps, each in a correct tree of its own, over an
allocator that accounts for every slot. -/
structure Faithful (b : PagedBookV3) (m : AbstractBook) : Prop where
  find_iff : ∀ tree key, (∃ i, b.find tree key = .ok i) ↔ key ∈ m tree
  find_leaf : ∀ tree key i, b.find tree key = .ok i →
    ∃ leaf, b.leaf i = .ok leaf ∧ leaf.key = key ∧ (m tree).lookup key = some leaf
  best_none : ∀ tree, b.best tree = .ok none ↔ m tree = ∅
  best_some : ∀ tree, m tree ≠ ∅ → ∃ i leaf, b.best tree = .ok (some i) ∧ b.leaf i = .ok leaf ∧
    (m tree).lookup leaf.key = some leaf ∧ ∀ key ∈ m tree, leaf.key ≤ key
  trees : ∃ (forest : Forest) (free : List ℕ),
    (∀ tree, b.root tree = rootHandle (forest tree)) ∧
    (∀ tree, ∀ t ∈ forest tree, b.Stores t ∧ t.WF LeafNode.key) ∧
    (∀ tree key leaf, (m tree).lookup key = some leaf ↔
      leaf.key = key ∧ ∃ i, (i, leaf) ∈ treeLeaves (forest tree)) ∧
    Linked b.FreeNext NONE b.freeHead free ∧ b.freeCount = free.length ∧
    (treeHandles (forest .fixed) ++ treeHandles (forest .oraclePegged) ++ free ++
      range' b.bumpIndex (bookSlotsPerSide - b.bumpIndex)).Perm (range bookSlotsPerSide)

theorem Layout.perm_slots {forest : Forest} {free : List ℕ} (L : Layout b forest free []) :
    (treeHandles (forest .fixed) ++ treeHandles (forest .oraclePegged) ++ free ++
      range' b.bumpIndex (bookSlotsPerSide - b.bumpIndex)).Perm (range bookSlotsPerSide) := by
  have hs : range bookSlotsPerSide =
      range b.bumpIndex ++ range' b.bumpIndex (bookSlotsPerSide - b.bumpIndex) := by
    have := range'_append_1 (s := 0) (m := b.bumpIndex) (n := bookSlotsPerSide - b.bumpIndex)
    simp only [Nat.zero_add, Nat.add_sub_cancel' L.bump_le] at this
    rw [range_eq_range', range_eq_range', this]
  rw [hs]
  have hp := L.perm
  simp only [append_nil, forestHandles] at hp
  exact hp.append_right _

theorem Implements.faithful (h : b.Implements m) : b.Faithful m := by
  obtain ⟨hb, hm⟩ := h
  have hem (tree : TreeKind) : m tree = ∅ ↔ b.leaves tree = [] := by
    constructor
    · intro he
      refine eq_nil_iff_forall_not_mem.2 fun x hx => ?_
      have := hm.lookup hx
      simp [he] at this
    · intro he
      refine Finmap.ext_lookup fun key => ?_
      rw [Finmap.lookup_empty, Finmap.lookup_eq_none, hm.mem_iff, he]
      simp
  refine ⟨fun tree key => ?_, fun tree key i hi => ?_, fun tree => ?_, fun tree hne => ?_, ?_⟩
  · rw [hm.mem_iff]
    constructor
    · rintro ⟨i, hi⟩
      obtain ⟨leaf, hmem, hk⟩ := hb.find_eq_ok.1 hi
      exact ⟨_, hmem, hk⟩
    · rintro ⟨x, hx, hk⟩
      exact ⟨x.1, hb.find_eq_ok.2 ⟨x.2, hx, hk⟩⟩
  · obtain ⟨leaf, hmem, rfl⟩ := hb.find_eq_ok.1 hi
    exact ⟨leaf, hb.leaf_eq hmem, rfl, hm.lookup hmem⟩
  · rw [hb.best_eq, hem]
    cases b.leaves tree <;> simp
  · rw [Ne, hem] at hne
    obtain ⟨x, rest, hx⟩ := exists_cons_of_ne_nil hne
    have hmem : x ∈ b.leaves tree := by simp [hx]
    refine ⟨x.1, x.2, by simp [hb.best_eq, hx], hb.leaf_eq hmem, hm.lookup hmem, fun key hkey => ?_⟩
    obtain ⟨y, hy, rfl⟩ := hm.mem_iff.1 hkey
    have hs := hb.leaves_sorted tree
    rw [hx] at hs hy
    rcases mem_cons.1 hy with rfl | hy
    · exact le_rfl
    · exact (rel_of_pairwise_cons hs hy).le
  · obtain ⟨forest, free, L⟩ := hb
    exact ⟨forest, free, L.root, fun tree t ht => ⟨L.stores tree t ht, L.wf tree t ht⟩,
      fun tree key leaf => by rw [hm tree key leaf, L.leaves_eq], L.linked, L.count, L.perm_slots⟩

end PagedBookV3

/-- One step of a book together with the maps it stands for. -/
def BookOp.Refines (op : BookOp) (s s' : PagedBookV3 × AbstractBook) : Prop :=
  op.Succeeds s.1 s'.1 ∧ op.Effect s.2 s'.2 ∧ s'.1.Faithful s'.2

/-- From initialized pages, every sequence of successful operations acts on two finite maps, which
the pages represent after every step. -/
theorem pagedBook_refines_maps {b₀ b : PagedBookV3} {ops : List BookOp} (hinit : b₀.Prepared)
    (hrun : Run BookOp.Succeeds b₀ ops b) :
    b₀.Faithful (fun _ => ∅) ∧
      ∃ m, Run BookOp.Refines (b₀, fun _ => ∅) ops (b, m) ∧ b.Faithful m := by
  have hs : ∃ s, Run BookOp.Refines (b₀, fun _ => ∅) ops s ∧ s.1 = b ∧ b.Implements s.2 := by
    refine hrun.simulate (R := fun b (s : PagedBookV3 × AbstractBook) => s.1 = b ∧ b.Implements s.2)
      ⟨rfl, hinit.implements⟩ ?_
    rintro op u u' ⟨_, m⟩ ⟨rfl, hm⟩ hop
    obtain ⟨m', he, hm'⟩ := hm.step hop
    exact ⟨(u', m'), ⟨hop, he, hm'.faithful⟩, rfl, hm'⟩
  obtain ⟨⟨_, m⟩, hs, rfl, hm⟩ := hs
  exact ⟨hinit.implements.faithful, m, hs, hm.faithful⟩

theorem PagedBookV3.fresh_prepared : fresh.Prepared := by
  intro page hp
  refine ⟨zeroPage, ?_⟩
  simp [fresh, initializeBookPageMetadata, require, hp, bind, Except.bind,
    Except.toOption, pure, Except.pure]

/-- A resting order of seat one, for runs on fixed inputs. -/
def sampleLeaf (key : Key) (quantity : ℕ) : LeafNode where
  side := .ask
  owner := 1
  key
  quantity
  expiresAt := 100
  pegLimit := 0
  clientOrderId := 0
  priceOrOffset := 10
  sequence := 1
  postOnly := false
  reservePrice := 0

theorem run_of_forM {ops : List BookOp} (h : isOk (ops.forM BookOp.exec b) = true) :
    Run BookOp.Succeeds b ops (finalState (ops.forM BookOp.exec b)) := by
  have hs := eq_ok_of_isOk h
  generalize finalState (ops.forM BookOp.exec b) = b' at hs
  clear h
  induction ops generalizing b with
  | nil =>
    obtain ⟨-, rfl⟩ := run_pure_eq_ok.1 hs
    exact .nil
  | cons op ops ih =>
    obtain ⟨b₁, h₁, h₂⟩ := run_forM_cons.1 hs
    exact .cons h₁ (ih h₂)

theorem pagedBook_refines_maps_of_sample :
    ∃ b m, Run BookOp.Refines (fresh, fun _ => ∅)
      [.insert .fixed (sampleLeaf 5 1), .insert .fixed (sampleLeaf 9 2), .remove .fixed 5] (b, m) ∧
      b.Faithful m :=
  ⟨_, (pagedBook_refines_maps fresh_prepared (run_of_forM (by decide +kernel))).2⟩

end Equinox
