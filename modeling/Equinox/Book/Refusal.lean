import Equinox.Book.Refinement

/-! # Refused insertions

An insertion into a tree with leaves needs two slots, and gives the first one
back when there is no second. A slot from the free list still carries the record
it had there, and goes back to where it was. The last slot of the pages was never
in use: it stays allocated, and the refusal is not the one for a full book.
-/

namespace Equinox

open Foundation CritBit PagedBookV3 Function List EStateM

namespace PagedBookV3

variable {b b' : PagedBookV3} {forest : Forest} {free : List ℕ} {tree : TreeKind} {t : BookTree}
  {fs : List BookFrame} {i p : ℕ} {rep : Key} {leaf : LeafNode} {e : ProgramError}

theorem recycle_unused (hi : i < b.bumpIndex) (hlt : i < bookSlotsPerSide)
    (hn : b.node i = .uninitialized) : recycle i b = .error bundleError b := by
  have hr : reading (·.nodeBytes i) b = .ok .uninitialized b :=
    run_reading_of_ok (nodeBytes_eq_ok.2 ⟨hlt, hn⟩)
  rw [recycle, run_get_bind, if_neg (not_le.2 hi), run_bind_of_ok hr]
  rfl

theorem modifyPage_eq_self {page : ℕ} {f : BookPage → BookPage}
    (h : f (b.pages page) = b.pages page) : b.modifyPage page f = b := by
  obtain ⟨pages⟩ := b
  simp only [modifyPage, mk.injEq]
  funext k
  split
  · rename_i hk
    subst hk
    exact h
  · rfl

theorem modifyPage_modifyPage {page : ℕ} {f g : BookPage → BookPage} :
    (b.modifyPage page f).modifyPage page g = b.modifyPage page fun data => g (f data) := by
  simp only [modifyPage, mk.injEq]
  funext k
  split <;> rfl

theorem write_node (b : PagedBookV3) (i : ℕ) : b.write i (b.node i) = b := by
  apply modifyPage_eq_self
  have hn : (fun k => if k = i % bookNodesPerPage then b.node i
      else (b.pages (i / bookNodesPerPage)).nodes k) = (b.pages (i / bookNodesPerPage)).nodes := by
    funext k
    split
    · rename_i hk
      rw [hk, node]
    · rfl
  rw [hn]

theorem released_popped (hh : b.freeHead = i) (hc : b.freeCount = 1)
    (hn : b.FreeNext i NONE) : Layout.released (Layout.popped b NONE) i = b := by
  have hf : freeNode (Layout.popped b NONE).freeHead = (Layout.popped b NONE).node i := by
    rw [Layout.node_popped]
    exact hn.symm
  have hc' : (Layout.popped b NONE).freeCount = 0 := by
    change b.freeCount - 1 = 0
    rw [hc]
  rw [Layout.released, hf, write_node, hc', Layout.popped, modifyPage_modifyPage,
    modifyPage_modifyPage, modifyPage_modifyPage]
  apply modifyPage_eq_self
  simp only [freeHead, freeCount] at hh hc
  simp only [← hh, Nat.zero_add, ← hc]

theorem Layout.allocate_error {loose : List ℕ} (L : Layout b forest free loose)
    (h : PagedBookV3.allocate b = .error e b') : e = .custom .v3BookFull ∧ b' = b := by
  cases free with
  | nil =>
    rw [L.allocate_nil] at h
    split_ifs at h
    simp only [Result.error.injEq] at h
    exact ⟨h.1.symm, h.2.symm⟩
  | cons i rest =>
    obtain ⟨next, -, -, -, hr⟩ := L.allocate_cons
    simp [hr] at h

/-! ## The two slots of a leaf -/

section Slots

variable {b₁ b₂ : PagedBookV3} {j : ℕ}

theorem splice_of_returned (h₁ : allocate b = .ok i b₁) (h₂ : allocate b₁ = .error e b₁)
    (h : recycle i b₁ = .ok () b₂) :
    splice tree leaf (pathOf fs) t.handle p rep b = .error e b₂ := by
  have hi : allocateInner i b₁ = .error e b₂ := by
    unfold allocateInner
    rw [h₂]
    exact run_bind_of_ok h
  rw [splice, run_bind_of_ok h₁, run_bind_of_error hi]

theorem splice_of_kept {e' : ProgramError} (h₁ : allocate b = .ok i b₁)
    (h₂ : allocate b₁ = .error e b₁) (h : recycle i b₁ = .error e' b₂) :
    splice tree leaf (pathOf fs) t.handle p rep b = .error e' b₂ := by
  have hi : allocateInner i b₁ = .error e' b₂ := by
    unfold allocateInner
    rw [h₂]
    exact run_bind_of_error h
  rw [splice, run_bind_of_ok h₁, run_bind_of_error hi]

theorem Layout.splice_of_two {free₁ : List ℕ} (L₁ : Layout b₁ forest free₁ [i])
    (hf : Fork LeafNode.key leaf.key (forest tree) fs t p rep)
    (h₁ : PagedBookV3.allocate b = .ok i b₁) (h₂ : PagedBookV3.allocate b₁ = .ok j b₂) :
    ∃ b', PagedBookV3.splice tree leaf (pathOf fs) t.handle p rep b = .ok i b' := by
  obtain ⟨free₂, L₂, -⟩ := L₁.allocate h₂
  obtain ⟨b', -, hr, -⟩ := L₂.run_splice hf h₁ h₂
  exact ⟨b', hr⟩

end Slots

theorem Layout.splice_last (L : Layout b forest [] [])
    (hbu : b.bumpIndex + 1 = bookSlotsPerSide) :
    ∃ e b', PagedBookV3.splice tree leaf (pathOf fs) t.handle p rep b = .error e b' ∧
      b'.bumpIndex = bookSlotsPerSide ∧
      (b.node b.bumpIndex = .uninitialized → e = bundleError) := by
  have h₁ : PagedBookV3.allocate b = .ok b.bumpIndex (bumped b) := by
    rw [L.allocate_nil, if_neg (by omega)]
  obtain ⟨free₁, L₁, -⟩ := L.allocate h₁
  obtain rfl := L₁.freeHead_eq_none_iff.1 (L.freeHead_eq_none_iff.2 rfl)
  have hs : (bumped b).bumpIndex = bookSlotsPerSide := hbu
  have h₂ : PagedBookV3.allocate (bumped b) = .error (.custom .v3BookFull) (bumped b) := by
    rw [L₁.allocate_nil, if_pos hs.ge]
  by_cases hn : b.node b.bumpIndex = .uninitialized
  · have hn' : (bumped b).node b.bumpIndex = .uninitialized := node_bumped.trans hn
    have hk := recycle_unused (L₁.lt_bump (by simp)) (L₁.lt_slots (by simp)) hn'
    exact ⟨_, _, splice_of_kept h₁ h₂ hk, hs, fun _ => rfl⟩
  · have hn' : (bumped b).node b.bumpIndex ≠ .uninitialized := node_bumped.trans_ne hn
    have hb := (L₁.recycle hn').1
    exact ⟨_, _, splice_of_returned h₁ h₂ hb, bumpIndex_released.trans hs, fun h => absurd h hn⟩

/-- The only slot of the free list goes back there when the pages have no second one. -/
theorem Layout.splice_one (L : Layout b forest [i] []) (hb : bookSlotsPerSide ≤ b.bumpIndex) :
    PagedBookV3.splice tree leaf (pathOf fs) t.handle p rep b = .error (.custom .v3BookFull) b := by
  obtain ⟨next, hnext, hr, hh, h₁⟩ := L.allocate_cons
  cases hr
  obtain ⟨free₁, L₁, -⟩ := L.allocate h₁
  obtain rfl := L₁.freeHead_eq_none_iff.1 rfl
  have h₂ : PagedBookV3.allocate (popped b NONE) =
      .error (.custom .v3BookFull) (popped b NONE) := by
    rw [L₁.allocate_nil]
    exact if_pos hb
  have hn : (popped b NONE).node i ≠ .uninitialized := by
    rw [node_popped, hnext]
    simp [freeNode]
  have hre := (L₁.recycle hn).1
  rw [released_popped hh L.count hnext] at hre
  exact splice_of_returned h₁ h₂ hre

theorem Layout.splice_cases (L : Layout b forest free [])
    (hfo : Fork LeafNode.key leaf.key (forest tree) fs t p rep)
    (hro : ¬(free = [] ∧ b.bumpIndex + 1 = bookSlotsPerSide)) :
    (∃ i b', PagedBookV3.splice tree leaf (pathOf fs) t.handle p rep b = .ok i b') ∨
    PagedBookV3.splice tree leaf (pathOf fs) t.handle p rep b = .error (.custom .v3BookFull) b := by
  cases free with
  | nil =>
    by_cases hf : bookSlotsPerSide ≤ b.bumpIndex
    · right
      have h₁ : PagedBookV3.allocate b = .error (.custom .v3BookFull) b := by
        rw [L.allocate_nil, if_pos hf]
      rw [PagedBookV3.splice, run_bind_of_error h₁]
    · left
      have h₁ : PagedBookV3.allocate b = .ok b.bumpIndex (bumped b) := by
        rw [L.allocate_nil, if_neg hf]
      obtain ⟨free₁, L₁, -⟩ := L.allocate h₁
      obtain rfl := L₁.freeHead_eq_none_iff.1 (L.freeHead_eq_none_iff.2 rfl)
      have hm : ¬bookSlotsPerSide ≤ (bumped b).bumpIndex := by
        have hne : b.bumpIndex + 1 ≠ bookSlotsPerSide := fun hbu => hro ⟨rfl, hbu⟩
        change ¬bookSlotsPerSide ≤ b.bumpIndex + 1
        omega
      have h₂ : PagedBookV3.allocate (bumped b) = .ok (bumped b).bumpIndex (bumped (bumped b)) := by
        rw [L₁.allocate_nil, if_neg hm]
      exact ⟨_, L₁.splice_of_two hfo h₁ h₂⟩
  | cons i rest =>
    obtain ⟨next, -, hr, -, h₁⟩ := L.allocate_cons
    obtain ⟨free₁, L₁, -⟩ := L.allocate h₁
    cases free₁ with
    | nil =>
      obtain rfl : next = NONE := L₁.freeHead_eq_none_iff.2 rfl
      obtain rfl := hr.eq_nil
      by_cases hf : bookSlotsPerSide ≤ (popped b NONE).bumpIndex
      · exact .inr (L.splice_one hf)
      · left
        have h₂ : PagedBookV3.allocate (popped b NONE) =
            .ok (popped b NONE).bumpIndex (bumped (popped b NONE)) := by
          rw [L₁.allocate_nil, if_neg hf]
        exact ⟨_, L₁.splice_of_two hfo h₁ h₂⟩
    | cons j rest₁ =>
      left
      obtain ⟨next₁, -, -, -, h₂⟩ := L₁.allocate_cons
      exact ⟨_, L₁.splice_of_two hfo h₁ h₂⟩

/-! ## What a refusal leaves behind -/

/-- The book is usable, and represents what another one does. -/
structure Preserved (b b' : PagedBookV3) : Prop where
  wellFormed : b'.WellFormed
  leaves : ∀ tree, b'.leaves tree = b.leaves tree
  free : ∀ slots,
    Linked b'.FreeNext NONE b'.freeHead slots ↔ Linked b.FreeNext NONE b.freeHead slots
  freeCount : b'.freeCount = b.freeCount
  bumpIndex : b'.bumpIndex = b.bumpIndex

theorem Preserved.refl (hb : b.WellFormed) : Preserved b b :=
  ⟨hb, fun _ => rfl, fun _ => .rfl, rfl, rfl⟩

/-- The insertion of a new key needs two slots, and the last of the pages is the only one left. -/
def LastSlot (b : PagedBookV3) (tree : TreeKind) (leaf : LeafNode) : Prop :=
  b.root tree ≠ NONE ∧ b.freeHead = NONE ∧ b.bumpIndex + 1 = bookSlotsPerSide ∧
    ∀ x ∈ b.leaves tree, x.2.key ≠ leaf.key

theorem Layout.insert_last (L : Layout b forest free []) (h : b.LastSlot tree leaf) :
    ∃ e b', PagedBookV3.insert tree leaf b = .error e b' ∧ b'.bumpIndex = bookSlotsPerSide ∧
      (b.node b.bumpIndex = .uninitialized → e = bundleError) := by
  obtain ⟨hr, hh, hb, hn⟩ := h
  obtain rfl := L.freeHead_eq_none_iff.1 hh
  rcases L.insert_of_root leaf hr with ⟨-, x, hx, hk⟩ | ⟨-, fs, t, p, rep, -, hrun⟩
  · exact absurd hk (hn x (L.leaves_eq ▸ hx))
  · rw [hrun]
    exact L.splice_last hb

theorem Layout.insert_error (L : Layout b forest free []) (hl : ¬b.LastSlot tree leaf)
    (h : PagedBookV3.insert tree leaf b = .error e b') :
    b' = b ∧ ((∀ x ∈ b.leaves tree, x.2.key ≠ leaf.key) → e = .custom .v3BookFull) := by
  by_cases hro : b.root tree = NONE
  · rw [PagedBookV3.insert, run_get_bind, if_pos hro] at h
    cases ha : PagedBookV3.allocate b with
    | error e₁ b₁ =>
      obtain ⟨rfl, rfl⟩ := L.allocate_error ha
      simp only [run_bind_of_error ha, Result.error.injEq] at h
      exact ⟨h.2.symm, fun _ => h.1.symm⟩
    | ok i b₁ =>
      obtain ⟨free₁, L₁, -⟩ := L.allocate ha
      obtain ⟨b'', hr, -⟩ := L₁.run_plant leaf (L.root_eq_none_iff.1 hro)
      rw [run_bind_of_ok ha, hr] at h
      simp at h
  · rcases L.insert_of_root leaf hro with
      ⟨hr, x, hx, hk⟩ | ⟨hn, fs, t, p, rep, hf, hr⟩
    · simp only [hr, Result.error.injEq] at h
      exact ⟨h.2.symm, fun hall => absurd hk (hall x (L.leaves_eq ▸ hx))⟩
    · have hroom : ¬(free = [] ∧ b.bumpIndex + 1 = bookSlotsPerSide) := by
        rintro ⟨hfr, hb⟩
        exact hl ⟨hro, L.freeHead_eq_none_iff.2 hfr, hb, L.leaves_eq ▸ hn⟩
      rw [hr] at h
      rcases L.splice_cases hf hroom with ⟨i, b'', hok⟩ | hfu
      · simp [hok] at h
      · simp only [hfu, Result.error.injEq] at h
        exact ⟨h.2.symm, fun _ => h.1.symm⟩

/-! ## A book with one slot left -/

def numberedLeaf (k : ℕ) : LeafNode := sampleLeaf (Fin.ofNat _ k) 1

/-- Insert orders with the keys below a bound, in ascending order. -/
def insertKeys (n : ℕ) : BookM Unit :=
  (range n).forM fun k => do
    let _ ← insert .fixed (numberedLeaf k)

def fixedOnly (t : BookTree) : Forest := update (fun _ => none) .fixed (some t)

/-- A tree of keys below a bound that takes up all slots up to the bump cursor. -/
structure Filled (n : ℕ) (b : PagedBookV3) : Prop where
  layout : ∃ t, Layout b (fixedOnly t) [] [] ∧ ∀ x ∈ t.leaves, x.2.key.val < n
  bump : b.bumpIndex + 1 = 2 * n
  unused : ∀ k, b.bumpIndex ≤ k → b.node k = .uninitialized

variable {n : ℕ}

theorem node_fresh (k : ℕ) : fresh.node k = .uninitialized := by
  have hp (page : ℕ) : (fresh.pages page).nodes = fun _ => .uninitialized := by
    simp only [fresh, initializeBookPageMetadata, require]
    split
    · by_cases hz : page = 0
      · simp [hz, Except.toOption, zeroPage, bind, Except.bind, pure, Except.pure]
      · simp [hz, Except.toOption, zeroPage, bind, Except.bind, pure, Except.pure]
    · rfl
  rw [node, hp]

theorem filled_one : ∃ i b', insert .fixed (numberedLeaf 0) fresh = .ok i b' ∧ Filled 1 b' := by
  have L := fresh_prepared.layout
  have hr : fresh.root .fixed = NONE := L.root_eq_none_iff.2 rfl
  have h₁ : allocate fresh = .ok 0 (Layout.bumped fresh) := by
    rw [L.allocate_nil]
    rfl
  obtain ⟨free₁, L₁, hn⟩ := L.allocate h₁
  obtain rfl := L₁.freeHead_eq_none_iff.1 (L.freeHead_eq_none_iff.2 rfl)
  obtain ⟨b', hrun, L', hb, hu⟩ := L₁.run_plant (numberedLeaf 0) rfl
  refine ⟨0, b', ?_, ⟨_, L', ?_⟩, ?_, ?_⟩
  · rw [insert, run_get_bind, if_pos hr, run_bind_of_ok h₁]
    exact hrun
  · simp [Tree.leaves, numberedLeaf, sampleLeaf]
  · rw [hb]
    rfl
  · intro k hk
    rw [hu k (hb ▸ hk), hn, node_fresh]

theorem Filled.insert (h : Filled n b) (hn : 1 ≤ n) (hro : n < 512) :
    ∃ i b', PagedBookV3.insert .fixed (numberedLeaf n) b = .ok i b' ∧ Filled (n + 1) b' := by
  obtain ⟨⟨t, L, hke⟩, hb, hu⟩ := h
  have hv : (numberedLeaf n).key.val = n := by
    simp only [numberedLeaf, sampleLeaf, Fin.val_ofNat]
    omega
  have hr : b.root .fixed ≠ NONE := mt L.root_eq_none_iff.1 (by simp [fixedOnly])
  have hsl : bookSlotsPerSide = 1024 := rfl
  have h₁ : allocate b = .ok b.bumpIndex (Layout.bumped b) := by
    rw [L.allocate_nil, if_neg (by omega)]
  obtain ⟨free₁, L₁, hn₁⟩ := L.allocate h₁
  obtain rfl := L₁.freeHead_eq_none_iff.1 (L.freeHead_eq_none_iff.2 rfl)
  have hb₁ : (Layout.bumped b).bumpIndex = b.bumpIndex + 1 := rfl
  have h₂ : allocate (Layout.bumped b) =
      .ok (b.bumpIndex + 1) (Layout.bumped (Layout.bumped b)) := by
    rw [L₁.allocate_nil, if_neg (by omega), hb₁]
  obtain ⟨free₂, L₂, hn₂⟩ := L₁.allocate h₂
  obtain rfl := L₂.freeHead_eq_none_iff.1 (L₁.freeHead_eq_none_iff.2 rfl)
  have hb₂ : (Layout.bumped (Layout.bumped b)).bumpIndex = b.bumpIndex + 2 := rfl
  rcases L.insert_of_root (numberedLeaf n) hr with
    ⟨-, x, hx, hkey⟩ | ⟨-, fs, t', p, rep, hf, hrun⟩
  · have := hke x (by simpa [fixedOnly, treeLeaves] using hx)
    rw [hkey, hv] at this
    omega
  · obtain ⟨b', t'', hs, L', hp, hb', hu'⟩ := L₂.run_splice hf h₁ h₂
    refine ⟨_, b', hrun.trans hs, ⟨t'', ?_, ?_⟩, ?_, ?_⟩
    · simpa [fixedOnly] using L'
    · intro x hx
      rcases mem_cons.1 (hp.mem_iff.1 hx) with rfl | hx
      · simp [hv]
      · have ht : t = plug fs t' := by simpa [fixedOnly] using hf.tree_eq
        have := hke x (ht ▸ hx)
        omega
    · omega
    · intro k hk
      rw [hu' k (by omega), hn₂, hn₁, hu k (by omega)]

theorem run_insertKeys (hn : 1 ≤ n) (hle : n ≤ 512) :
    ∃ b, insertKeys n fresh = .ok () b ∧ Filled n b := by
  induction n, hn using Nat.le_induction with
  | base =>
    obtain ⟨i, b, hr, hf⟩ := filled_one
    exact ⟨b, run_forM_cons.2 ⟨b, run_bind_of_ok hr, rfl⟩, hf⟩
  | succ n hn ih =>
    obtain ⟨b, hr, hf⟩ := ih (by omega)
    obtain ⟨i, b', hi, hf'⟩ := hf.insert hn (by omega)
    refine ⟨b', ?_, hf'⟩
    rw [insertKeys, range_succ]
    exact run_forM_append.2 ⟨b, hr, run_forM_cons.2 ⟨b', run_bind_of_ok hi, rfl⟩⟩

/-! ## The law of refused insertions -/

/-- A refused insertion leaves the book as it was and names a full book, except at the last slot. -/
theorem insert_refused_iff (hb : b.WellFormed) :
    (∀ e b', insert tree leaf b = .error e b' → Preserved b b' ∧
      ((∀ x ∈ b.leaves tree, x.2.key ≠ leaf.key) → e = .custom .v3BookFull)) ↔
    ¬b.LastSlot tree leaf := by
  obtain ⟨forest, free, L⟩ := hb
  constructor
  · intro h hl
    obtain ⟨e, b', hr, hb', -⟩ := L.insert_last hl
    have hbu := (h e b' hr).1.bumpIndex
    have hlt := hl.2.2.1
    omega
  · intro hl e b' h
    obtain ⟨rfl, he⟩ := L.insert_error hl h
    exact ⟨.refl ⟨forest, free, L⟩, he⟩

/-- 512 orders, and an order of the other tree that takes the last slot and is removed again. -/
def freedSlot : BookM Unit := do
  insertKeys 512
  let _ ← insert .oraclePegged (numberedLeaf 0)
  let _ ← remove .oraclePegged (numberedLeaf 0).key

theorem run_freedSlot : ∃ b t i, freedSlot fresh = .ok () b ∧ Layout b (fixedOnly t) [i] [] ∧
    b.bumpIndex = bookSlotsPerSide ∧ ∀ x ∈ t.leaves, x.2.key.val < 512 := by
  obtain ⟨b, hr, ⟨t, L, hk⟩, hb, -⟩ := run_insertKeys (n := 512) (by decide) le_rfl
  have hn : fixedOnly t .oraclePegged = none := rfl
  have hsl : bookSlotsPerSide = 1024 := rfl
  have h₁ : allocate b = .ok b.bumpIndex (Layout.bumped b) := by
    rw [L.allocate_nil, if_neg (by omega)]
  obtain ⟨free₁, L₁, -⟩ := L.allocate h₁
  obtain rfl := L₁.freeHead_eq_none_iff.1 (L.freeHead_eq_none_iff.2 rfl)
  obtain ⟨b₁, hp, L₂, hb₁, -⟩ := L₁.run_plant (numberedLeaf 0) hn
  have hx : (b.bumpIndex, numberedLeaf 0) ∈ treeLeaves (update (fixedOnly t)
      .oraclePegged (some (.leaf b.bumpIndex (numberedLeaf 0))) .oraclePegged) := by
    simp [treeLeaves, Tree.leaves]
  obtain ⟨b₂, o, free, hre, L₃, hl, hb₂⟩ := L₂.remove hx
  -- The tree is empty again, so that of all slots only one is not in the other tree.
  obtain rfl : o = none := by
    cases o with
    | none => rfl
    | some t' =>
      have hlen := hl.length_eq
      have hpos := t'.leaves_ne_nil
      simp_all [treeLeaves, Tree.leaves]
  have hf : update (update (fixedOnly t) .oraclePegged
      (some (.leaf b.bumpIndex (numberedLeaf 0)))) .oraclePegged none = fixedOnly t := by
    rw [update_idem, ← hn, update_eq_self]
  rw [hf] at L₃
  have hbump : b₂.bumpIndex = b.bumpIndex + 1 := hb₂.trans hb₁
  have hlen : free.length = 1 := by
    have hle := L.perm.length_eq
    have hle₃ := L₃.perm.length_eq
    simp only [length_append, length_range, length_nil] at hle hle₃
    omega
  obtain ⟨i, rfl⟩ := length_eq_one_iff.1 hlen
  have hi : insert .oraclePegged (numberedLeaf 0) b = .ok b.bumpIndex b₁ := by
    rw [insert, run_get_bind, if_pos (L.root_eq_none_iff.2 hn), run_bind_of_ok h₁]
    exact hp
  refine ⟨b₂, t, i, ?_, L₃, by omega, hk⟩
  rw [freedSlot, run_bind_of_ok hr, run_bind_of_ok hi]
  exact run_bind_of_ok hre

/-- The next order takes the slot from the free list, finds no second one and gives it back. -/
theorem insert_refused_of_freedSlot : ∃ b b', freedSlot fresh = .ok () b ∧
    b.bumpIndex = bookSlotsPerSide ∧ b.freeCount = 1 ∧
    insert .fixed (numberedLeaf 512) b = .error (.custom .v3BookFull) b' ∧ Preserved b b' := by
  obtain ⟨b, t, i, hr, L, hb, hk⟩ := run_freedSlot
  have hro : b.root .fixed ≠ NONE := mt L.root_eq_none_iff.1 (by simp [fixedOnly])
  have hf : insert .fixed (numberedLeaf 512) b = .error (.custom .v3BookFull) b := by
    rcases L.insert_of_root (numberedLeaf 512) hro with
      ⟨-, x, hx, hkey⟩ | ⟨-, fs, t', p, rep, -, hrun⟩
    · have hlt := hk x hx
      rw [hkey] at hlt
      exact absurd hlt (by decide)
    · rw [hrun, L.splice_one hb.ge]
  have hl : ¬b.LastSlot .fixed (numberedLeaf 512) := fun hl => by
    have hlast := hl.2.2.1
    omega
  exact ⟨b, b, hr, hb, L.count, hf, ((insert_refused_iff ⟨_, _, L⟩).2 hl _ _ hf).1⟩

/-- After 512 orders one slot is left. The next order loses it, with the error of a bad record. -/
theorem insert_loses_last_slot : ∃ b b', insertKeys 512 fresh = .ok () b ∧ b.WellFormed ∧
    (∀ x ∈ b.leaves .fixed, x.2.key ≠ (numberedLeaf 512).key) ∧
    insert .fixed (numberedLeaf 512) b = .error bundleError b' ∧
    b.bumpIndex = 1023 ∧ b'.bumpIndex = 1024 := by
  obtain ⟨b, hr, ⟨t, L, hk⟩, hb, hu⟩ := run_insertKeys (n := 512) (by decide) le_rfl
  have hn : ∀ x ∈ b.leaves .fixed, x.2.key ≠ (numberedLeaf 512).key := by
    intro x hx heq
    have := hk x (by simpa [L.leaves_eq, fixedOnly, treeLeaves] using hx)
    rw [heq] at this
    exact absurd this (by decide)
  have hl : b.LastSlot .fixed (numberedLeaf 512) := by
    refine ⟨mt L.root_eq_none_iff.1 (by simp [fixedOnly]), L.freeHead_eq_none_iff.2 rfl, ?_, hn⟩
    unfold bookSlotsPerSide
    omega
  obtain ⟨e, b', hi, hb', he⟩ := L.insert_last hl
  obtain rfl := he (hu _ le_rfl)
  exact ⟨b, b', hr, ⟨_, _, L⟩, hn, hi, by omega, hb'⟩

end PagedBookV3

end Equinox
