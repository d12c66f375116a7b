import Equinox.Book.Refinement

/-! # Slots never handed out

The allocator's bump cursor bounds the slots that ever held a record. Pages are
blank when the program opens them, and every write goes to a slot that was just
handed out or to one that was read as a record.
-/

namespace Equinox

open Foundation CritBit List

/-- How many records fit on the pages of a side. Handles stop short of the last few. -/
def bookRecordsPerSide : ℕ := bookPagesPerSide * bookNodesPerPage

namespace PagedBookV3

/-- The pages as the program opens them: accounts that the runtime has just allocated and filled
with zeros, with their metadata initialized. -/
def Opened (b : PagedBookV3) : Prop :=
  ∀ page < bookPagesPerSide, ∃ data : BookPage, data.nodes = (fun _ => .uninitialized) ∧
    initializeBookPageMetadata data page = .ok (b.pages page)

/-- The first `n` slots have been handed out, and a slot that has not been holds no record. -/
structure Blank (n : ℕ) (b : PagedBookV3) : Prop where
  le_bump : n ≤ b.bumpIndex
  node_eq : ∀ i < bookRecordsPerSide, b.bumpIndex ≤ i → b.node i = .uninitialized

variable {b b' : PagedBookV3} {tree : TreeKind} {leaf : LeafNode} {key : Key} {i n : ℕ}
  {node : Node} {u : Unit}

theorem Opened.prepared (h : b.Opened) : b.Prepared := fun page hp =>
  let ⟨data, _, hd⟩ := h page hp
  ⟨data, hd⟩

theorem Opened.blank (h : b.Opened) : b.Blank 0 where
  le_bump := Nat.zero_le _
  node_eq i hi _ := by
    have hp : i / bookNodesPerPage < bookPagesPerSide :=
      Nat.div_lt_of_lt_mul (by rwa [Nat.mul_comm])
    obtain ⟨data, hn, hd⟩ := h _ hp
    simp only [initializeBookPageMetadata, bind_eq_ok, pure_eq_ok] at hd
    obtain ⟨-, -, hd⟩ := hd
    rw [node, ← hd]
    split <;> simp [hn]

theorem opened_fresh : fresh.Opened := by
  intro page hp
  refine ⟨zeroPage, rfl, ?_⟩
  simp [fresh, initializeBookPageMetadata, require, hp]
  rfl

namespace Blank

theorem mono {m : ℕ} (h : b.Blank n) (hm : m ≤ n) : b.Blank m := ⟨hm.trans h.le_bump, h.node_eq⟩

theorem lt_bump (h : b.Blank n) (hi : i < bookSlotsPerSide) (hn : b.node i ≠ .uninitialized) :
    i < b.bumpIndex := by
  by_contra hle
  exact hn (h.node_eq i (hi.trans (by decide)) (not_lt.1 hle))

theorem lt_bump_of_inner {inner : InnerNode} (h : b.Blank n) (hi : b.inner i = .ok inner) :
    i < b.bumpIndex := by
  simp only [PagedBookV3.inner, bind_eq_ok, nodeBytes_eq_ok] at hi
  obtain ⟨node, ⟨hlt, rfl⟩, hn⟩ := hi
  refine h.lt_bump hlt fun hb => ?_
  simp [hb] at hn

theorem lt_bump_of_leaf (h : b.Blank n) (hi : b.leaf i = .ok leaf) : i < b.bumpIndex := by
  have hh := leaf_eq_ok.1 hi
  refine h.lt_bump hh.lt ?_
  simp [hh.node_eq, cellNode]

/-! ## Header writes and record writes -/

theorem of_header (h : b.Blank n) (hb : b'.bumpIndex = b.bumpIndex)
    (hn : ∀ i, b'.node i = b.node i) : b'.Blank n where
  le_bump := hb ▸ h.le_bump
  node_eq i hi hle := by rw [hn, h.node_eq i hi (hb ▸ hle)]

variable {value : ℕ}

theorem setRoot (h : b.Blank n) (hr : PagedBookV3.setRoot tree value b = .ok u b') :
    b'.Blank n := by
  rw [← run_setRoot.1 hr]
  exact h.of_header bumpIndex_withRoot fun _ => node_withRoot

theorem setFreeHead (h : b.Blank n)
    (hr : PagedBookV3.setFreeHead value b = .ok u b') : b'.Blank n := by
  rw [← run_modify_eq_ok.1 hr]
  exact h.of_header rfl fun _ => node_modifyPage fun _ => rfl

theorem setFreeCount (h : b.Blank n)
    (hr : PagedBookV3.setFreeCount value b = .ok u b') : b'.Blank n := by
  rw [← run_modify_eq_ok.1 hr]
  exact h.of_header rfl fun _ => node_modifyPage fun _ => rfl

theorem putNodeBytes (h : b.Blank n) (hi : i < b.bumpIndex)
    (hr : PagedBookV3.putNodeBytes i node b = .ok u b') : b'.Blank n := by
  obtain ⟨-, rfl⟩ := run_putNodeBytes.1 hr
  refine ⟨by simpa using h.le_bump, fun j hj hle => ?_⟩
  rw [bumpIndex_write] at hle
  rw [node_write, if_neg (by omega), h.node_eq j hj hle]

theorem refreshInner (h : b.Blank n) (hr : PagedBookV3.refreshInner i b = .ok u b') :
    b'.Blank n := by
  simp only [PagedBookV3.refreshInner, run_bind_eq_ok, run_reading_eq_ok] at hr
  obtain ⟨inner, _, ⟨hi, rfl⟩, left, _, ⟨-, rfl⟩, right, _, ⟨-, rfl⟩, hp⟩ := hr
  exact h.putNodeBytes (h.lt_bump_of_inner hi) hp

variable {path : List (ℕ × Bool)}

theorem replaceChild {replacement : ℕ} (h : b.Blank n)
    (hrun : PagedBookV3.replaceChild tree path replacement b = .ok u b') : b'.Blank n := by
  cases path with
  | nil => exact h.setRoot hrun
  | cons step ancestors =>
    simp only [PagedBookV3.replaceChild, run_bind_eq_ok, run_reading_eq_ok] at hrun
    obtain ⟨inner, _, ⟨hi, rfl⟩, _, b₁, hp, _, b₂, hre, ha⟩ := hrun
    have h₁ := h.putNodeBytes (h.lt_bump_of_inner hi) hp
    exact run_forM_invariant (fun _ _ _ _ hs hr => hs.refreshInner hr) (h₁.refreshInner hre) ha

/-! ## Allocation -/

theorem allocate (h : b.Blank n) (hr : PagedBookV3.allocate b = .ok i b') :
    b'.Blank n ∧ i < b'.bumpIndex := by
  rw [PagedBookV3.allocate, run_get_bind] at hr
  split at hr
  · split at hr
    · exact absurd hr run_throw_ne_ok
    · simp only [run_bind_eq_ok, setBumpIndex, run_modify_eq_ok, run_pure_eq_ok] at hr
      obtain ⟨_, _, rfl, rfl, rfl⟩ := hr
      refine ⟨⟨?_, fun j hj hle => ?_⟩, ?_⟩
      · exact h.le_bump.trans (Nat.le_succ _)
      · exact Layout.node_bumped.trans (h.node_eq j hj ((Nat.le_succ _).trans hle))
      · exact Nat.lt_succ_self _
  · simp only [run_bind_eq_ok, run_reading_eq_ok] at hr
    obtain ⟨next, _, ⟨hn, rfl⟩, hr⟩ := hr
    -- the head of the free list was read as a free record
    have hlt : b.freeHead < b.bumpIndex := by
      simp only [nextFree, bind_eq_ok, nodeBytes_eq_ok] at hn
      obtain ⟨node, ⟨hlt, rfl⟩, hno⟩ := hn
      refine h.lt_bump hlt fun hb => ?_
      simp [hb] at hno
    split at hr
    · exact absurd hr run_throw_ne_ok
    · simp only [run_bind_eq_ok, PagedBookV3.setFreeHead, PagedBookV3.setFreeCount,
        run_modify_eq_ok, run_pure_eq_ok] at hr
      obtain ⟨_, _, rfl, _, _, rfl, rfl, rfl⟩ := hr
      exact ⟨h.of_header rfl fun _ => Layout.node_popped, hlt⟩

theorem recycle (h : b.Blank n) (hr : PagedBookV3.recycle i b = .ok u b') : b'.Blank n := by
  rw [PagedBookV3.recycle, run_get_bind] at hr
  split at hr
  · exact absurd hr run_throw_ne_ok
  · rename_i hle
    obtain ⟨node, _, hn, hr⟩ := run_bind_eq_ok.1 hr
    obtain ⟨-, rfl⟩ := run_reading_eq_ok.1 hn
    split at hr
    · exact absurd hr run_throw_ne_ok
    · obtain ⟨_, b₁, hp, hr⟩ := run_bind_eq_ok.1 hr
      obtain ⟨_, b₂, hh, hc⟩ := run_bind_eq_ok.1 hr
      have h₂ := (h.putNodeBytes (not_le.1 hle) hp).setFreeHead hh
      split at hc
      · exact h₂.setFreeCount hc
      · exact absurd hc run_throw_ne_ok

/-! ## The operations -/

theorem splice {current prefixLen : ℕ} {representative : Key}
    (h : b.Blank 0)
    (hr : PagedBookV3.splice tree leaf path current prefixLen representative b = .ok i b') :
    b'.Blank 0 := by
  simp only [PagedBookV3.splice, run_bind_eq_ok, run_pure_eq_ok] at hr
  obtain ⟨leafHandle, b₁, hl, innerHandle, b₂, hi, _, b₃, hpu, _, b₄, hp, _,
    b₅, hre, _, b₆, hrep, -, rfl⟩ := hr
  obtain ⟨h₁, hlt₁⟩ := h.allocate hl
  have h₁ : b₁.Blank (leafHandle + 1) := ⟨hlt₁, h₁.node_eq⟩
  obtain ⟨h₂, hlt₂⟩ := h₁.allocate (run_allocateInner.1 hi)
  have h₃ : b₃.Blank (innerHandle + 1) := putNodeBytes ⟨hlt₂, h₂.node_eq⟩ h₂.le_bump hpu
  have h₄ := (h₃.putNodeBytes h₃.le_bump hp).refreshInner hre
  exact (h₄.replaceChild hrep).mono (Nat.zero_le _)

theorem insertFrom {room current : ℕ} (h : b.Blank 0)
    (hr : PagedBookV3.insertFrom tree leaf room path current b = .ok i b') : b'.Blank 0 := by
  induction room generalizing path current with
  | zero =>
    unfold PagedBookV3.insertFrom at hr
    obtain ⟨node, _, hn, hr⟩ := run_bind_eq_ok.1 hr
    obtain ⟨-, rfl⟩ := run_reading_eq_ok.1 hn
    split at hr
    · split_ifs at hr
      · exact absurd hr run_throw_ne_ok
      · exact h.splice hr
    · split_ifs at hr
      · exact h.splice hr
      · exact absurd hr run_throw_ne_ok
    · exact absurd hr run_throw_ne_ok
  | succ room ih =>
    unfold PagedBookV3.insertFrom at hr
    obtain ⟨node, _, hn, hr⟩ := run_bind_eq_ok.1 hr
    obtain ⟨-, rfl⟩ := run_reading_eq_ok.1 hn
    split at hr
    · split_ifs at hr
      · exact absurd hr run_throw_ne_ok
      · exact h.splice hr
    · split_ifs at hr
      · exact h.splice hr
      · exact ih hr
    · exact absurd hr run_throw_ne_ok

theorem insert (h : b.Blank 0) (hr : PagedBookV3.insert tree leaf b = .ok i b') : b'.Blank 0 := by
  rw [PagedBookV3.insert, run_get_bind] at hr
  split_ifs at hr with hn
  · simp only [run_bind_eq_ok, run_pure_eq_ok] at hr
    obtain ⟨handle, b₁, ha, _, b₂, hp, _, b₃, hro, -, rfl⟩ := hr
    obtain ⟨h₁, hlt⟩ := h.allocate ha
    exact (h₁.putNodeBytes hlt hp).setRoot hro
  · exact h.insertFrom hr

theorem unlink (h : b.Blank n) (hr : PagedBookV3.unlink tree path b = .ok u b') : b'.Blank n := by
  cases path with
  | nil => exact h.setRoot hr
  | cons step ancestors =>
    simp only [PagedBookV3.unlink, run_bind_eq_ok, run_reading_eq_ok] at hr
    obtain ⟨parent, _, ⟨-, rfl⟩, _, b₁, hrep, hre⟩ := hr
    exact (h.replaceChild hrep).recycle hre

theorem remove (h : b.Blank n) (hr : PagedBookV3.remove tree key b = .ok leaf b') : b'.Blank n := by
  rw [PagedBookV3.remove, run_get_bind] at hr
  split_ifs at hr with hn
  · exact absurd hr run_throw_ne_ok
  simp only [run_bind_eq_ok, run_reading_eq_ok] at hr
  obtain ⟨found, _, ⟨-, rfl⟩, found', _, ⟨-, rfl⟩, hr⟩ := hr
  split_ifs at hr
  · exact absurd hr run_throw_ne_ok
  · simp only [run_bind_eq_ok, run_pure_eq_ok] at hr
    obtain ⟨_, b₁, hu, _, b₂, hre, -, rfl⟩ := hr
    exact (h.unlink hu).recycle hre

theorem removeOwned {owner : ℕ} (h : b.Blank n)
    (hr : PagedBookV3.removeOwned tree key owner b = .ok leaf b') : b'.Blank n := by
  simp only [PagedBookV3.removeOwned, run_bind_eq_ok, run_reading_eq_ok] at hr
  obtain ⟨handle, _, ⟨-, rfl⟩, found, _, ⟨-, rfl⟩, hr⟩ := hr
  split_ifs at hr
  · exact absurd hr run_throw_ne_ok
  · exact h.remove hr

theorem applyFill {fill : V3Fill} (h : b.Blank n)
    (hr : PagedBookV3.applyFill fill b = .ok u b') : b'.Blank n := by
  rw [PagedBookV3.applyFill] at hr
  split_ifs at hr
  · simp only [run_bind_eq_ok, run_pure_eq_ok] at hr
    obtain ⟨_, _, hre, -, rfl⟩ := hr
    exact h.remove hre
  · simp only [run_bind_eq_ok, run_reading_eq_ok] at hr
    obtain ⟨leaf, _, ⟨hl, rfl⟩, hp⟩ := hr
    exact h.putNodeBytes (h.lt_bump_of_leaf hl) hp

theorem applyMatchPlan {plan : V3MatchPlan} (h : b.Blank n)
    (hrun : PagedBookV3.applyMatchPlan plan b = .ok u b') : b'.Blank n := by
  simp only [PagedBookV3.applyMatchPlan, run_bind_eq_ok, run_forM_reading] at hrun
  obtain ⟨_, _, ⟨-, rfl⟩, _, _, ⟨-, rfl⟩, _, b₁, hc, hf⟩ := hrun
  have h₁ : b₁.Blank n := by
    refine run_forM_invariant (fun cancel _ s s' hs hr => ?_) h hc
    simp only [PagedBookV3.applyCancellation, run_bind_eq_ok, run_pure_eq_ok] at hr
    obtain ⟨_, _, hre, -, rfl⟩ := hr
    exact hs.remove hre
  exact run_forM_invariant (fun _ _ _ _ hs hr => hs.applyFill hr) h₁ hf

theorem sweepExpired {now max removed : ℕ} (h : b.Blank n)
    (hr : PagedBookV3.sweepExpired tree now max b = .ok removed b') : b'.Blank n := by
  induction max generalizing b removed with
  | zero =>
    obtain ⟨-, rfl⟩ := run_pure_eq_ok.1 hr
    exact h
  | succ max ih =>
    simp only [PagedBookV3.sweepExpired, run_bind_eq_ok, run_reading_eq_ok] at hr
    obtain ⟨found, _, ⟨-, rfl⟩, hr⟩ := hr
    cases found with
    | none =>
      obtain ⟨-, rfl⟩ := run_pure_eq_ok.1 hr
      exact h
    | some handle =>
      simp only [run_bind_eq_ok, run_reading_eq_ok, run_pure_eq_ok] at hr
      obtain ⟨leaf, _, ⟨-, rfl⟩, _, b₁, hre, _, b₂, hs, -, rfl⟩ := hr
      exact ih (h.remove hre) hs

theorem step {op : BookOp} (h : b.Blank 0) (hr : op.Succeeds b b') : b'.Blank 0 := by
  cases op with
  | insert tree leaf =>
    obtain ⟨i, _, hr, ⟨⟩⟩ := run_bind_eq_ok.1 hr
    exact h.insert hr
  | remove tree key =>
    obtain ⟨leaf, _, hr, ⟨⟩⟩ := run_bind_eq_ok.1 hr
    exact h.remove hr
  | removeOwned tree key owner =>
    obtain ⟨leaf, _, hr, ⟨⟩⟩ := run_bind_eq_ok.1 hr
    exact h.removeOwned hr
  | applyMatchPlan plan => exact h.applyMatchPlan hr
  | sweepExpired tree now max =>
    obtain ⟨removed, _, hr, ⟨⟩⟩ := run_bind_eq_ok.1 hr
    exact h.sweepExpired hr

end Blank

/-! ## Records and leaves -/

/-- The records of the pages that are leaves, by their handles. -/
def leafRecords (b : PagedBookV3) : List (ℕ × LeafNode) :=
  (range bookRecordsPerSide).filterMap fun i =>
    match b.node i with
    | .leaf leaf => some (i, leaf)
    | _ => none

theorem mem_leafRecords :
    (i, leaf) ∈ b.leafRecords ↔ i < bookRecordsPerSide ∧ b.node i = .leaf leaf := by
  rw [leafRecords, mem_filterMap]
  constructor
  · rintro ⟨j, hj, hn⟩
    split at hn
    · simp only [Option.some.injEq, Prod.mk.injEq] at hn
      obtain ⟨rfl, rfl⟩ := hn
      exact ⟨mem_range.1 hj, ‹_›⟩
    · cases hn
  · rintro ⟨hi, hn⟩
    exact ⟨i, mem_range.2 hi, by rw [hn]⟩

def restingLeaves (b : PagedBookV3) : List (TreeKind × ℕ × LeafNode) :=
  (b.leaves .fixed).map (.fixed, ·) ++ (b.leaves .oraclePegged).map (.oraclePegged, ·)

theorem mem_restingLeaves {x : ℕ × LeafNode} : (tree, x) ∈ b.restingLeaves ↔ x ∈ b.leaves tree := by
  cases tree <;> simp [restingLeaves]

theorem WellFormed.nodup_restingLeaves (hb : b.WellFormed) :
    (b.restingLeaves.map Prod.snd).Nodup := by
  have hn (tree : TreeKind) : (b.leaves tree).Nodup :=
    (hb.leaves_sorted tree).imp fun {x y} hlt heq => by simp [heq] at hlt
  simp only [restingLeaves, map_append, map_map, Function.comp_def, map_id']
  refine nodup_append.2 ⟨hn _, hn _, ?_⟩
  rintro ⟨i, leaf⟩ hx _ hy rfl
  cases hb.tree_unique hx hy

theorem WellFormed.perm_leafRecords (hb : b.WellFormed) (hbl : b.Blank 0) :
    (b.restingLeaves.map Prod.snd).Perm b.leafRecords := by
  have hr : b.leafRecords.Nodup := by
    refine Nodup.filterMap (fun i j x hi hj => ?_) nodup_range
    simp only [Option.mem_def] at hi hj
    split at hi <;> cases hi
    split at hj <;> cases hj
    rfl
  refine (perm_ext_iff_of_nodup hb.nodup_restingLeaves hr).2 ?_
  rintro ⟨i, leaf⟩
  rw [mem_leafRecords, mem_map]
  constructor
  · rintro ⟨⟨tree, x⟩, hx, rfl⟩
    have hmem := mem_restingLeaves.1 hx
    have hh := leaf_eq_ok.1 (hb.leaf_eq hmem)
    exact ⟨hh.lt.trans (by decide), hh.node_eq⟩
  · rintro ⟨hi, hn⟩
    have hlt : i < b.bumpIndex := by
      by_contra hle
      have := (hbl.node_eq i hi (not_lt.1 hle)).symm.trans hn
      cases this
    have hl : b.leaf i = .ok leaf := leaf_eq_ok.2 (nodeBytes_eq_ok.2 ⟨hlt.trans_le hb.bump_le, hn⟩)
    obtain ⟨tree, hmem⟩ := hb.mem_leaves_of_leaf hlt hl
    exact ⟨(tree, i, leaf), mem_restingLeaves.2 hmem, rfl⟩

end PagedBookV3

end Equinox
