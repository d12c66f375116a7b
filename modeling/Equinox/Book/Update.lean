import Equinox.Book.Search

/-! # Insertion and removal

What the insertion and the removal of a book do to its layout: one tree gains or
loses exactly one leaf, and the slots move between the trees and the free list.
-/

namespace Equinox

open Foundation CritBit Function List Tree LeafNode

namespace PagedBookV3

variable {b b' : PagedBookV3} {forest : Forest} {free : List ℕ} {tree : TreeKind} {t : BookTree}
  {fs : List BookFrame} {i : ℕ} {leaf : LeafNode}

theorem mem_treeHandles_of_context {f : BookFrame} (hF : forest tree = some (plug fs t))
    (hf : f ∈ fs) : f.handle ∈ treeHandles (forest tree) := by
  rw [hF]
  exact handles_plug.mem_iff.2 (mem_append_right _ (Frame.handle_mem hf))

theorem Stores.holds_of_plug (h : b.Stores t) (hp : t = plug fs (.leaf i leaf)) :
    b.Holds i (.leaf leaf) := by
  subst hp
  exact (contextStored_of_stored h).1

variable {j : ℕ}

theorem run_allocateInner : allocateInner i b = .ok j b' ↔ allocate b = .ok j b' := by
  unfold allocateInner
  cases allocate b <;> simp

/-- Two loose slots take a new leaf and the inner node above it and a stored subtree. -/
theorem Layout.run_graft (L : Layout b forest free [j, i])
    (hF : forest tree = some (plug fs t)) (leaf : LeafNode) (p : ℕ) (rep : Key) : ∃ b', (do
        putLeaf i leaf
        putInner j (makeInner p rep t.handle i (bit leaf.key p))
        refreshInner j : BookM Unit) b = .ok () b' ∧
      Layout b' forest free [j, i] ∧ AgreeOff [j, i] b b' ∧
      b'.Stores ((Frame.mk j p rep (bit leaf.key p) t).fill (.leaf i leaf)) := by
  have hi : i < bookSlotsPerSide := L.lt_slots (by simp)
  have hj : j < bookSlotsPerSide := L.lt_slots (by simp)
  have hnd := L.nodup_loose tree
  rw [hF, treeHandles, Option.elim, (handles_plug.append_right _).nodup_iff] at hnd
  have hji : j ≠ i := by
    have := (nodup_append.1 hnd).2.1
    simp_all
  have hjt : j ∉ t.handles := fun h =>
    disjoint_of_nodup_append hnd (mem_append_left _ h) (by simp)
  have L₁ := L.off_loose (agreeOff_write b i (.leaf leaf)) (by simp)
  have L₂ := L₁.off_loose (agreeOff_write _ j
    (.inner (makeInner p rep t.handle i (bit leaf.key p)))) (by simp)
  have hl : (b.write i (.leaf leaf)).Stores (.leaf i leaf) := holds_write hi (.leaf leaf)
  have hl' := hl.off (agreeOff_write _ j
    (.inner (makeInner p rep t.handle i (bit leaf.key p)))) (by simp [handles, hji.symm])
  obtain ⟨hsub, -⟩ := contextStored_of_stored (L₂.stores tree _ hF)
  obtain ⟨b', hr, hst, ho⟩ := run_refreshInner_frame
    (f := ⟨j, p, rep, bit leaf.key p, t⟩)
    (holds_write hj (.inner p rep (sided (bit leaf.key p) i t.handle) fun _ => 2 ^ 64 - 1))
    hl' hsub (by simpa [handles] using hji) hjt
  refine ⟨b', ?_, L₂.off_loose ho (by simp), ?_, hst⟩
  · exact run_bind_eq_ok.2 ⟨(), _, run_putNodeBytes.2 ⟨hi, rfl⟩, run_bind_eq_ok.2 ⟨(), _,
      run_putNodeBytes.2 ⟨hj, rfl⟩, hr⟩⟩
  · exact (((agreeOff_write b i (.leaf leaf)).mono (by simp)).trans
      ((agreeOff_write _ j _).mono (by simp))).trans (ho.mono (by simp))

variable {p : ℕ} {rep : Key}

/-- With two slots at hand, a new leaf is hung at its fork. -/
theorem Layout.run_splice {b₁ b₂ : PagedBookV3}
    (L : Layout b₂ forest free [j, i]) (hf : Fork LeafNode.key leaf.key (forest tree) fs t p rep)
    (h₁ : PagedBookV3.allocate b = .ok i b₁) (h₂ : PagedBookV3.allocate b₁ = .ok j b₂) :
    ∃ b' t', PagedBookV3.splice tree leaf (pathOf fs) t.handle p rep b = .ok i b' ∧
      Layout b' (update forest tree (some t')) free [] ∧
      t'.leaves.Perm ((i, leaf) :: (plug fs t).leaves) ∧ b'.bumpIndex = b₂.bumpIndex ∧
      ∀ k, b₂.bumpIndex ≤ k → b'.node k = b₂.node k := by
  have hF := hf.tree_eq
  obtain ⟨b₅, hgr, L₅, ho₅, hst⟩ := L.run_graft hF leaf p rep
  let f : BookFrame := ⟨j, p, rep, bit leaf.key p, t⟩
  have hp : (treeHandles (some (plug (f :: fs) (.leaf i leaf))) ++ []).Perm
      (treeHandles (forest tree) ++ [j, i]) := by
    rw [hF, append_nil]
    exact handles_hung
  have hnd : ((f.fill (.leaf i leaf)).handles ++ contextHandles fs).Nodup := by
    rw [← handles_plug.nodup_iff]
    exact (append_nil _ ▸ hp).nodup_iff.2 (L₅.nodup_loose tree)
  obtain ⟨b₆, hre, hst', ho⟩ := run_replaceChild hst (L₅.stores tree _ hF)
    ((L₅.root tree).trans (by rw [hF]; rfl)) hnd
  have hfr : ∀ k ∈ fs.map (·.handle), k ∈ treeHandles (forest tree) := by
    intro k hk
    obtain ⟨g, hg, rfl⟩ := mem_map.1 hk
    exact mem_treeHandles_of_context hF hg
  refine ⟨b₆, plug (f :: fs) (.leaf i leaf), ?_, L₅.replace (o := some _) ho ?_ ?_ hfr hp,
    leaves_plug.trans ((leaves_plug.symm).cons _), ?_, ?_⟩
  · simp only [run_bind_eq_ok] at hgr
    obtain ⟨⟨⟩, b₃, hle, ⟨⟩, b₄, hi, hr⟩ := hgr
    simp only [PagedBookV3.splice, run_bind_eq_ok, run_pure_eq_ok]
    exact ⟨i, b₁, h₁, j, b₂, run_allocateInner.2 h₂, (), b₃, hle, (), b₄, hi, (), b₅,
      hr, (), b₆, hre, rfl, rfl⟩
  · rintro _ ⟨⟩; exact hst'
  · rintro _ ⟨⟩; exact hf.wf_hung (L₅.wf tree _ hF)
  · rw [ho.bumpIndex, bumpIndex_withRoot, ho₅.bumpIndex]
  · intro k hk
    have hout : ∀ l ∈ forestHandles forest ++ (free ++ [j, i]), k ≠ l := by
      rintro l hl rfl
      exact absurd (L.lt_bump hl) (not_lt.2 hk)
    have hk₆ : k ∉ fs.map (·.handle) := fun hm =>
      hout k (mem_append_left _ (mem_forestHandles (hfr k hm))) rfl
    have hk₅ : k ∉ [j, i] := fun hm =>
      hout k (mem_append_right _ (mem_append_right _ hm)) rfl
    rw [ho.node k hk₆, node_withRoot, ho₅.node k hk₅]

theorem Layout.splice (L : Layout b forest free [])
    (hf : Fork LeafNode.key leaf.key (forest tree) fs t p rep)
    (h : PagedBookV3.splice tree leaf (pathOf fs) t.handle p rep b = .ok i b') :
    ∃ t' free', Layout b' (update forest tree (some t')) free' [] ∧
      t'.leaves.Perm ((i, leaf) :: (plug fs t).leaves) := by
  have hp := h
  simp only [PagedBookV3.splice, run_bind_eq_ok] at hp
  obtain ⟨i', b₁, ha, j, b₂, ha', -⟩ := hp
  obtain ⟨free₁, L₁, -⟩ := L.allocate ha
  obtain ⟨free₂, L₂, -⟩ := L₁.allocate (run_allocateInner.1 ha')
  obtain ⟨b'', t', hr, L', hpe, -⟩ := L₂.run_splice hf ha (run_allocateInner.1 ha')
  simp only [h, EStateM.Result.ok.injEq] at hr
  obtain ⟨rfl, rfl⟩ := hr
  exact ⟨t', free₂, L', hpe⟩

theorem Layout.root_eq_none_iff {loose : List ℕ} (L : Layout b forest free loose) :
    b.root tree = NONE ↔ forest tree = none := by
  rw [L.root]
  cases h : forest tree with
  | none => simp [rootHandle]
  | some t => simpa [rootHandle] using (L.stores tree t h).handle_ne_none

theorem Layout.depth_le {loose : List ℕ} (L : Layout b forest free loose)
    (ht : forest tree = some t) : t.depth ≤ 128 := (L.wf tree t ht).depth_le

theorem Layout.insert_of_root (L : Layout b forest free []) (leaf : LeafNode)
    (hr : b.root tree ≠ NONE) :
    (PagedBookV3.insert tree leaf b = .error bundleError b ∧
      ∃ x ∈ treeLeaves (forest tree), x.2.key = leaf.key) ∨
    ((∀ x ∈ treeLeaves (forest tree), x.2.key ≠ leaf.key) ∧ ∃ fs t p rep,
      Fork LeafNode.key leaf.key (forest tree) fs t p rep ∧
      PagedBookV3.insert tree leaf b =
        PagedBookV3.splice tree leaf (pathOf fs) t.handle p rep b) := by
  obtain ⟨t, ht⟩ := Option.ne_none_iff_exists'.1 (mt L.root_eq_none_iff.2 hr)
  rw [PagedBookV3.insert, run_get_bind, if_neg hr, L.root, ht]
  refine Fork.cases_of_walk (fun room path i => PagedBookV3.insertFrom tree leaf room path i b)
    (fun path i p rep => PagedBookV3.splice tree leaf path i p rep b) []
    (fun i old room path h => ?_) (fun i p rep children cache room path h => ?_)
    (L.stores tree t ht) (L.wf tree t ht) rfl (by simp [Admits]) (L.depth_le ht)
  all_goals
    have hn : reading (·.nodeBytes i) b = .ok _ b := run_reading_of_ok h
    rw [PagedBookV3.insertFrom, run_bind_of_ok hn]
    dsimp only [cellNode, lcp_key, bit_key]
    split <;> rfl

theorem Layout.run_plant (L : Layout b forest free [i]) (leaf : LeafNode)
    (hn : forest tree = none) : ∃ b', (do
        putLeaf i leaf
        setRoot tree i
        pure i : BookM ℕ) b = .ok i b' ∧
      Layout b' (update forest tree (some (.leaf i leaf))) free [] ∧
      b'.bumpIndex = b.bumpIndex ∧ ∀ k, b.bumpIndex ≤ k → b'.node k = b.node k := by
  have hi : i < bookSlotsPerSide := L.lt_slots (by simp)
  have hb : i < b.bumpIndex := L.lt_bump (by simp)
  have L' := L.off_loose (agreeOff_write b i (.leaf leaf)) (by simp)
  refine ⟨(b.write i (.leaf leaf)).withRoot tree i, ?_,
    L'.replace (AgreeOff.refl [] _) ?_ ?_ (by simp) ?_, ?_, ?_⟩
  · simp only [run_bind_eq_ok, run_pure_eq_ok]
    exact ⟨(), _, run_putNodeBytes.2 ⟨hi, rfl⟩, (), _, run_setRoot.2 rfl, trivial, rfl⟩
  · rintro _ ⟨⟩
    exact Stores.congr (holds_write hi (.leaf leaf)) fun _ _ => node_withRoot
  · rintro _ ⟨⟩; trivial
  · simp [hn, treeHandles, handles]
  · rw [bumpIndex_withRoot, bumpIndex_write]
  · intro k hk
    rw [node_withRoot, node_write, if_neg (by omega)]

theorem Layout.insert (L : Layout b forest free [])
    (h : PagedBookV3.insert tree leaf b = .ok i b') :
    (∃ t' free', Layout b' (update forest tree (some t')) free' [] ∧
      t'.leaves.Perm ((i, leaf) :: treeLeaves (forest tree))) ∧
    ∀ x ∈ treeLeaves (forest tree), x.2.key ≠ leaf.key := by
  by_cases hro : b.root tree = NONE
  · have hn := L.root_eq_none_iff.1 hro
    rw [PagedBookV3.insert, run_get_bind, if_pos hro] at h
    obtain ⟨i', b₁, ha, h⟩ := run_bind_eq_ok.1 h
    obtain ⟨free₁, L₁, -⟩ := L.allocate ha
    obtain ⟨b'', hr, L', -⟩ := L₁.run_plant leaf hn
    simp only [h, EStateM.Result.ok.injEq] at hr
    obtain ⟨rfl, rfl⟩ := hr
    refine ⟨⟨.leaf i leaf, free₁, L', ?_⟩, by simp [hn, treeLeaves]⟩
    simp [hn, treeLeaves, leaves]
  · rcases L.insert_of_root leaf hro with ⟨he, -⟩ | ⟨hne, fs, t, p, rep, hf, hr⟩
    · simp [he] at h
    · refine ⟨?_, hne⟩
      rw [hr] at h
      rw [hf.tree_eq]
      exact L.splice hf h

/-- Unlinking a leaf removes it and its parent from the tree; the leaf's own slot is left loose. -/
theorem Layout.unlink (L : Layout b forest free [])
    (hF : forest tree = some (plug fs (.leaf i leaf))) :
    ∃ b' o free', PagedBookV3.unlink tree (pathOf fs) b = .ok () b' ∧
      Layout b' (update forest tree o) free' [i] ∧
      (treeLeaves o).Perm (contextLeaves fs) ∧ b'.node i = .leaf leaf ∧
      b'.bumpIndex = b.bumpIndex := by
  have hst := L.stores tree _ hF
  have hl := hst.holds_of_plug rfl
  cases fs with
  | nil =>
    refine ⟨_, none, free, run_setRoot.2 rfl, ?_, .refl _, ?_, bumpIndex_withRoot⟩
    · refine L.replace (o := none) (AgreeOff.refl [] _) (by simp) (by simp) (by simp) ?_
      simp [hF, treeHandles, plug, handles]
    · rw [node_withRoot]; exact hl.node_eq
  | cons f fs =>
    obtain ⟨⟨cache, hc⟩, hs, -⟩ := (contextStored_of_stored hst).2
    have hp : (i :: f.handle :: (f.sibling.handles ++ contextHandles fs)).Perm
        (treeHandles (forest tree)) := by
      rw [hF]
      exact (show (plug (f :: fs) (.leaf i leaf)).handles.Perm
        (i :: f.handle :: (f.sibling.handles ++ contextHandles fs)) from handles_plug).symm
    have hnd : (i :: f.handle :: (f.sibling.handles ++ contextHandles fs)).Nodup :=
      hp.nodup_iff.2 (append_nil (treeHandles (forest tree)) ▸ L.nodup_loose tree)
    have hnd' := hnd
    simp only [nodup_cons, mem_cons, mem_append, not_or] at hnd'
    obtain ⟨⟨hif, -, hic⟩, ⟨-, hfc⟩, hsib⟩ := hnd'
    have hnot {k : ℕ} (hk : k ∉ contextHandles fs) : k ∉ fs.map (·.handle) := by
      intro hm
      obtain ⟨g, hg, rfl⟩ := mem_map.1 hm
      exact hk (Frame.handle_mem hg)
    obtain ⟨b₁, hrun, hst₁, ho⟩ := run_replaceChild (t := f.sibling) hs
      (show b.Stores (plug fs (f.fill (.leaf i leaf))) from hst)
      ((L.root tree).trans (by rw [hF]; rfl)) hsib
    have L₁ : Layout b₁ (update forest tree (some (plug fs f.sibling))) free [f.handle, i] := by
      refine L.replace (o := some _) ho ?_ ?_ ?_ ?_
      · rintro _ ⟨⟩; exact hst₁
      · rintro _ ⟨⟩
        obtain ⟨-, -, -, hws, -, hat, hwc⟩ := wf_plug_iff.1 (L.wf tree _ hF)
        exact wf_plug_iff.2 ⟨hws, hat, hwc⟩
      · intro k hk
        obtain ⟨g, hg, rfl⟩ := mem_map.1 hk
        exact mem_treeHandles_of_context hF (mem_cons_of_mem _ hg)
      · rw [append_nil]
        refine Perm.trans ?_ hp
        refine (handles_plug.append_right _).trans ?_
        exact perm_append_comm.trans (Perm.swap i f.handle _)
    have hn {k : ℕ} (hk : k ∉ contextHandles fs) : b₁.node k = b.node k := by
      rw [ho.node k (hnot hk), node_withRoot]
    obtain ⟨hr, L₂⟩ := L₁.recycle (by rw [hn hfc, hc.node_eq]; simp [cellNode])
    refine ⟨_, _, _, run_bind_eq_ok.2 ⟨_, b, by simpa using inner_eq_ok hc,
      run_bind_eq_ok.2 ⟨(), b₁, ?_, hr⟩⟩, L₂, leaves_plug, ?_, ?_⟩
    · dsimp only
      rw [sided_not]
      exact hrun
    · rw [Layout.node_released, if_neg hif, hn hic]
      exact hl.node_eq
    · rw [Layout.bumpIndex_released, ho.bumpIndex, bumpIndex_withRoot]

/-- Removing the key of a leaf succeeds and takes exactly that leaf out of its tree. -/
theorem Layout.remove (L : Layout b forest free []) {x : ℕ × LeafNode}
    (hx : x ∈ treeLeaves (forest tree)) :
    ∃ b' o free', PagedBookV3.remove tree x.2.key b = .ok x.2 b' ∧
      Layout b' (update forest tree o) free' [] ∧
      (treeLeaves (forest tree)).Perm (x :: treeLeaves o) ∧ b'.bumpIndex = b.bumpIndex := by
  obtain ⟨t, ht⟩ : ∃ t, forest tree = some t := by
    cases h : forest tree with
    | none => simp [h, treeLeaves] at hx
    | some t => exact ⟨t, rfl⟩
  rw [ht] at hx
  have hst := L.stores tree t ht
  have hd := ((L.wf tree t ht).descend_eq_some_iff).2 ⟨hx, rfl⟩
  rcases hst.removePath (L.depth_le ht) x.2.key [] with
    ⟨-, hno⟩ | ⟨fs, j, leaf, hpa, hp, hd'⟩
  · simp [hno] at hd
  · simp only [hd', Option.ite_none_right_eq_some, Option.some.injEq] at hd
    obtain ⟨-, rfl⟩ := hd
    have hF : forest tree = some (plug fs (.leaf j leaf)) := by rw [ht, hp]
    obtain ⟨b₁, o, free₁, hun, L₁, hl, hn, hb⟩ := L.unlink hF
    obtain ⟨hr, L₂⟩ := L₁.recycle (by simp [hn])
    refine ⟨_, o, _, ?_, L₂, ?_, by rw [Layout.bumpIndex_released, hb]⟩
    · have hro : b.root tree ≠ NONE := mt L.root_eq_none_iff.1 (by simp [ht])
      refine run_bind_eq_ok.2 ⟨b, b, by simp, ?_⟩
      rw [if_neg hro]
      refine run_bind_eq_ok.2 ⟨(pathOf fs, j), b, ?_, run_bind_eq_ok.2 ⟨leaf, b, ?_, ?_⟩⟩
      · simpa [L.root, ht, rootHandle] using hpa
      · simpa [leaf_eq_ok] using hst.holds_of_plug hp
      · rw [if_neg (by simp)]
        exact run_bind_eq_ok.2 ⟨(), b₁, hun, run_bind_eq_ok.2 ⟨(), _, hr, by simp⟩⟩
    · rw [hF]
      exact leaves_plug.trans (hl.symm.cons _)

theorem Layout.mem_of_remove (L : Layout b forest free []) {key : Key}
    (h : PagedBookV3.remove tree key b = .ok leaf b') :
    leaf.key = key ∧ ∃ j, (j, leaf) ∈ treeLeaves (forest tree) := by
  simp only [PagedBookV3.remove, run_bind_eq_ok, run_get_eq_ok] at h
  obtain ⟨_, _, ⟨rfl, rfl⟩, h⟩ := h
  by_cases hr : b.root tree = NONE
  · simp [hr] at h
  · obtain ⟨t, ht⟩ := Option.ne_none_iff_exists'.1 (mt L.root_eq_none_iff.2 hr)
    simp only [hr, if_false, run_bind_eq_ok, run_reading_eq_ok] at h
    obtain ⟨⟨path, j⟩, _, ⟨hp, rfl⟩, leaf', _, ⟨hl, rfl⟩, h⟩ := h
    have hst := L.stores tree t ht
    rw [L.root, ht, rootHandle, Option.elim] at hp
    rcases hst.removePath (L.depth_le ht) key [] with
      ⟨he, -⟩ | ⟨fs, k, leaf'', hok, hpl, -⟩
    · simp [he] at hp
    · simp only [hok, Except.ok.injEq, Prod.mk.injEq] at hp
      obtain ⟨-, rfl⟩ := hp
      obtain rfl : leaf'' = leaf' := by
        simpa [leaf_eq_ok.2 (hst.holds_of_plug hpl)] using hl
      by_cases hk : leaf''.key = key
      · simp only [hk, ne_eq, not_true_eq_false, if_false, run_bind_eq_ok, run_pure_eq_ok] at h
        obtain ⟨-, -, -, -, -, -, rfl, -⟩ := h
        refine ⟨hk, k, ?_⟩
        rw [ht, hpl]
        exact leaves_plug.mem_iff.2 (mem_append_left _ (by simp [leaves]))
      · simp [hk] at h

end PagedBookV3

end Equinox
