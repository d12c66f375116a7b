import Equinox.V2.Layouts

/-! # Insertion and removal in an arena

A removal takes exactly one leaf out of its tree. An insertion that is refused
leaves every leaf where it was; when it is refused for want of a second slot, the
first one goes back, either to the free list or below the cursor.
-/

namespace Equinox.V2

open Foundation CritBit Function List Arena
open PagedBookV3 (BookTree BookFrame Forest)

namespace Arena

variable {a a' : Arena} {forest : Forest} {free loose : List ℕ} {tree : TreeKind} {t : BookTree}
  {fs : List BookFrame} {i : ℕ} {leaf : LeafNode} {key : Key}

/-! ## Removal -/

def discounted (a : Arena) (tree : TreeKind) : Arena :=
  { a with leafCounts := update a.leafCounts tree (a.leafCounts tree - 1) }

theorem run_remove {a₁ a₂ : Arena} {path : List (ℕ × Bool)} (hro : a.roots tree ≠ NONE)
    (hp : a.removePath leaf.key 128 [] (a.roots tree) = .ok (path, i))
    (hl : a.leaf i = .ok leaf) (hu : unlink tree path a = .ok () a₁)
    (hr : recycle i a₁ = .ok () a₂) (hc : a.leafCounts tree ≠ 0)
    (hre : refreshPath path.tail (a₂.discounted tree) = .ok () a') :
    remove tree leaf.key a = .ok leaf a' := by
  rw [remove, run_get_bind]
  simp only [run_lift_bind, exists_require, run_reading_bind]
  refine ⟨hro, _, hp, leaf, hl, rfl, run_bind_eq_ok.2 ⟨(), a₁, hu,
    run_bind_eq_ok.2 ⟨(), a₂, hr, ?_⟩⟩⟩
  simp only [run_lift_bind, exists_require, run_modify_bind]
  exact ⟨hc, run_bind_eq_ok.2 ⟨(), a', hre, by simp⟩⟩

theorem nodes_ne_of_slot {c : Cell Key LeafNode ℕ} (h : a.heap.slot i = .cell c) :
    a.nodes i ≠ .uninitialized := by
  intro hn
  have := (slot_eq_unused (lt_of_slot_eq_cell h)).2 hn
  simp [h] at this

/-- The only leaf of a tree. -/
theorem Layout.remove_last (L : Layout a forest free []) (hF : forest tree = some (.leaf i leaf))
    (hc : a.leafCounts tree ≠ 0) :
    ∃ a', Arena.remove tree leaf.key a = .ok leaf a' ∧
      Layout a' (update forest tree none) (i :: free) [] ∧
      a'.bumpIndex = a.bumpIndex ∧ a'.leafCounts = (a.discounted tree).leafCounts := by
  have hst := L.stores tree _ hF
  let a₁ : Arena := { a with roots := update a.roots tree NONE }
  have L₁ : arenaScheme.Layout (a₁.heap.withRoot tree NONE) (update forest tree none) free [i] := by
    have hp := L.prune tree
    rw [hF, append_nil] at hp
    have hh : a₁.heap.withRoot tree NONE = a.heap.withRoot tree NONE := by
      simp [Heap.withRoot, heap, a₁]
    rw [hh]
    exact hp
  obtain ⟨hr, L₂⟩ := Layout.recycle L₁ (nodes_ne_of_slot (a := a) hst)
  refine ⟨(a₁.pushed i).discounted tree, ?_, ?_, rfl, rfl⟩
  · have hpa : a.removePath leaf.key 128 [] (a.roots tree) = .ok ([], i) := by
      rw [show a.roots tree = i from Eq.trans (L.root tree) (by rw [hF]; rfl), removePath,
        tag_leaf hst]
      rfl
    exact run_remove (mt L.root_eq_nil_iff.1 (by simp [hF])) hpa (leaf_eq_ok.2 hst)
      (by simp [unlink, setRoot, a₁]) hr hc rfl
  · rw [← update_idem (a := tree) none]
    exact Scheme.Layout.graft L₂ (by simp) (update_self ..) (by simp) (by simp)

/-- A leaf with a sibling, which takes the place of the node above both. -/
theorem Layout.remove_beside {f : BookFrame} (L : Layout a forest free [])
    (hF : forest tree = some (plug (f :: fs) (.leaf i leaf)))
    (hpa : a.removePath leaf.key 128 [] (a.roots tree) = .ok (pathOf (f :: fs), i))
    (hco : a.leafCounts tree ≠ 0) :
    ∃ a', Arena.remove tree leaf.key a = .ok leaf a' ∧
      Layout a' (update forest tree (some (plug fs f.sibling)))
        (i :: f.handle :: free) [] ∧
      a'.bumpIndex = a.bumpIndex ∧ a'.leafCounts = (a.discounted tree).leafCounts := by
  have hst := L.stores tree _ hF
  obtain ⟨hl, ⟨cache, hc⟩, hs, hctx⟩ := contextStored_of_stored hst
  have hp : (handlesOf (forest tree)).Perm
      (f.handle :: i :: (f.sibling.handles ++ contextHandles fs)) := by
    rw [hF]
    exact (show (plug (f :: fs) (.leaf i leaf)).handles.Perm
      (i :: f.handle :: (f.sibling.handles ++ contextHandles fs)) from handles_plug).trans
      (Perm.swap _ _ _)
  have hnd : (f.handle :: i :: (f.sibling.handles ++ contextHandles fs)).Nodup :=
    hp.nodup_iff.1 (nodup_append.1 (L.nodup tree)).1
  have hr : ∀ j ∈ f.sibling.handles ++ contextHandles fs, j ≠ f.handle ∧ j ≠ i := by
    intro j hj
    simp only [nodup_cons, mem_cons, not_or] at hnd
    constructor
    · rintro rfl; exact hnd.1.2 hj
    · rintro rfl; exact hnd.2.1 hj
  have hfi : f.handle ≠ i := by simp_all
  have hsib : (f.sibling.handles ++ contextHandles fs).Nodup := (nodup_cons.1
    (nodup_cons.1 hnd).2).2
  have hf : ∀ j ∈ fs.map (·.handle), j ∈ f.sibling.handles ++ contextHandles fs := by
    intro j hj
    obtain ⟨g, hg, rfl⟩ := mem_map.1 hj
    exact mem_append_right _ (Frame.handle_mem hg)
  obtain ⟨a₁, hrep, hst₁, hc₁, hro, hmo⟩ := run_replaceChild tree
    (f.fill (.leaf i leaf)) hs hctx (Eq.trans (L.root tree) (by rw [hF]; rfl)) hsib
  have hs₁ {j : ℕ} (hj : j = f.handle ∨ j = i) : a₁.heap.slot j = a.heap.slot j :=
    hmo.heap.slot j fun hm => by
      have := hr j (hf j hm)
      rcases hj with rfl | rfl <;> simp_all
  -- the tree stays taken apart until its path is refreshed
  have hlo : (handlesOf (forest tree) ++ []).Perm
      (f.handle :: i :: (f.sibling.handles ++ contextHandles fs)) := by
    rw [append_nil]
    exact hp
  have L₁ := ((L.prune tree).off_loose hmo.heap fun j hj =>
    hlo.mem_iff.2 (by simp [hf j hj])).perm_loose hlo
  obtain ⟨hr₁, L₂⟩ := Layout.recycle L₁ (nodes_ne_of_slot ((hs₁ (.inl rfl)).trans hc))
  have hlt : f.handle < arenaCapacity := lt_of_slot_eq_cell hc
  have hs₂ {j : ℕ} (hj : j ≠ f.handle) : (a₁.pushed f.handle).heap.slot j = a₁.heap.slot j := by
    rw [heap_pushed hlt]
    exact Heap.slot_write_of_ne hj
  obtain ⟨hr₂, L₃⟩ := Layout.recycle L₂
    (nodes_ne_of_slot (((hs₂ hfi.symm).trans (hs₁ (.inr rfl))).trans hl))
  let a₃ := ((a₁.pushed f.handle).pushed i).discounted tree
  have hs₃ : ∀ j ∈ f.sibling.handles ++ contextHandles fs, a₃.heap.slot j = a₁.heap.slot j := by
    intro j hj
    have hsl : a₃.heap.slot j = (a₁.pushed f.handle).heap.slot j := by
      change ((a₁.pushed f.handle).pushed i).heap.slot j = _
      rw [heap_pushed (lt_of_slot_eq_cell hl)]
      exact Heap.slot_write_of_ne (hr j hj).2
    rw [hsl, hs₂ (hr j hj).1]
  obtain ⟨a', hre, hst', ho⟩ := run_refreshPath (a := a₃)
    (hst₁.congr fun j hj => hs₃ j (mem_append_left _ hj))
    (Scheme.StoresContext.congr hc₁ fun j hj => hs₃ j (mem_append_right _ hj)) hsib
  have hu : unlink tree (pathOf (f :: fs)) a = .ok () (a₁.pushed f.handle) := by
    change (do
      let parent ← reading (·.inner f.handle)
      replaceChild tree (pathOf fs) (parent.children !f.branch)
      Arena.recycle f.handle : ArenaM Unit) a = _
    refine run_reading_bind.2 ⟨_, inner_eq_ok.2 hc, run_bind_eq_ok.2 ⟨(), a₁, ?_, hr₁⟩⟩
    dsimp only
    rw [sided_not]
    exact hrep
  refine ⟨a', run_remove (mt L.root_eq_nil_iff.1 (by simp [hF])) hpa (leaf_eq_ok.2 hl)
    hu hr₂ hco hre, ?_, ?_, ?_⟩
  · rw [← update_idem (a := tree) none]
    have hm' : Moves tree (fs.map (·.handle)) a₃ a' := ho.moves
    have L₄ := L₃.off_loose hm'.heap hf
    refine Scheme.Layout.graft (L₄.perm_loose ?_) (by simp) ?_ ?_ ?_
    · exact handles_plug.symm
    · rw [ho.heap.root]
      exact hro
    · rintro _ ⟨⟩; exact hst'
    · rintro _ ⟨⟩
      obtain ⟨-, -, -, hws, -, hat, hwc⟩ := wf_plug_iff.1 (L.wf tree _ hF)
      exact wf_plug_iff.2 ⟨hws, hat, hwc⟩
  · exact ho.heap.bump.trans hmo.heap.bump
  · rw [ho.leafCounts]
    change update a₁.leafCounts tree (a₁.leafCounts tree - 1) = _
    rw [hmo.leafCounts]
    rfl

/-- Removing the key of a leaf succeeds and takes exactly that leaf out of its tree. -/
theorem Layout.remove (L : Layout a forest free []) {x : ℕ × LeafNode}
    (hx : x ∈ leavesOf (forest tree)) (hco : a.leafCounts tree ≠ 0) :
    ∃ a' o free', Arena.remove tree x.2.key a = .ok x.2 a' ∧
      Layout a' (update forest tree o) free' [] ∧
      (leavesOf (forest tree)).Perm (x :: leavesOf o) ∧
      free'.length = free.length + (if o = none then 1 else 2) ∧ a'.freeHead = x.1 ∧
      a'.bumpIndex = a.bumpIndex ∧ a'.leafCounts = (a.discounted tree).leafCounts := by
  obtain ⟨t, ht⟩ : ∃ t, forest tree = some t := by
    cases h : forest tree with
    | none => simp [h, leavesOf] at hx
    | some t => exact ⟨t, rfl⟩
  have hd : t.descend LeafNode.key x.2.key = some x := by
    rw [ht] at hx
    exact (L.wf tree t ht).descend_eq_some_iff.2 ⟨hx, rfl⟩
  rcases removePath_cases (L.stores tree t ht) (L.depth_le_room ht) x.2.key [] with
    ⟨-, hn⟩ | ⟨fs, j, leaf, hp, hpl, hd'⟩
  · simp [hn] at hd
  · simp only [hd', Option.ite_none_right_eq_some, Option.some.injEq] at hd
    obtain ⟨-, rfl⟩ := hd
    have hF : forest tree = some (plug fs (.leaf j leaf)) := by rw [ht, hpl]
    have hro : a.roots tree = t.handle := Eq.trans (L.root tree) (by rw [ht]; rfl)
    rw [append_nil, ← hro] at hp
    cases fs with
    | nil =>
      obtain ⟨a', hr, L', hb, hc⟩ := L.remove_last hF hco
      refine ⟨a', none, _, hr, L', ?_, by simp, L'.linked.1, hb, hc⟩
      rw [hF]
      exact .refl _
    | cons f fs =>
      obtain ⟨a', hr, L', hb, hc⟩ := L.remove_beside hF hp hco
      refine ⟨a', some _, _, hr, L', ?_, by simp, L'.linked.1, hb, hc⟩
      rw [hF]
      exact leaves_plug.trans (leaves_plug.symm.cons _)

theorem Layout.remove_missing (L : Layout a forest free [])
    (h : ∀ x ∈ leavesOf (forest tree), x.2.key ≠ key) :
    Arena.remove tree key a = .error .missingKey a := by
  rw [Arena.remove, run_get_bind]
  by_cases hr : a.roots tree = NONE
  · exact run_bind_of_error (run_require_of_not (by simp [hr]))
  · rw [run_bind_of_ok (run_require_of hr)]
    obtain ⟨t, ht⟩ := Option.ne_none_iff_exists'.1 (mt L.root_eq_nil_iff.2 hr)
    have htr : a.roots tree = t.handle := Eq.trans (L.root tree) (by rw [ht]; rfl)
    rw [htr]
    rcases removePath_cases (L.stores tree t ht) (L.depth_le_room ht) key [] with
      ⟨hp, -⟩ | ⟨fs, j, leaf, hp, hpl, -⟩
    · exact run_bind_of_error (run_reading_of_error hp)
    · have hre : reading (·.removePath key 128 [] t.handle) a = .ok (pathOf fs ++ [], j) a :=
        run_reading_of_ok hp
      have hmem : (j, leaf) ∈ leavesOf (forest tree) := by
        rw [ht, hpl]
        exact leaves_plug.mem_iff.2 (by simp [Tree.leaves])
      have hl : reading (·.leaf j) a = .ok leaf a := run_reading_of_ok (L.leaf_eq hmem)
      rw [run_bind_of_ok hre]
      dsimp only
      rw [run_bind_of_ok hl]
      exact run_bind_of_error (run_require_of_not (h _ hmem))

/-! ## Slots -/

def available (a : Arena) : ℕ := arenaCapacity - a.bumpIndex + a.freeLen

def required (a : Arena) (tree : TreeKind) : ℕ := if a.roots tree = NONE then 1 else 2

/-- Slots, counts and roots after some slots have been handed out. -/
structure Spent (n : ℕ) (a a' : Arena) : Prop where
  available : a'.available + n = a.available
  freeLen : a'.freeLen ≤ a.freeLen
  leafCounts : a'.leafCounts = a.leafCounts
  roots : a'.roots = a.roots

theorem Layout.exists_allocate (L : Layout a forest free loose) (h : 0 < a.available) :
    ∃ i a' free', allocate a = .ok i a' ∧ Layout a' forest free' (i :: loose) ∧
      Spent 1 a a' ∧ (a.freeLen = 0 → i = a.bumpIndex) := by
  have hlen : a.freeLen = free.length := L.count
  have hb : a.bumpIndex ≤ arenaCapacity := L.bump_le
  cases free with
  | nil =>
    have hlt : a.bumpIndex < arenaCapacity := by
      simp only [available, hlen, length_nil] at h
      omega
    have hr := L.allocate_nil
    rw [if_pos hlt] at hr
    refine ⟨_, _, [], hr, L.grow hlt, ⟨?_, le_rfl, rfl, rfl⟩, fun _ => rfl⟩
    simp only [available]
    omega
  | cons i rest =>
    obtain ⟨next, -, hr, L'⟩ := L.allocate_cons
    rw [length_cons] at hlen
    refine ⟨i, _, rest, hr, L', ⟨?_, Nat.sub_le _ _, rfl, rfl⟩, fun h => by omega⟩
    simp only [available]
    omega

theorem Layout.allocate_full (L : Layout a forest free loose) (h : a.available = 0) :
    allocate a = .error .full a := by
  have hlen : a.freeLen = free.length := L.count
  obtain ⟨hb, hf⟩ : arenaCapacity - a.bumpIndex = 0 ∧ a.freeLen = 0 := Nat.add_eq_zero_iff.1 h
  obtain rfl : free = [] := length_eq_zero_iff.1 (hlen.symm.trans hf)
  rw [L.allocate_nil, if_neg (by omega)]

/-- A new key with room for it. -/
theorem Layout.insert_new (L : Layout a forest free [])
    (hnew : ∀ x ∈ leavesOf (forest tree), x.2.key ≠ leaf.key)
    (hro : a.required tree ≤ a.available) :
    ∃ i a' t' free', insert tree leaf a = .ok i a' ∧
      Layout a' (update forest tree (some t')) free' [] ∧
      t'.leaves.Perm ((i, leaf) :: leavesOf (forest tree)) ∧
      a'.leafCounts = (a.counted tree).leafCounts ∧
      a'.available + a.required tree = a.available ∧ a'.freeLen ≤ a.freeLen ∧
      (a.freeLen = 0 → i = a.bumpIndex) := by
  by_cases hr : a.roots tree = NONE
  · have hn := L.root_eq_nil_iff.1 hr
    rw [required, if_pos hr] at hro ⊢
    obtain ⟨i, a₁, free₁, ha, L₁, hs, ht⟩ := L.exists_allocate hro
    obtain ⟨a', hrun, L', hb, hc⟩ := L₁.run_plant leaf hn
    have hlen : a'.freeLen = a₁.freeLen := L'.count.trans L₁.count.symm
    refine ⟨i, a', _, free₁, ?_, L', ?_, ?_, ?_, hlen.trans_le hs.freeLen, ht⟩
    · rw [insert, run_get_bind, if_pos hr, run_bind_of_ok ha]
      exact hrun
    · simp [hn, leavesOf, Tree.leaves]
    · simp only [hc, counted, hs.leafCounts]
    · rw [← hs.available]
      simp only [available, hlen, hb]
  · rw [required, if_neg hr] at hro ⊢
    rcases L.insert_of_root leaf hr with ⟨-, x, hx, hk⟩ | ⟨-, fs, t, p, rep, hf, hrun⟩
    · exact absurd hk (hnew x hx)
    obtain ⟨i, a₁, free₁, h₁, L₁, hs₁, ht⟩ := L.exists_allocate (by omega)
    have ha₁ := hs₁.available
    obtain ⟨j, a₂, free₂, h₂, L₂, hs₂, -⟩ := L₁.exists_allocate (by omega)
    have ha₂ := hs₂.available
    obtain ⟨a', t', hsp, L', hp, hb, hc⟩ := L₂.run_splice hf h₁ h₂
    have hlen : a'.freeLen = a₂.freeLen := L'.count.trans L₂.count.symm
    refine ⟨i, a', t', free₂, hrun.trans hsp, L', ?_, ?_, ?_,
      hlen.trans_le (hs₂.freeLen.trans hs₁.freeLen), ht⟩
    · rw [hf.tree_eq]
      exact hp
    · simp only [hc, counted, hs₂.leafCounts, hs₁.leafCounts]
    · have : a'.available = a₂.available := by simp only [available, hlen, hb]
      omega

theorem Layout.insert_duplicate (L : Layout a forest free []) {x : ℕ × LeafNode}
    (hx : x ∈ leavesOf (forest tree)) (hk : x.2.key = leaf.key) :
    insert tree leaf a = .error .duplicateKey a := by
  have hr : a.roots tree ≠ NONE := by
    refine mt L.root_eq_nil_iff.1 fun hn => ?_
    simp [hn, leavesOf] at hx
  rcases L.insert_of_root leaf hr with ⟨he, -⟩ | ⟨hne, -⟩
  · exact he
  · exact absurd hk (hne x hx)

/-- A tree with leaves needs two slots, and the only one left is the last of the free list. -/
def LastFreed (a : Arena) (tree : TreeKind) : Prop :=
  a.roots tree ≠ NONE ∧ a.bumpIndex = arenaCapacity ∧ a.freeLen = 1 ∧
    a.freeHead + 1 = arenaCapacity

instance : Decidable (a.LastFreed tree) := inferInstanceAs (Decidable (_ ∧ _))

theorem Layout.run_release (L : Layout a forest [] [i]) (hi : i + 1 ≠ a.bumpIndex) :
    releaseUnwritten i a = .ok () (a.pushed i) ∧ Layout (a.pushed i) forest [i] [] := by
  have hlt : i < a.bumpIndex := L.lt_bump_of_mem (by simp)
  have hlen : a.freeLen = 0 := L.count
  refine ⟨?_, ?_⟩
  · rw [releaseUnwritten, run_get_bind, run_bind_of_ok (run_require_of hlt), if_neg hi]
    exact run_pushFree (by omega)
  · rw [Layout, heap_pushed (L.lt_capacity hlt)]
    exact L.pushed

theorem run_release_top (hi : i + 1 = a.bumpIndex) :
    releaseUnwritten i a = .ok () { a with bumpIndex := a.bumpIndex - 1 } := by
  rw [releaseUnwritten, run_get_bind, run_bind_of_ok (run_require_of (by omega)), if_pos hi]
  rfl

theorem splice_full {a₁ : Arena} {p : ℕ} {rep : Key} (h₁ : allocate a = .ok i a₁)
    (h₂ : allocate a₁ = .error .full a₁) (h : releaseUnwritten i a₁ = .ok () a') :
    splice tree leaf (pathOf fs) t.handle p rep a = .error .full a' := by
  have hi : allocateInner i a₁ = .error .full a' := by
    unfold allocateInner
    rw [h₂]
    exact run_bind_of_ok h
  rw [splice, run_bind_of_ok h₁, run_bind_of_error hi]

/-- A new key without room for it. -/
theorem Layout.insert_full (L : Layout a forest free [])
    (hnew : ∀ x ∈ leavesOf (forest tree), x.2.key ≠ leaf.key)
    (hro : a.available < a.required tree) :
    ∃ a', insert tree leaf a = .error .full a' ∧
      (¬a.LastFreed tree → Layout a' forest free [] ∧ a'.leafCounts = a.leafCounts) ∧
      (a.LastFreed tree → a'.bumpIndex + 1 = arenaCapacity ∧
        a'.heap.slot a'.bumpIndex ≠ .unused) := by
  have hlen : a.freeLen = free.length := L.count
  have hb : a.bumpIndex ≤ arenaCapacity := L.bump_le
  by_cases hr : a.roots tree = NONE
  · rw [required, if_pos hr] at hro
    refine ⟨a, ?_, fun _ => ⟨L, rfl⟩, fun hl => absurd hr hl.1⟩
    rw [insert, run_get_bind, if_pos hr]
    exact run_bind_of_error (L.allocate_full (by omega))
  · rw [required, if_neg hr] at hro
    rcases L.insert_of_root leaf hr with ⟨-, x, hx, hk⟩ | ⟨-, fs, t, p, rep, hfo, hrun⟩
    · exact absurd hk (hnew x hx)
    rw [hrun]
    cases free with
    | nil =>
      rw [length_nil] at hlen
      have hn : ¬a.LastFreed tree := fun hl => by
        have := hl.2.2.1
        omega
      refine ⟨a, ?_, fun _ => ⟨L, rfl⟩, fun hl => absurd hl hn⟩
      by_cases hlt : a.bumpIndex < arenaCapacity
      · -- the slot came from the cursor, which goes back
        have h₁ : allocate a = .ok a.bumpIndex { a with bumpIndex := a.bumpIndex + 1 } := by
          rw [L.allocate_nil, if_pos hlt]
        have h₂ := (L.grow hlt).allocate_full (by
          simp only [available] at hro ⊢
          omega)
        exact splice_full h₁ h₂ (run_release_top rfl)
      · have hf := L.allocate_full (by simp only [available]; omega)
        rw [splice]
        exact run_bind_of_error hf
    | cons i rest =>
      rw [length_cons] at hlen
      simp only [available] at hro
      obtain rfl : rest = [] := length_eq_zero_iff.1 (by omega)
      obtain ⟨next, hne, h₁, L₁⟩ := L.allocate_cons
      have hh : a.freeHead = i := L.linked.1
      have h₂ := L₁.allocate_full (by simp only [available]; omega)
      have hc : a.bumpIndex = arenaCapacity := by omega
      by_cases hl : i + 1 = a.bumpIndex
      · have hy : a.LastFreed tree := ⟨hr, hc, by omega, by omega⟩
        refine ⟨_, splice_full h₁ h₂ (run_release_top hl), fun hn => absurd hy hn,
          fun _ => ⟨?_, ?_⟩⟩
        · change a.bumpIndex - 1 + 1 = arenaCapacity
          omega
        · change a.heap.slot (a.bumpIndex - 1) ≠ .unused
          rw [show a.bumpIndex - 1 = i by omega, hne]
          simp
      · have hno : ¬a.LastFreed tree := fun hy => hl (by
          have := hy.2.2.2
          omega)
        obtain ⟨hre, L'⟩ := L₁.run_release hl
        exact ⟨_, splice_full h₁ h₂ hre, fun _ => ⟨L', rfl⟩, fun hy => absurd hy hno⟩

end Arena

end Equinox.V2
