import Equinox.Book.Update
import Equinox.V2.Storage

/-! # Layouts of an arena

The searches of an arena are searches of the trees it lays out. An insertion or
a removal changes one tree by exactly one leaf, and moves slots between the
trees and the free list. A removal gives its slots back before it refreshes the
expiries above them, so in between the tree is taken apart.
-/

namespace Equinox.V2

open Foundation CritBit Function List Arena Nat
open PagedBookV3 (BookTree BookFrame Forest)

namespace Arena

abbrev Layout (a : Arena) (forest : Forest) (free loose : List ℕ) : Prop :=
  arenaScheme.Layout a.heap forest free loose

variable {a a' : Arena} {forest : Forest} {free loose : List ℕ} {tree : TreeKind} {t : BookTree}
  {fs : List BookFrame} {i now fuel : ℕ} {leaf : LeafNode} {key : Key}

/-! ## Searches -/

section

variable (h : arenaScheme.Stores a.heap t)

include h

theorem findFrom_eq (hf : t.depth < fuel) :
    a.findFrom key fuel t.handle =
      (t.descend LeafNode.key key).elim (.error .missingKey) fun x => .ok x.1 := by
  refine Tree.Stored.walk_eq (a.findFrom key) (fun t => (t.descend LeafNode.key key).elim
    (.error .missingKey) fun x => .ok x.1) (fun i leaf fuel h => ?_)
    (fun i p rep child fuel h _ ih => ?_) h hf
  · simp only [findFrom, if_neg (ne_none_of_slot_eq_cell h), slot_eq_cell.1 h, cellNode, ok_bind,
      Tree.descend]
    split <;> rfl
  · simp only [findFrom, if_neg (ne_none_of_slot_eq_cell h), slot_eq_cell.1 h, cellNode, ok_bind,
      Tree.descend, lcp_key, bit_key]
    by_cases hp : commonPrefix rep key < p
    · rw [if_pos hp, if_neg (not_le.2 hp)]
      rfl
    · rw [if_neg hp, if_pos (not_lt.1 hp)]
      exact ih _

theorem bestFrom_eq (hf : t.depth < fuel) : a.bestFrom fuel t.handle = .ok (some t.leftmost.1) := by
  refine Tree.Stored.walk_eq a.bestFrom (fun t => .ok (some t.leftmost.1))
    (fun i leaf fuel h => ?_) (fun i p rep child fuel h _ ih => ?_) h hf
  · simp only [bestFrom, if_neg (ne_none_of_slot_eq_cell h), slot_eq_cell.1 h, cellNode, ok_bind]
    rfl
  · simp only [bestFrom, if_neg (ne_none_of_slot_eq_cell h), slot_eq_cell.1 h, cellNode, ok_bind]
    exact ih _

theorem firstExpiredFrom_eq (hf : t.depth < fuel) :
    a.firstExpiredFrom now fuel t.handle = .ok ((t.firstDue expiryOf now).map Prod.fst) := by
  refine Tree.Stored.walk_eq (a.firstExpiredFrom now)
    (fun t => .ok ((t.firstDue expiryOf now).map Prod.fst))
    (fun i leaf fuel h => ?_) (fun i p rep child fuel h hpos ih => ?_) h hf
  · simp only [firstExpiredFrom, if_neg (ne_none_of_slot_eq_cell h), slot_eq_cell.1 h, cellNode,
      ok_bind, Tree.firstDue]
    split <;> rfl
  · simp only [firstExpiredFrom, if_neg (ne_none_of_slot_eq_cell h), slot_eq_cell.1 h, cellNode,
      ok_bind, due_arenaScheme, Tree.firstDue]
    split_ifs
    · exact ih _
    · exact ih _
    · obtain ⟨fuel, rfl⟩ := Nat.exists_eq_succ_of_ne_zero hpos.ne'
      simp only [firstExpiredFrom, if_true]
      rfl

theorem removePath_cases {room : ℕ} (hr : t.depth ≤ room)
    (key : Key) (path : List (ℕ × Bool)) :
    (a.removePath key room path t.handle = .error .missingKey ∧ t.descend LeafNode.key key = none) ∨
    ∃ fs i leaf, a.removePath key room path t.handle = .ok (pathOf fs ++ path, i) ∧
      t = plug fs (.leaf i leaf) ∧
      t.descend LeafNode.key key = if leaf.key = key then some (i, leaf) else none := by
  refine Tree.Stored.path_cases (fun i leaf room path h => ?_)
    (fun i p rep children cache room path h => ?_) h hr path
  all_goals
    rw [removePath, slot_eq_cell.1 h]
    rfl

end

namespace Layout

section

variable (L : Layout a forest free loose)

include L

theorem lt_capacity (hi : i < a.bumpIndex) : i < arenaCapacity := Nat.lt_of_lt_of_le hi L.bump_le

theorem depth_le_room (ht : forest tree = some t) : t.depth ≤ 128 := L.depth_le ht

theorem depth_lt_fuel (ht : forest tree = some t) : t.depth < arenaCapacity + 1 := by
  have := L.depth_le_room ht
  unfold arenaCapacity
  omega

theorem find_eq : a.find tree key =
    ((forest tree).bind fun t => t.descend LeafNode.key key).elim (.error .missingKey)
      fun x => .ok x.1 := by
  rw [find, show a.roots tree = _ from L.root tree]
  cases ht : forest tree with
  | none => simp [rootOf, arenaScheme, findFrom, throw, throwThe, MonadExceptOf.throw]
  | some t => exact findFrom_eq (L.stores tree t ht) (L.depth_lt_fuel ht)

theorem descend_eq_some_iff {x : ℕ × LeafNode} :
    ((forest tree).bind fun t => t.descend LeafNode.key key) = some x ↔
      x ∈ leavesOf (forest tree) ∧ x.2.key = key := by
  cases ht : forest tree with
  | none => simp [leavesOf]
  | some t => exact (L.wf tree t ht).descend_eq_some_iff

theorem find_eq_ok :
    a.find tree key = .ok i ↔ ∃ leaf, (i, leaf) ∈ leavesOf (forest tree) ∧ leaf.key = key := by
  rw [L.find_eq]
  cases hd : (forest tree).bind fun t => t.descend LeafNode.key key with
  | none =>
    simp only [Option.elim_none, reduceCtorEq, false_iff, not_exists]
    intro leaf hl
    have := L.descend_eq_some_iff.2 hl
    simp [hd] at this
  | some x =>
    have hx := L.descend_eq_some_iff.1 hd
    simp only [Option.elim_some, Except.ok.injEq]
    constructor
    · rintro rfl
      exact ⟨x.2, hx⟩
    · rintro ⟨leaf, hl⟩
      have := (L.descend_eq_some_iff.2 hl).symm.trans hd
      exact (congrArg Prod.fst (Option.some.inj this)).symm

theorem find_eq_error (h : ∀ x ∈ leavesOf (forest tree), x.2.key ≠ key) :
    a.find tree key = .error .missingKey := by
  rw [L.find_eq]
  cases hd : (forest tree).bind fun t => t.descend LeafNode.key key with
  | none => rfl
  | some x => exact absurd (L.descend_eq_some_iff.1 hd).2 (h x (L.descend_eq_some_iff.1 hd).1)

theorem leaf_eq (h : (i, leaf) ∈ leavesOf (forest tree)) :
    a.leaf i = .ok leaf := leaf_eq_ok.2 (L.slot_leaf h)

theorem best_eq : a.best tree = .ok ((forest tree).map fun t => t.leftmost.1) := by
  rw [best, show a.roots tree = _ from L.root tree]
  cases ht : forest tree with
  | none => simp [rootOf, arenaScheme, bestFrom]
  | some t => exact bestFrom_eq (L.stores tree t ht) (L.depth_lt_fuel ht)

theorem firstExpired_eq (now : ℕ) : a.firstExpired tree now =
    .ok ((forest tree).bind fun t => (t.firstDue expiryOf now).map Prod.fst) := by
  rw [firstExpired, show a.roots tree = _ from L.root tree]
  cases ht : forest tree with
  | none => simp [rootOf, arenaScheme, firstExpiredFrom]
  | some t => exact firstExpiredFrom_eq (L.stores tree t ht) (L.depth_lt_fuel ht)

end

/-! ## Allocation -/

theorem allocate_nil (L : Layout a forest [] loose) : allocate a =
    if a.bumpIndex < arenaCapacity then .ok a.bumpIndex { a with bumpIndex := a.bumpIndex + 1 }
    else .error .full a := by
  have hh : a.freeHead = NONE := L.freeHead_eq_nil_iff.2 rfl
  rw [allocate, run_get_bind, if_neg (by simp [hh])]
  by_cases hlt : a.bumpIndex < arenaCapacity
  · rw [if_pos hlt]
    simp only [run_lift_bind, exists_require, run_modify_bind, run_pure_eq_ok]
    exact ⟨hlt, trivial, trivial⟩
  · rw [if_neg hlt]
    exact run_bind_of_error (run_require_of_not hlt)

theorem grow (L : Layout a forest [] loose) (hlt : a.bumpIndex < arenaCapacity) :
    Layout { a with bumpIndex := a.bumpIndex + 1 } forest [] (a.bumpIndex :: loose) := L.bumped hlt

theorem allocate_cons {rest : List ℕ} (L : Layout a forest (i :: rest) loose) :
    ∃ next, a.heap.slot i = .free next ∧
      allocate a = .ok i { a with freeHead := next, freeLen := a.freeLen - 1 } ∧
      Layout { a with freeHead := next, freeLen := a.freeLen - 1 } forest rest (i :: loose) := by
  obtain ⟨rfl, next, hn, L'⟩ := L.exists_popped
  have hs : a.freeHead ≠ NONE := mt L.freeHead_eq_nil_iff.1 (by simp)
  have hlen : a.freeLen ≠ 0 := by
    rw [show a.freeLen = _ from L.count]
    simp
  refine ⟨next, hn, ?_, L'⟩
  rw [allocate, run_get_bind, if_pos hs]
  simp only [run_reading_bind, run_modify_bind, run_lift_bind, exists_require, run_pure_eq_ok]
  exact ⟨next, nextFree_eq_ok.2 hn, hlen, rfl, rfl⟩

end Layout

/-- The arena with a slot in front of its free list. -/
def pushed (a : Arena) (handle : ℕ) : Arena :=
  { a.put handle (if a.freeHead = NONE then .lastFree else .free a.freeHead) with
    freeHead := handle, freeLen := a.freeLen + 1 }

theorem heap_pushed (hi : i < arenaCapacity) : (a.pushed i).heap = a.heap.pushed i := by
  have hsl : slotOf (if a.freeHead = NONE then .lastFree else .free a.freeHead) =
      .free a.freeHead := by
    by_cases hn : a.freeHead = NONE
    · rw [if_pos hn, hn]; rfl
    · rw [if_neg hn]; rfl
  have hp := heap_put (a := a) (n := if a.freeHead = NONE then .lastFree else .free a.freeHead) hi
  rw [hsl] at hp
  have hs : (a.pushed i).heap.slot = (a.heap.pushed i).slot := by
    have := congrArg Heap.slot hp
    exact this
  simp only [Heap.pushed, heap] at hs ⊢
  rw [Heap.mk.injEq]
  exact ⟨hs, rfl, rfl, rfl, rfl⟩

theorem run_pushFree (hlen : a.freeLen + 1 < 2 ^ 32) : pushFree i a = .ok () (a.pushed i) := by
  rw [pushFree, run_get_bind]
  refine run_bind_eq_ok.2 ⟨(), _, run_writeNode.2 rfl, ?_⟩
  simp only [run_modify_bind, run_lift_bind, exists_require, run_modify_eq_ok]
  exact ⟨hlen, rfl⟩

theorem run_recycle (hi : i < a.bumpIndex) (hc : i < arenaCapacity)
    (hn : a.nodes i ≠ .uninitialized) (hlen : a.freeLen + 1 < 2 ^ 32) :
    recycle i a = .ok () (a.pushed i) := by
  rw [recycle, run_get_bind]
  simp only [run_lift_bind, exists_require, run_reading_bind]
  refine ⟨hi, a.nodes i, tag_of_lt hc, ?_⟩
  cases h : a.nodes i with
  | uninitialized => exact absurd h hn
  | inner | leaf | free | lastFree => exact run_pushFree hlen

theorem Layout.recycle {value : ℕ}
    (L : arenaScheme.Layout (a.heap.withRoot tree value) forest free (i :: loose))
    (hn : a.nodes i ≠ .uninitialized) : Arena.recycle i a = .ok () (a.pushed i) ∧
      arenaScheme.Layout ((a.pushed i).heap.withRoot tree value) forest (i :: free) loose := by
  have hi : i < a.bumpIndex := L.lt_bump_of_mem (by simp)
  have hb : a.bumpIndex ≤ arenaCapacity := L.bump_le
  have hc := hi.trans_le hb
  have hlen : a.freeLen = free.length := L.count
  have hle : (free ++ i :: loose).length ≤ a.bumpIndex := L.length_le_bump
  refine ⟨run_recycle hi hc hn ?_, ?_⟩
  · rw [length_append, length_cons] at hle
    unfold arenaCapacity at hb
    omega
  · rw [heap_pushed hc]
    exact L.pushed

/-! ## Insertion -/

theorem run_allocateInner {j : ℕ} : allocateInner i a = .ok j a' ↔ allocate a = .ok j a' := by
  unfold allocateInner
  cases allocate a with
  | ok => rfl
  | error e a₁ => simp

theorem mem_handles_of_frame {f : BookFrame} (hF : forest tree = some (plug fs t)) (hf : f ∈ fs) :
    f.handle ∈ handlesOf (forest tree) := by
  rw [hF]
  exact handles_plug.mem_iff.2 (mem_append_right _ (Frame.handle_mem hf))

/-- Two loose slots take a new leaf and the inner node above it and a stored subtree. -/
theorem Layout.run_graft {j : ℕ} (L : Layout a forest free [j, i])
    (hF : forest tree = some (plug fs t)) (leaf : LeafNode) (p : ℕ) (rep : Key) : ∃ a', (do
        writeLeaf i leaf
        writeInner j (makeInner p rep t.handle i (bit leaf.key p))
        refreshInner j : ArenaM Unit) a = .ok () a' ∧
      Layout a' forest free [j, i] ∧ SameOff [j, i] a a' ∧
      arenaScheme.Stores a'.heap ((Frame.mk j p rep (bit leaf.key p) t).fill (.leaf i leaf)) := by
  have hi := L.lt_capacity (L.lt_bump_of_mem (i := i) (by simp))
  have hj := L.lt_capacity (L.lt_bump_of_mem (i := j) (by simp))
  have hji : j ≠ i := by
    have := L.nodup_free
    simp_all [nodup_append]
  have hjt : j ∉ t.handles := fun h =>
    L.tree_not_free (k := tree) (i := j)
      (by rw [hF]; exact handles_plug.mem_iff.2 (by simp [h])) (by simp)
  let cell : Cell Key LeafNode ℕ :=
    .inner p rep (sided (bit leaf.key p) i t.handle) fun _ => noExpiry
  have ho₁ : SameOff [i] a (a.put i (.leaf leaf)) := sameOff_put hi _
  have ho₂ : SameOff [j] (a.put i (.leaf leaf)) ((a.put i (.leaf leaf)).put j (cellNode cell)) :=
    sameOff_put hj _
  have L₂ := (L.off_loose ho₁.heap (by simp)).off_loose ho₂.heap (by simp)
  have hl : arenaScheme.Stores (a.put i (.leaf leaf)).heap (.leaf i leaf) := by
    change (a.put i (.leaf leaf)).heap.slot i = _
    rw [heap_put hi, Heap.slot_write_self]
    rfl
  have hl' := hl.off ho₂.heap (by simp [Tree.handles, hji.symm])
  obtain ⟨hsub, -⟩ := contextStored_of_stored (L₂.stores tree _ hF)
  have hc : ((a.put i (.leaf leaf)).put j (cellNode cell)).heap.slot j = .cell cell := by
    rw [heap_put hj, Heap.slot_write_self, slotOf_cellNode]
  obtain ⟨a', hr, hst, ho₃⟩ := run_refreshInner (f := ⟨j, p, rep, bit leaf.key p, t⟩)
    hc hl' hsub (by simpa [Tree.handles] using hji) hjt
  refine ⟨a', ?_, L₂.off_loose ho₃.heap (by simp), ?_, hst⟩
  · exact run_bind_eq_ok.2 ⟨(), _, run_writeNode.2 rfl, run_bind_eq_ok.2 ⟨(), _,
      run_writeNode.2 rfl, hr⟩⟩
  · exact ((ho₁.mono (by simp)).trans (ho₂.mono (by simp))).trans (ho₃.mono (by simp))

def counted (a : Arena) (tree : TreeKind) : Arena :=
  { a with leafCounts := update a.leafCounts tree (a.leafCounts tree + 1) }

/-- With two slots at hand, a new leaf is hung at its fork. -/
theorem Layout.run_splice {a₁ a₂ : Arena} {j p : ℕ} {rep : Key}
    (L : Layout a₂ forest free [j, i]) (hf : Fork LeafNode.key leaf.key (forest tree) fs t p rep)
    (h₁ : allocate a = .ok i a₁) (h₂ : allocate a₁ = .ok j a₂) :
    ∃ a' t', splice tree leaf (pathOf fs) t.handle p rep a = .ok i a' ∧
      Layout a' (update forest tree (some t')) free [] ∧
      t'.leaves.Perm ((i, leaf) :: (plug fs t).leaves) ∧ a'.bumpIndex = a₂.bumpIndex ∧
      a'.leafCounts = (a₂.counted tree).leafCounts := by
  have hF := hf.tree_eq
  obtain ⟨a₅, hgr, L₅, ho₅, hst⟩ := L.run_graft hF leaf p rep
  let f : BookFrame := ⟨j, p, rep, bit leaf.key p, t⟩
  have hp : (plug (f :: fs) (.leaf i leaf)).handles.Perm (handlesOf (forest tree) ++ [j, i]) := by
    rw [hF]
    exact handles_hung
  have hnd : ((f.fill (.leaf i leaf)).handles ++ contextHandles fs).Nodup := by
    rw [← handles_plug.nodup_iff]
    refine hp.nodup_iff.2 ((L₅.nodup tree).sublist ?_)
    exact (Sublist.refl _).append (sublist_append_right _ _)
  have hctx := (contextStored_of_stored (L₅.stores tree _ hF)).2
  obtain ⟨a₆, hre, hst₆, hc₆, hro, hm⟩ := run_replaceChild tree t hst hctx
    (Eq.trans (L₅.root tree) (by rw [hF]; rfl)) hnd
  obtain ⟨a₈, hr, hst₈, ho₈⟩ := run_refreshPath (a := a₆.counted tree) hst₆ hc₆ hnd
  have hfr : ∀ k ∈ fs.map (·.handle), k ∈ handlesOf (forest tree) ++ [j, i] := by
    intro k hk
    obtain ⟨g, hg, rfl⟩ := mem_map.1 hk
    exact mem_append_left _ (mem_handles_of_frame hF hg)
  have hco : Moves tree (fs.map (·.handle)) (a₆.counted tree) a₈ := ho₈.moves
  have L₈ := ((L₅.prune tree).off_loose (hm.heap.trans hco.heap) hfr).perm_loose hp.symm
  refine ⟨a₈, plug (f :: fs) (.leaf i leaf), ?_, ?_, leaves_plug.trans (leaves_plug.symm.cons _),
    ?_, ?_⟩
  · simp only [run_bind_eq_ok] at hgr
    obtain ⟨⟨⟩, a₃, hl, ⟨⟩, a₄, hi, hr₅⟩ := hgr
    simp only [splice, run_bind_eq_ok, run_pure_eq_ok, run_modify_eq_ok]
    exact ⟨i, a₁, h₁, j, a₂, run_allocateInner.2 h₂, (), a₃, hl, (), a₄, hi, (), a₅,
      hr₅, (), a₆, hre, ⟨⟩, _, rfl, (), a₈, hr, rfl, rfl⟩
  · rw [← update_idem (a := tree) none]
    refine Scheme.Layout.graft L₈ (by simp) ?_ ?_ ?_
    · rw [ho₈.heap.root]
      exact hro
    · rintro _ ⟨⟩; exact hst₈
    · rintro _ ⟨⟩; exact hf.wf_hung (L₅.wf tree _ hF)
  · exact (ho₈.heap.bump.trans hm.heap.bump).trans ho₅.heap.bump
  · rw [ho₈.leafCounts]
    simp only [counted, hm.leafCounts, ho₅.leafCounts]

theorem Layout.insert_of_root (L : Layout a forest free []) (leaf : LeafNode)
    (hr : a.roots tree ≠ NONE) :
    (insert tree leaf a = .error .duplicateKey a ∧
      ∃ x ∈ leavesOf (forest tree), x.2.key = leaf.key) ∨
    ((∀ x ∈ leavesOf (forest tree), x.2.key ≠ leaf.key) ∧ ∃ fs t p rep,
      Fork LeafNode.key leaf.key (forest tree) fs t p rep ∧
      insert tree leaf a = splice tree leaf (pathOf fs) t.handle p rep a) := by
  obtain ⟨t, ht⟩ := Option.ne_none_iff_exists'.1 (mt L.root_eq_nil_iff.2 hr)
  rw [Arena.insert, run_get_bind, if_neg hr, show a.roots tree = _ from L.root tree, ht]
  refine Fork.cases_of_walk (fun room path i => Arena.insertFrom tree leaf room path i a)
    (fun path i p rep => Arena.splice tree leaf path i p rep a) []
    (fun i old room path h => ?_) (fun i p rep children cache room path h => ?_)
    (L.stores tree t ht) (L.wf tree t ht) rfl (by simp [Admits]) (L.depth_le ht)
  all_goals
    have hn : reading (·.tag i) a = .ok _ a := run_reading_of_ok (slot_eq_cell.1 h)
    rw [Arena.insertFrom, run_bind_of_ok hn]
    dsimp only [cellNode, lcp_key, bit_key]
    split <;> rfl

/-- The first leaf of a tree needs one slot. -/
theorem Layout.run_plant (L : Layout a forest free [i]) (leaf : LeafNode)
    (hn : forest tree = none) : ∃ a', (do
        writeLeaf i leaf
        setRoot tree i
        modify fun a =>
          { a with leafCounts := update a.leafCounts tree (a.leafCounts tree + 1) }
        pure i : ArenaM ℕ) a = .ok i a' ∧
      Layout a' (update forest tree (some (.leaf i leaf))) free [] ∧
      a'.bumpIndex = a.bumpIndex ∧ a'.leafCounts = (a.counted tree).leafCounts := by
  have hi := L.lt_capacity (L.lt_bump_of_mem (i := i) (by simp))
  have L₁ : Layout (a.put i (.leaf leaf)) forest free [i] :=
    L.off_loose (sameOff_put hi _).heap (by simp)
  let a₂ : Arena := { a.put i (.leaf leaf) with roots := update a.roots tree i }
  refine ⟨a₂.counted tree, ?_, ?_, rfl, rfl⟩
  · simp only [run_bind_eq_ok, run_pure_eq_ok, run_modify_eq_ok, setRoot]
    exact ⟨(), _, run_writeNode.2 rfl, ⟨⟩, _, rfl, ⟨⟩, _, rfl, trivial, rfl⟩
  · refine Scheme.Layout.graft ?_ hn (update_self ..) ?_ ?_
    · have hp := L₁.prune tree
      rw [hn, ← hn, update_eq_self, hn] at hp
      have hh : (a₂.counted tree).heap.withRoot tree arenaScheme.nil =
          (a.put i (.leaf leaf)).heap.withRoot tree arenaScheme.nil := by
        simp [Heap.withRoot, heap, counted, a₂, put]
      rw [hh]
      exact hp
    · rintro _ ⟨⟩
      change (a.put i (.leaf leaf)).heap.slot i = _
      rw [heap_put hi, Heap.slot_write_self]
      rfl
    · rintro _ ⟨⟩; trivial

end Arena

end Equinox.V2
