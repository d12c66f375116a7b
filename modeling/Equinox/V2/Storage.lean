import Equinox.Book.Storage
import Equinox.CritBit.Heap
import Equinox.V2.Arena

/-! # Arenas as heaps

An arena read as a heap of two crit-bit trees, and what its reads and writes are
in those terms. A replaced child leaves the nodes further up with stale expiries
until the path is refreshed.
-/

namespace Equinox.V2

open Foundation CritBit Function List
open PagedBookV3 (BookTree BookFrame)

instance : Fintype TreeKind := ⟨{.fixed, .oraclePegged}, fun k => by cases k <;> simp⟩

/-- A free record without a successor and the last free record are the same. -/
def slotOf : Node → Slot Key LeafNode ℕ
  | .uninitialized => .unused
  | .free next => .free next
  | .lastFree => .free NONE
  | .leaf leaf => .cell (.leaf leaf)
  | .inner node => .cell (.inner node.prefixLen node.key node.children node.childEarliestExpiry)

@[simp] theorem slotOf_cellNode (c : Cell Key LeafNode ℕ) : slotOf (cellNode c) = .cell c := by
  cases c <;> rfl

def arenaScheme : Scheme Key LeafNode ℕ where
  key := LeafNode.key
  due := expiryOf
  nil := NONE
  capacity := arenaCapacity
  capacity_le := by decide

@[simp] theorem due_arenaScheme : arenaScheme.due = expiryOf := rfl

namespace Arena

def heap (a : Arena) : Heap TreeKind Key LeafNode ℕ where
  slot i := if i < arenaCapacity then slotOf (a.nodes i) else .unused
  root := a.roots
  freeHead := a.freeHead
  freeCount := a.freeLen
  bump := a.bumpIndex

def put (a : Arena) (handle : ℕ) (node : Node) : Arena :=
  { a with nodes := update a.nodes handle node }

variable {a a' : Arena} {i next : ℕ} {n : Node} {leaf : LeafNode} {tree : TreeKind}

theorem tag_eq_ok : a.tag i = .ok n ↔ i < arenaCapacity ∧ a.nodes i = n := by
  simp [tag]

theorem tag_of_lt (hi : i < arenaCapacity) : a.tag i = .ok (a.nodes i) := tag_eq_ok.2 ⟨hi, rfl⟩

theorem heap_put (hi : i < arenaCapacity) : (a.put i n).heap = a.heap.write i (slotOf n) := by
  have hs : (a.put i n).heap.slot = update a.heap.slot i (slotOf n) := by
    funext j
    by_cases hj : j = i
    · subst hj
      simp [heap, put, hi]
    · simp [heap, put, hj]
  simp only [heap, Heap.write, Heap.mk.injEq] at hs ⊢
  exact ⟨hs, rfl, rfl, rfl, rfl⟩

theorem slot_eq_cell {c : Cell Key LeafNode ℕ} :
    a.heap.slot i = .cell c ↔ a.tag i = .ok (cellNode c) := by
  rw [tag_eq_ok]
  by_cases hi : i < arenaCapacity
  · cases hn : a.nodes i <;> cases c <;> simp [heap, hi, hn, slotOf, cellNode]
    rename_i node _ _ _ _
    obtain ⟨_, _, _, _⟩ := node
    simp
  · simp [heap, hi]

theorem lt_of_slot_eq_cell {c : Cell Key LeafNode ℕ} (h : a.heap.slot i = .cell c) :
    i < arenaCapacity := (tag_eq_ok.1 (slot_eq_cell.1 h)).1

theorem ne_none_of_slot_eq_cell {c : Cell Key LeafNode ℕ} (h : a.heap.slot i = .cell c) :
    i ≠ NONE := ((lt_of_slot_eq_cell h).trans (by decide)).ne

theorem leaf_eq_ok : a.leaf i = .ok leaf ↔ a.heap.slot i = .cell (.leaf leaf) := by
  rw [slot_eq_cell]
  unfold Arena.leaf
  cases a.tag i with
  | error e => simp [bind, Except.bind]
  | ok n => cases n <;> simp [bind, Except.bind, cellNode]

theorem inner_eq_ok {p : ℕ} {rep : Key} {children cache : Bool → ℕ} :
    a.inner i = .ok ⟨p, rep, children, cache⟩ ↔
      a.heap.slot i = .cell (.inner p rep children cache) := by
  rw [slot_eq_cell]
  unfold Arena.inner
  cases a.tag i with
  | error e => simp [bind, Except.bind]
  | ok n => cases n <;> simp [bind, Except.bind, cellNode]

theorem nextFree_eq_ok : a.nextFree i = .ok next ↔ a.heap.slot i = .free next := by
  by_cases hi : i < arenaCapacity
  · simp only [nextFree, tag_of_lt hi, ok_bind, heap, hi, if_true]
    cases a.nodes i <;> simp [slotOf]
  · simp [nextFree, tag, heap, hi]

theorem slot_eq_unused (hi : i < arenaCapacity) :
    a.heap.slot i = .unused ↔ a.nodes i = .uninitialized := by
  simp only [heap, hi, if_true]
  cases a.nodes i <;> simp [slotOf]

theorem run_writeNode {u : Unit} : writeNode i n a = .ok u a' ↔ a.put i n = a' := by
  simp [writeNode, put]

/-! ## Stored trees -/

variable {t : BookTree} {fs : List BookFrame} {f : BookFrame}

theorem tag_leaf (h : arenaScheme.Stores a.heap (.leaf i leaf)) : a.tag i = .ok (.leaf leaf) :=
  slot_eq_cell.1 h

theorem tag_inner {p : ℕ} {rep : Key} {child : Bool → BookTree}
    (h : arenaScheme.Stores a.heap (.inner i p rep child)) :
    a.tag i = .ok (.inner ⟨p, rep, fun c => (child c).handle, fun c => (child c).least expiryOf⟩) :=
  slot_eq_cell.1 h.1

theorem handle_ne_none (h : arenaScheme.Stores a.heap t) : t.handle ≠ NONE := by
  cases t with
  | leaf => exact ne_none_of_slot_eq_cell h
  | inner => exact ne_none_of_slot_eq_cell h.1

theorem subtreeExpiry_eq (h : arenaScheme.Stores a.heap t) :
    a.subtreeExpiry t.handle = .ok (t.least expiryOf) := by
  cases t with
  | leaf i leaf =>
    rw [subtreeExpiry, Tree.handle_leaf, tag_leaf h]
    rfl
  | inner i p rep child =>
    rw [subtreeExpiry, Tree.handle_inner, tag_inner h]
    rfl

/-! ## Writes -/

/-- Two arenas that differ in some records at most. -/
structure SameOff (hs : List ℕ) (a a' : Arena) : Prop where
  heap : a.heap.SameOff hs a'.heap
  leafCounts : a'.leafCounts = a.leafCounts

theorem SameOff.refl (hs : List ℕ) (a : Arena) : SameOff hs a a := ⟨.refl _ _, rfl⟩

theorem SameOff.trans {hs : List ℕ} {a'' : Arena} (h₁ : SameOff hs a a') (h₂ : SameOff hs a' a'') :
    SameOff hs a a'' := ⟨h₁.heap.trans h₂.heap, h₂.leafCounts.trans h₁.leafCounts⟩

theorem SameOff.mono {hs hs' : List ℕ} (h : SameOff hs a a') (hsub : ∀ i ∈ hs, i ∈ hs') :
    SameOff hs' a a' := ⟨h.heap.mono hsub, h.leafCounts⟩

theorem sameOff_put (hi : i < arenaCapacity) (n : Node) : SameOff [i] a (a.put i n) :=
  ⟨heap_put (a := a) hi ▸ Heap.sameOff_write _ _ _, rfl⟩

/-- Refreshing a frame whose child pointers are right stores the frame filled with its subtree. -/
theorem run_refreshInner {cache : Bool → ℕ}
    (h : a.heap.slot f.handle = .cell
      (.inner f.prefixLen f.rep (sided f.branch t.handle f.sibling.handle) cache))
    (ht : arenaScheme.Stores a.heap t) (hs : arenaScheme.Stores a.heap f.sibling)
    (hnt : f.handle ∉ t.handles) (hns : f.handle ∉ f.sibling.handles) :
    ∃ a', refreshInner f.handle a = .ok () a' ∧ arenaScheme.Stores a'.heap (f.fill t) ∧
      SameOff [f.handle] a a' := by
  have hlt := lt_of_slot_eq_cell h
  let child : Bool → BookTree := sided f.branch t f.sibling
  have hc (c : Bool) : arenaScheme.Stores a.heap (child c) :=
    forall_sided (p := fun t => arenaScheme.Stores a.heap t).2 ⟨ht, hs⟩ c
  rw [← map_sided Tree.handle] at h
  have hca : sided true ((child true).least expiryOf) ((child false).least expiryOf) =
      sided f.branch (t.least expiryOf) (f.sibling.least expiryOf) := by
    exact (sided_eta (c := true) fun c => (child c).least expiryOf).trans
      (map_sided (Tree.least expiryOf))
  refine ⟨a.put f.handle (cellNode (arenaScheme.cellAround f t)), ?_, ?_, sameOff_put hlt _⟩
  · simp only [refreshInner, run_reading_bind, writeInner, run_writeNode]
    refine ⟨_, inner_eq_ok.2 h, _, subtreeExpiry_eq (hc false), _, subtreeExpiry_eq (hc true), ?_⟩
    rw [hca, map_sided Tree.handle]
    rfl
  · rw [heap_put hlt, slotOf_cellNode]
    exact ht.fill hs hnt hns

theorem run_refreshPath (ht : arenaScheme.Stores a.heap t)
    (hc : arenaScheme.StoresContext a.heap fs t.handle)
    (hnd : (t.handles ++ contextHandles fs).Nodup) :
    ∃ a', refreshPath (pathOf fs) a = .ok () a' ∧ arenaScheme.Stores a'.heap (plug fs t) ∧
      SameOff (fs.map (·.handle)) a a' := by
  induction fs generalizing a t with
  | nil => exact ⟨a, rfl, ht, SameOff.refl _ _⟩
  | cons f fs ih =>
    obtain ⟨⟨cache, hce⟩, hs, hr⟩ := hc
    have hnd' : ((f.fill t).handles ++ contextHandles fs).Nodup := by
      refine (Perm.nodup_iff ?_).1 hnd
      rw [contextHandles_cons, ← append_assoc]
      exact Frame.handles_fill.symm.append_right _
    have hf := (nodup_append.1 hnd').1
    rw [Frame.handles_fill.nodup_iff, nodup_middle, nodup_cons, mem_append, not_or] at hf
    obtain ⟨a₁, hrun, hst, ho⟩ := run_refreshInner hce ht hs hf.1.1 hf.1.2
    have hout : ∀ i ∈ contextHandles fs, i ∉ [f.handle] := by
      intro i hi hm
      rw [mem_singleton] at hm
      subst hm
      exact disjoint_of_nodup_append hnd' (f.fill t).handle_mem_handles hi
    obtain ⟨a₂, hr', hst', ho'⟩ := ih hst (Scheme.StoresContext.off hr ho.heap hout) hnd'
    refine ⟨a₂, run_forM_cons.2 ⟨a₁, hrun, hr'⟩, hst', ?_⟩
    exact (ho.mono (by simp)).trans (ho'.mono (by simp +contextual))

/-- A step of an operation on one tree: it writes to some slots and moves the tree's root. -/
structure Moves (tree : TreeKind) (hs : List ℕ) (a a' : Arena) : Prop where
  heap : (a.heap.withRoot tree NONE).SameOff hs (a'.heap.withRoot tree NONE)
  leafCounts : a'.leafCounts = a.leafCounts

theorem SameOff.moves {hs : List ℕ} (h : SameOff hs a a') : Moves tree hs a a' :=
  ⟨⟨h.heap.slot, by simp only [Heap.withRoot, h.heap.root], h.heap.freeHead, h.heap.freeCount,
    h.heap.bump⟩, h.leafCounts⟩

/-- Pointing the frames at another subtree. The expiries further up may be stale after it. -/
theorem run_replaceChild (tree : TreeKind) (old : BookTree) (ht : arenaScheme.Stores a.heap t)
    (hc : arenaScheme.StoresContext a.heap fs old.handle)
    (hro : a.roots tree = (plug fs old).handle)
    (hnd : (t.handles ++ contextHandles fs).Nodup) :
    ∃ a', replaceChild tree (pathOf fs) t.handle a = .ok () a' ∧ arenaScheme.Stores a'.heap t ∧
      arenaScheme.StoresContext a'.heap fs t.handle ∧ a'.roots tree = (plug fs t).handle ∧
      Moves tree (fs.map (·.handle)) a a' := by
  cases fs with
  | nil =>
    refine ⟨{ a with roots := update a.roots tree t.handle }, by
      simp [replaceChild, pathOf, setRoot], ht, trivial, update_self .., ?_, rfl⟩
    exact ⟨fun _ _ => rfl, by simp [Heap.withRoot, heap], rfl, rfl, rfl⟩
  | cons f fs =>
    obtain ⟨⟨cache, hce⟩, hs, hr⟩ := hc
    have hlt := lt_of_slot_eq_cell hce
    rw [contextHandles_cons, cons_append, nodup_middle, nodup_cons,
      mem_append, mem_append, not_or, not_or] at hnd
    let cell : Cell Key LeafNode ℕ :=
      .inner f.prefixLen f.rep (sided f.branch t.handle f.sibling.handle)
        (update cache f.branch (t.least expiryOf))
    have ho : SameOff [f.handle] a (a.put f.handle (cellNode cell)) := sameOff_put hlt _
    have hout {l : List ℕ} (hl : f.handle ∉ l) : ∀ i ∈ l, i ∉ [f.handle] := by
      intro i hi hm
      rw [mem_singleton] at hm
      exact hl (hm ▸ hi)
    have hu : update (sided f.branch old.handle f.sibling.handle) f.branch t.handle =
        sided f.branch t.handle f.sibling.handle := by
      funext c
      by_cases hc : c = f.branch
      · subst hc; simp
      · simp [sided, hc]
    refine ⟨a.put f.handle (cellNode cell), ?_, ht.off ho.heap (hout hnd.1.1),
      ⟨⟨update cache f.branch (t.least expiryOf), ?_⟩,
        Scheme.Stores.off hs ho.heap (hout hnd.1.2.1),
        Scheme.StoresContext.off hr ho.heap (hout hnd.1.2.2)⟩,
      hro.trans (handle_plug_congr (t := f.fill old) rfl), (ho.mono (by simp)).moves⟩
    · simp only [pathOf, map_cons, replaceChild, run_reading_bind, writeInner, run_writeNode]
      refine ⟨_, inner_eq_ok.2 hce, _, subtreeExpiry_eq ht, ?_⟩
      rw [hu]
      rfl
    · rw [Heap.Holds, heap_put hlt, slotOf_cellNode, Heap.slot_write_self]

end Arena

end Equinox.V2
