import Equinox.V2.Cancels
import Equinox.V2.Planner

/-! # Scans

The handlers of a V2 market walk over every slot of an arena and ask both trees
about the leaf there. On a valid arena such a walk is one over its orders.
-/

namespace Equinox.V2

open Foundation CritBit List

/-- An order in an arena: its tree, its handle and its leaf. -/
abbrev Entry := TreeKind × ℕ × LeafNode

namespace Arena

/-- The orders at one slot; a valid arena has at most one there. -/
def entriesAt (a : Arena) (handle : ℕ) : List Entry :=
  [TreeKind.fixed, .oraclePegged].filterMap fun tree =>
    (a.restingAt tree handle).map (tree, handle, ·)

def entries (a : Arena) : List Entry := (range a.bumpIndex).flatMap a.entriesAt

variable {a : Arena} {i : ℕ} {α : Type} (step : ℕ → TreeKind → LeafNode → α → Except BookError α)
  (acc : α)

theorem Valid.forTrees_eq (ha : a.Valid) (hi : i < a.bumpIndex) :
    a.forTrees (step i) acc i =
      (a.entriesAt i).foldlM (fun acc y => step y.2.1 y.1 y.2.2 acc) acc := by
  have ht : a.tag i = .ok (a.nodes i) := tag_of_lt (hi.trans_le ha.bump_le)
  rw [forTrees, ht, ok_bind, entriesAt, foldlM_filterMap]
  cases hn : a.nodes i with
  | uninitialized | inner | free | lastFree =>
    have hl : a.leaf i = .error .badTag := by rw [Arena.leaf, ht, hn]; rfl
    have hno (tree : TreeKind) : a.restingAt tree i = none := by rw [restingAt, hl]
    simp only [hno, Option.map_none, foldlM_pure]
    rfl
  | leaf leaf =>
    have hl : a.leaf i = .ok leaf := by rw [Arena.leaf, ht, hn]; rfl
    dsimp only
    congr 1
    funext acc tree
    rw [ha.findsAt_eq, ok_bind, restingAt, hl]
    by_cases hf : a.find tree leaf.key = .ok i <;> simp [hf]

theorem Valid.foldlM_entriesAt (ha : a.Valid) {l : List ℕ} (hl : ∀ i ∈ l, i < a.bumpIndex) :
    l.foldlM (fun acc i => a.forTrees (step i) acc i) acc =
      (l.flatMap a.entriesAt).foldlM (fun acc y => step y.2.1 y.1 y.2.2 acc) acc := by
  induction l generalizing acc with
  | nil => rfl
  | cons i l ih =>
    obtain ⟨hi, hl⟩ := forall_mem_cons.1 hl
    rw [foldlM_cons, flatMap_cons, foldlM_append, ha.forTrees_eq step acc hi]
    exact bind_congr fun acc => ih acc hl

theorem Valid.foldlM_forTrees (ha : a.Valid) :
    (range a.bumpIndex).foldlM (fun acc i => a.forTrees (step i) acc i) acc =
      a.entries.foldlM (fun acc y => step y.2.1 y.1 y.2.2 acc) acc :=
  ha.foldlM_entriesAt step acc fun _ hi => mem_range.1 hi

end Arena

end Equinox.V2
