import Equinox.Book.Layout

/-! # Searching a stored tree

The walks of the book over its records are the walks over the tree they store.
-/

namespace Equinox

open Foundation CritBit Tree

namespace PagedBookV3

variable {b : PagedBookV3} {t : BookTree} {key : Key} {now fuel : ℕ}

namespace Stores

variable (h : b.Stores t)

include h

theorem handle_ne_none : t.handle ≠ NONE := by
  cases t with
  | leaf => exact Holds.ne_none h
  | inner => exact Holds.ne_none h.1

theorem findFrom (hf : t.depth < fuel) : b.findFrom key fuel t.handle =
    (t.descend LeafNode.key key).elim (.error bundleError) fun x => .ok x.1 := by
  refine Stored.walk_eq (b.findFrom key) (fun t => (t.descend LeafNode.key key).elim
    (.error bundleError) fun x => .ok x.1) (fun i leaf fuel h => ?_)
    (fun i p rep child fuel h _ ih => ?_) h hf
  · simp only [PagedBookV3.findFrom, if_neg h.ne_none, h.nodeBytes, cellNode, ok_bind, descend]
    split <;> rfl
  · simp only [PagedBookV3.findFrom, if_neg h.ne_none, h.nodeBytes, cellNode, ok_bind, descend,
      lcp_key, bit_key]
    by_cases hp : commonPrefix rep key < p
    · rw [if_pos hp, if_neg (not_le.2 hp)]
      rfl
    · rw [if_neg hp, if_pos (not_lt.1 hp)]
      exact ih _

theorem bestFrom (hf : t.depth < fuel) : b.bestFrom fuel t.handle = .ok (some t.leftmost.1) := by
  refine Stored.walk_eq b.bestFrom (fun t => .ok (some t.leftmost.1)) (fun i leaf fuel h => ?_)
    (fun i p rep child fuel h _ ih => ?_) h hf
  · simp only [PagedBookV3.bestFrom, if_neg h.ne_none, h.nodeBytes, cellNode, ok_bind]
    rfl
  · simp only [PagedBookV3.bestFrom, if_neg h.ne_none, h.nodeBytes, cellNode, ok_bind]
    exact ih _

theorem firstExpiredFrom (hf : t.depth < fuel) : b.firstExpiredFrom now fuel t.handle =
    .ok ((t.firstDue LeafNode.expiresAt now).map Prod.fst) := by
  refine Stored.walk_eq (b.firstExpiredFrom now)
    (fun t => .ok ((t.firstDue LeafNode.expiresAt now).map Prod.fst))
    (fun i leaf fuel h => ?_) (fun i p rep child fuel h hpos ih => ?_) h hf
  · simp only [PagedBookV3.firstExpiredFrom, if_neg h.ne_none, h.nodeBytes, cellNode, ok_bind,
      firstDue]
    split <;> rfl
  · simp only [PagedBookV3.firstExpiredFrom, if_neg h.ne_none, h.nodeBytes, cellNode, ok_bind,
      firstDue]
    split_ifs
    · exact ih _
    · exact ih _
    · obtain ⟨fuel, rfl⟩ := Nat.exists_eq_succ_of_ne_zero hpos.ne'
      simp only [PagedBookV3.firstExpiredFrom, if_true]
      rfl

theorem removePath {room : ℕ} (hr : t.depth ≤ room) (key : Key) (path : List (ℕ × Bool)) :
    (b.removePath key room path t.handle = .error bundleError ∧ t.descend LeafNode.key key = none) ∨
    ∃ fs i leaf, b.removePath key room path t.handle = .ok (pathOf fs ++ path, i) ∧
      t = plug fs (.leaf i leaf) ∧
      t.descend LeafNode.key key = if leaf.key = key then some (i, leaf) else none := by
  refine Stored.path_cases (fun i leaf room path h => ?_)
    (fun i p rep children cache room path h => ?_) h hr path
  all_goals
    rw [PagedBookV3.removePath, h.nodeBytes]
    rfl

end Stores

end PagedBookV3

end Equinox
