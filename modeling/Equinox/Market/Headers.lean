import Equinox.Foundation.Frame
import Equinox.Market.Orders

/-! # Page headers

Only the first page of a book has a header in use. No operation on a book writes
the header of another page, and so a well-formed book passes the header checks
of every handler.
-/

namespace Equinox

open Foundation CritBit List

set_option synthInstance.maxSize 1000000

namespace PagedBookV3

variable {b : PagedBookV3}

/-- Which pages after the first have a blank header. -/
def tailBlank (b : PagedBookV3) (page : ℕ) : Bool := (b.pages (page + 1)).headerBlank

theorem tailBlank_modifyPage_zero (f : BookPage → BookPage) :
    (b.modifyPage 0 f).tailBlank = b.tailBlank := by
  ext page
  simp [tailBlank, modifyPage]

instance keeps_setRoot (tree : TreeKind) (value : ℕ) : Keeps tailBlank (setRoot tree value) :=
  .modify fun _ => tailBlank_modifyPage_zero _

instance keeps_setFreeHead (value : ℕ) : Keeps tailBlank (setFreeHead value) :=
  .modify fun _ => tailBlank_modifyPage_zero _

instance keeps_setFreeCount (value : ℕ) : Keeps tailBlank (setFreeCount value) :=
  .modify fun _ => tailBlank_modifyPage_zero _

instance keeps_setBumpIndex (value : ℕ) : Keeps tailBlank (setBumpIndex value) :=
  .modify fun _ => tailBlank_modifyPage_zero _

instance keeps_putNodeBytes (handle : ℕ) (node : Node) :
    Keeps tailBlank (putNodeBytes handle node) := by
  refine .andThen (.reading _) fun slot => .modify fun b => ?_
  ext page
  simp only [tailBlank, modifyPage]
  split <;> rfl

instance keeps_refreshInner (handle : ℕ) : Keeps tailBlank (refreshInner handle) := by
  unfold refreshInner putInner
  infer_instance

instance keeps_allocate : Keeps tailBlank allocate := by
  unfold allocate
  infer_instance

instance keeps_recycle (handle : ℕ) : Keeps tailBlank (recycle handle) := by
  refine .andThen .get fun b => ?_
  split
  · exact .throw _
  · refine .andThen (.reading _) fun node => ?_
    split <;> infer_instance

instance keeps_replaceChild (tree : TreeKind) (path : List (ℕ × Bool)) (replacement : ℕ) :
    Keeps tailBlank (replaceChild tree path replacement) := by
  unfold replaceChild putInner
  split <;> infer_instance

instance keeps_allocateInner (handle : ℕ) : Keeps tailBlank (allocateInner handle) where
  of_ok h := by
    unfold allocateInner at h
    split at h
    · rename_i ha
      obtain ⟨rfl, rfl⟩ := EStateM.Result.ok.inj h
      exact kept_of_ok tailBlank ha
    · obtain ⟨_, _, -, ht⟩ := run_bind_eq_ok.1 h
      exact absurd ht run_throw_ne_ok

instance keeps_splice (tree : TreeKind) (leaf : LeafNode) (path : List (ℕ × Bool))
    (current prefixLen : ℕ) (representative : Key) :
    Keeps tailBlank (splice tree leaf path current prefixLen representative) := by
  unfold splice putLeaf putInner
  infer_instance

instance keeps_insertFrom (tree : TreeKind) (leaf : LeafNode) (room : ℕ) (path : List (ℕ × Bool))
    (current : ℕ) : Keeps tailBlank (insertFrom tree leaf room path current) := by
  induction room generalizing path current with
  | zero | succ room ih =>
    unfold insertFrom
    refine .andThen (.reading _) fun node => ?_
    split <;> infer_instance

instance keeps_insert (tree : TreeKind) (leaf : LeafNode) : Keeps tailBlank (insert tree leaf) := by
  unfold insert putLeaf
  infer_instance

instance keeps_insertRestingOrder (tree : TreeKind) (leaf : LeafNode) :
    Keeps tailBlank (insertRestingOrder tree leaf) := by
  unfold insertRestingOrder
  infer_instance

instance keeps_unlink (tree : TreeKind) (path : List (ℕ × Bool)) :
    Keeps tailBlank (unlink tree path) := by
  unfold unlink
  split <;> infer_instance

instance keeps_remove (tree : TreeKind) (key : Key) : Keeps tailBlank (remove tree key) := by
  unfold remove
  infer_instance

instance keeps_removeOwned (tree : TreeKind) (key : Key) (owner : ℕ) :
    Keeps tailBlank (removeOwned tree key owner) := by
  unfold removeOwned
  infer_instance

instance keeps_applyMatchPlan (plan : V3MatchPlan) : Keeps tailBlank (applyMatchPlan plan) := by
  unfold applyMatchPlan applyCancellation applyFill putLeaf
  infer_instance

instance keeps_sweepExpired (tree : TreeKind) (now max : ℕ) :
    Keeps tailBlank (sweepExpired tree now max) := by
  induction max with
  | zero => exact .pure _
  | succ max ih =>
    refine .andThen (.reading _) fun found => ?_
    split <;> infer_instance

instance keeps_exec (op : BookOp) : Keeps tailBlank op.exec := by
  cases op <;> unfold BookOp.exec <;> infer_instance

theorem WellFormed.headersValid_of_tailBlank (hb : b.WellFormed)
    (h : ∀ page < bookPagesPerSide - 1, b.tailBlank page = true) : b.headersValid = true := by
  obtain ⟨forest, free, L⟩ := hb
  have hf : free.length ≤ b.bumpIndex := by
    have hl := L.perm.length_eq
    simp only [length_append, length_range] at hl
    omega
  simp only [headersValid, Bool.and_eq_true, decide_eq_true_eq, all_eq_true, mem_range]
  exact ⟨⟨by rw [L.count]; exact hf.trans L.bump_le, L.bump_le⟩, h⟩

theorem Prepared.tailBlank (h : b.Prepared) (page : ℕ) (hp : page < bookPagesPerSide - 1) :
    b.tailBlank page = true := by
  obtain ⟨data, hd⟩ := h (page + 1) (by omega)
  simp only [initializeBookPageMetadata, bind_eq_ok, pure_eq_ok] at hd
  obtain ⟨-, -, hp⟩ := hd
  rw [PagedBookV3.tailBlank, ← hp]
  rfl

end PagedBookV3

end Equinox
