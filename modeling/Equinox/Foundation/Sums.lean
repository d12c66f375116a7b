import Mathlib

/-! # Sums over tables and lists

How a sum over the entries of a table changes when one entry is written, and
sums over lists that select some of their elements.
-/

namespace Foundation

open Finset Function

variable {α β M : Type*} [AddCommMonoid M] {n i : ℕ}

theorem sum_range_update {M : Type*} [AddCommGroup M] (g : ℕ → β) (f : β → M) (b : β) (hi : i < n) :
    ∑ j ∈ range n, f (update g i b j) = ∑ j ∈ range n, f (g j) + (f b - f (g i)) := by
  have hmem : i ∈ range n := mem_range.2 hi
  have hr : ∑ j ∈ (range n).erase i, f (update g i b j) = ∑ j ∈ (range n).erase i, f (g j) :=
    sum_congr rfl fun j hj => by rw [update_of_ne (ne_of_mem_erase hj)]
  rw [← add_sum_erase _ _ hmem, ← add_sum_erase _ (fun j => f (g j)) hmem, hr, update_self]
  abel

theorem sum_map_filterMap (l : List α) (f : α → Option β) (d : β → M) :
    ((l.filterMap f).map d).sum = (l.map fun a => (f a).elim 0 d).sum := by
  induction l with
  | nil => rfl
  | cons a l ih =>
    cases ha : f a with
    | none => simpa [List.filterMap_cons, ha] using ih
    | some b => simp [ha, ih]

theorem sum_map_sum (l : List α) (f : α → Multiset β) (d : β → M) :
    ((l.map f).sum.map d).sum = (l.map fun a => ((f a).map d).sum).sum := by
  induction l with
  | nil => rfl
  | cons a l ih => simp [ih]

theorem mem_sum_map {α : Type*} {l : List α} {f : α → Multiset β} {b : β} :
    b ∈ (l.map f).sum ↔ ∃ a ∈ l, b ∈ f a := by
  induction l with
  | nil => simp
  | cons a l ih => simp [ih]

section Nonneg

variable {l : List ℤ}

theorem sum_eq_zero_iff_positives (h : ∀ a ∈ l, 0 ≤ a) :
    l.sum = 0 ↔ (l.filter (0 < ·)).length = 0 := by
  have hsum := List.sum_nonneg h
  induction l with
  | nil => simp
  | cons a l ih =>
    have ha := h a List.mem_cons_self
    have hl := fun b hb => h b (List.mem_cons_of_mem a hb)
    have hr := List.sum_nonneg hl
    rw [List.sum_cons, List.filter_cons]
    rcases ha.eq_or_lt with rfl | hpos
    · simpa using ih hl hr
    · simp only [hpos, decide_true, if_true, List.length_cons]
      omega

theorem foldr_max_nonneg (l : List ℤ) : 0 ≤ l.foldr max 0 := by
  induction l with
  | nil => exact le_rfl
  | cons a l ih => exact le_max_of_le_right ih

theorem foldr_max_le_sum (h : ∀ a ∈ l, 0 ≤ a) : l.foldr max 0 ≤ l.sum := by
  induction l with
  | nil => exact le_rfl
  | cons a l ih =>
    have ha := h a List.mem_cons_self
    have hl := fun b hb => h b (List.mem_cons_of_mem a hb)
    have hr := List.sum_nonneg hl
    have hle := ih hl
    rw [List.foldr_cons, List.sum_cons]
    omega

theorem sum_le_foldr_max_iff (h : ∀ a ∈ l, 0 ≤ a) :
    l.sum ≤ l.foldr max 0 ↔ (l.filter (0 < ·)).length ≤ 1 := by
  induction l with
  | nil => simp
  | cons a l ih =>
    have ha := h a List.mem_cons_self
    have hl := fun b hb => h b (List.mem_cons_of_mem a hb)
    have hr := List.sum_nonneg hl
    have hle := foldr_max_le_sum hl
    have hz := sum_eq_zero_iff_positives hl
    have hih := ih hl
    rw [List.foldr_cons, List.sum_cons, List.filter_cons]
    rcases ha.eq_or_lt with rfl | hpos
    · simp only [lt_irrefl, decide_false, Bool.false_eq_true, if_false]
      rw [← hih]
      omega
    · simp only [hpos, decide_true, if_true, List.length_cons]
      omega

end Nonneg

end Foundation
