import Mathlib

/-! # Rings

A ring stores numbered entries, each in the cell of its number's residue, over
whatever was there. A ring that started empty holds the newest entries of its
log, as many as it has cells, and nothing else. Its cells may be spread over rows.
-/

namespace Foundation

open Nat List Function

variable {α : Type*} {capacity start : ℕ} {log : List α} {a : α}

/-- The number of the next entry, and the cells. -/
structure LogRing (α : Type*) where
  next : ℕ
  cells : ℕ → Option α

namespace LogRing

variable {r : LogRing α}

@[ext] theorem ext {r r' : LogRing α} (hn : r.next = r'.next)
    (hc : ∀ i, r.cells i = r'.cells i) : r = r' := by
  obtain ⟨next, cells⟩ := r
  obtain ⟨next', cells'⟩ := r'
  obtain rfl : next = next' := hn
  obtain rfl : cells = cells' := funext hc
  rfl

def push (capacity : ℕ) (r : LogRing α) (a : α) : LogRing α where
  next := r.next + 1
  cells := update r.cells (r.next % capacity) (some a)

/-- The ring holds the newest entries of a log whose first entry has the number `start`. -/
structure Keeps (capacity start : ℕ) (log : List α) (r : LogRing α) : Prop where
  next : r.next = start + log.length
  cells : ∀ i a, r.cells i = some a ↔
    ∃ j, log[j]? = some a ∧ log.length ≤ j + capacity ∧ (start + j) % capacity = i

theorem keeps_nil (hn : r.next = start) (hc : ∀ i, r.cells i = none) :
    Keeps capacity start [] r := by
  refine ⟨by simpa using hn, fun i a => ?_⟩
  simp [hc]

theorem Keeps.push (h : Keeps capacity start log r) (hpos : 0 < capacity) (a : α) :
    Keeps capacity start (log ++ [a]) (r.push capacity a) := by
  refine ⟨by simp only [LogRing.push, h.next, length_append, length_singleton]; omega, ?_⟩
  intro i b
  simp only [LogRing.push, h.next, length_append, length_singleton]
  by_cases hi : i = (start + log.length) % capacity
  · -- the new entry's cell: only the newest number of this residue is within reach
    subst hi
    rw [update_self]
    constructor
    · rintro h'
      obtain rfl := Option.some.inj h'
      exact ⟨log.length, by simp, by omega, rfl⟩
    · rintro ⟨j, hj, hn, hmod⟩
      have hlt : j < log.length + 1 := by
        have := (List.getElem?_eq_some_iff.1 hj).1
        simpa using this
      have heq : (start + log.length) ≡ (start + j) [MOD capacity] := hmod.symm
      have hd := (modEq_iff_dvd' (by omega)).1 heq.symm
      have hz : start + log.length - (start + j) = 0 := eq_zero_of_dvd_of_lt hd (by omega)
      obtain rfl : j = log.length := by omega
      simpa using hj
  · rw [update_of_ne hi, h.cells]
    constructor
    · rintro ⟨j, hj, hn, rfl⟩
      have hlt : j < log.length := (List.getElem?_eq_some_iff.1 hj).1
      refine ⟨j, by rw [getElem?_append_left hlt]; exact hj, ?_, rfl⟩
      by_contra hold
      have hlen : start + log.length = start + j + capacity := by omega
      exact hi (by rw [hlen, add_mod_right])
    · rintro ⟨j, hj, hn, rfl⟩
      have hlt : j < log.length := by
        by_contra hge
        have := (List.getElem?_eq_some_iff.1 hj).1
        rw [length_append, length_singleton] at this
        exact hi (by rw [show j = log.length by omega])
      exact ⟨j, by rwa [getElem?_append_left hlt] at hj, by omega, rfl⟩

/-! ## Rows of cells -/

variable {rows columns next : ℕ} {cell : ℕ → ℕ → Option α}

def ofRows (rows columns next : ℕ) (cell : ℕ → ℕ → Option α) : LogRing α where
  next := next
  cells i := if i < columns * rows then cell (i / columns) (i % columns) else none

theorem eq_mod_iff {i : ℕ} (hi : i < columns * rows) :
    i = next % (columns * rows) ↔ i / columns = next / columns % rows ∧
      i % columns = next % columns := by
  constructor
  · rintro rfl
    exact ⟨mod_mul_right_div_self .., mod_mul_right_mod ..⟩
  · rintro ⟨hdiv, hmod⟩
    rw [mod_mul, ← hdiv, ← hmod, mod_add_div]

theorem cells_ofRows {row column : ℕ} (hr : row < rows) (hc : column < columns) :
    (ofRows rows columns next cell).cells (columns * row + column) = cell row column := by
  have hlt : columns * row + column < columns * rows :=
    calc columns * row + column < columns * (row + 1) := by rw [mul_add_one]; omega
      _ ≤ columns * rows := mul_le_mul_left _ hr
  have hdiv : (columns * row + column) / columns = row := by
    rw [mul_add_div (by omega), div_eq_of_lt hc, add_zero]
  have hmod : (columns * row + column) % columns = column := by
    rw [mul_add_mod, mod_eq_of_lt hc]
  simp only [ofRows, if_pos hlt, hdiv, hmod]

theorem ofRows_push (hpos : 0 < columns * rows) {cell' : ℕ → ℕ → Option α}
    (hc : ∀ row column, cell' row column =
      if row = next / columns % rows ∧ column = next % columns then some a else cell row column) :
    ofRows rows columns (next + 1) cell' =
      (ofRows rows columns next cell).push (columns * rows) a := by
  ext i
  · rfl
  simp only [ofRows, push, hc]
  by_cases hi : i = next % (columns * rows)
  · have hlt : i < columns * rows := hi ▸ mod_lt _ hpos
    subst hi
    rw [update_self, if_pos hlt, if_pos ((eq_mod_iff hlt).1 rfl)]
  · rw [update_of_ne hi]
    split
    · rename_i hlt
      rw [if_neg (fun h => hi ((eq_mod_iff hlt).2 h))]
    · rfl

end LogRing

end Foundation
