import Mathlib

/-! # Intrusive lists

A list threaded through the cells of a memory: `Linked next nil h l` says that
the links from `h` visit the handles of `l` in order and end at `nil`.
-/

namespace Foundation

variable {next next' : ℕ → ℕ → Prop} {nil h : ℕ} {l : List ℕ}

def Linked (next : ℕ → ℕ → Prop) (nil : ℕ) : ℕ → List ℕ → Prop
  | h, [] => h = nil
  | h, i :: rest => h = i ∧ i ≠ nil ∧ ∃ j, next i j ∧ Linked next nil j rest

theorem Linked.congr (hl : Linked next nil h l) (hn : ∀ i ∈ l, ∀ j, next i j → next' i j) :
    Linked next' nil h l := by
  induction l generalizing h with
  | nil => exact hl
  | cons i rest ih =>
    obtain ⟨rfl, hne, j, hj, hr⟩ := hl
    exact ⟨rfl, hne, j, hn h (by simp) j hj, ih hr fun k hk => hn k (by simp [hk])⟩

theorem Linked.eq_nil (hl : Linked next nil nil l) : l = [] := by
  cases l with
  | nil => rfl
  | cons i rest => exact absurd hl.1.symm hl.2.1

theorem Linked.exists_next (hl : Linked next nil h l) {i : ℕ} (hi : i ∈ l) : ∃ j, next i j := by
  induction l generalizing h with
  | nil => simp at hi
  | cons k rest ih =>
    obtain ⟨rfl, -, j, hj, hr⟩ := hl
    rcases List.mem_cons.1 hi with rfl | hi
    · exact ⟨j, hj⟩
    · exact ih hr hi

end Foundation
