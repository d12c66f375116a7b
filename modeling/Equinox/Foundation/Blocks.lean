import Mathlib

/-! # Lists cut into blocks

A range as equal blocks one after the other, a search for the only element that
passes, and a list that is decoded entry by entry.
-/

namespace Foundation

open List Nat

variable {α β : Type*}

theorem range_mul (m n : ℕ) :
    (range m).flatMap (fun p => (range n).map (p * n + ·)) = range (m * n) := by
  induction m with
  | zero => simp
  | succ m ih =>
    rw [range_succ, flatMap_append, ih, succ_mul, range_add]
    simp

theorem block_div {index slot size : ℕ} (h : slot < size) :
    (index * size + slot) / size = index := by
  rw [mul_comm, mul_add_div (zero_lt_of_lt h), div_eq_of_lt h, add_zero]

theorem block_mod {index slot size : ℕ} (h : slot < size) :
    (index * size + slot) % size = slot := by
  rw [mul_comm, mul_add_mod, mod_eq_of_lt h]

theorem block_lt {index slot size blocks : ℕ} (hi : index < blocks) (hs : slot < size) :
    index * size + slot < blocks * size :=
  calc index * size + slot < index * size + size := by omega
    _ = (index + 1) * size := (succ_mul _ _).symm
    _ ≤ blocks * size := mul_le_mul_right _ hi

theorem take_drop_flatMap_range {f : ℕ → List α} {i m n : ℕ} (hf : ∀ j, (f j).length = n)
    (hi : i < m) : (((range m).flatMap f).drop (i * n)).take n = f i := by
  obtain ⟨r, rfl⟩ := Nat.exists_eq_add_of_lt hi
  have hs : (range (i + r + 1)).flatMap f =
      (range i).flatMap f ++ (f i ++ (range r).flatMap fun j => f (i + (1 + j))) := by
    rw [show i + r + 1 = i + (1 + r) by omega, range_add, range_add, flatMap_append]
    simp [flatMap_map, Function.comp_def]
  have hb : ((range i).flatMap f).length = i * n := by
    simp [length_flatMap, hf]
  rw [hs, drop_left' hb, take_left' (hf i)]

theorem find?_eq_some_of_unique {p : α → Bool} {l : List α} {a : α} (ha : a ∈ l) (hp : p a = true)
    (hu : ∀ c ∈ l, p c = true → c = a) : l.find? p = some a := by
  cases hf : l.find? p with
  | none => exact absurd hp (find?_eq_none.1 hf a ha)
  | some c => rw [hu c (mem_of_find?_eq_some hf) (find?_some hf)]

theorem mapM_eq_some_map {f : α → Option β} {g : α → β} {l : List α}
    (h : ∀ a ∈ l, f a = some (g a)) : l.mapM f = some (l.map g) := by
  induction l with
  | nil => rfl
  | cons a l ih =>
    rw [mapM_cons, h a mem_cons_self, ih fun a' ha' => h a' (mem_cons_of_mem _ ha')]
    rfl

end Foundation
