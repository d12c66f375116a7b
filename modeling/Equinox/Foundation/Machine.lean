import Equinox.Foundation.Result

/-! # Machine integers

Values whose width decides an ordering carry their range in the type. The other
integers are unbounded here, and the operations that the program checks for
overflow test the range explicitly.
-/

namespace Foundation

abbrev U64 := Fin (2 ^ 64)

instance U64.instNeZero : NeZero (2 ^ 64) := ⟨by decide⟩

abbrev I64 := {x : ℤ // -2 ^ 63 ≤ x ∧ x < 2 ^ 63}

instance I64.instOfNat (n : ℕ) : OfNat I64 n := ⟨(n % 2 ^ 63 : ℕ), by omega⟩

def I64.checkedAdd (a b : I64) : Option I64 :=
  if h : -2 ^ 63 ≤ a.val + b.val ∧ a.val + b.val < 2 ^ 63 then some ⟨a.val + b.val, h⟩ else none

theorem I64.checkedAdd_eq_some {a b c : I64} (h : a.checkedAdd b = some c) :
    c.val = a.val + b.val := by
  unfold checkedAdd at h
  split at h <;> simp_all [← Subtype.val_inj]

theorem I64.exists_checkedAdd {a b : I64} :
    (∃ c, a.checkedAdd b = some c) ↔ -2 ^ 63 ≤ a.val + b.val ∧ a.val + b.val < 2 ^ 63 := by
  unfold checkedAdd
  split
  · rename_i h
    exact iff_of_true ⟨_, rfl⟩ h
  · rename_i h
    exact iff_of_false (by simp) h

theorem I64.exists_checkedAdd_of_pos {a b : I64} (ha : 0 < a.val) :
    (∃ c, a.checkedAdd b = some c) ↔ a.val + b.val < 2 ^ 63 := by
  have hb := b.property.1
  rw [exists_checkedAdd]
  exact ⟨And.right, fun h => ⟨by omega, h⟩⟩

def I64.wrap (x : ℤ) : I64 :=
  ⟨x.bmod (2 ^ 64), by
    have hlow := Int.le_bmod (x := x) (m := 2 ^ 64) (by decide)
    have hhigh := Int.bmod_lt (x := x) (m := 2 ^ 64) (by decide)
    omega⟩

theorem I64.wrap_val {x : ℤ} (h : -2 ^ 63 ≤ x ∧ x < 2 ^ 63) : (I64.wrap x).val = x :=
  Int.bmod_eq_of_le (by omega) (by omega)

def U64.checkedSucc (a : U64) : Option U64 :=
  if h : a.val + 1 < 2 ^ 64 then some ⟨a.val + 1, h⟩ else none

theorem U64.checkedSucc_eq_some {a b : U64} (h : a.checkedSucc = some b) : b.val = a.val + 1 := by
  unfold checkedSucc at h
  split at h <;> simp_all [← Fin.val_inj]

def InI128 (x : ℤ) : Prop := -2 ^ 127 ≤ x ∧ x < 2 ^ 127

instance (x : ℤ) : Decidable (InI128 x) := inferInstanceAs (Decidable (_ ∧ _))

section Checked

variable {ε : Type} {e : ε}

/-- A signed 128-bit result, or the error an overflow is reported with. -/
def checkedI128 (e : ε) (x : ℤ) : Except ε ℤ := if InI128 x then .ok x else .error e

@[simp] theorem checkedI128_eq_ok {x y : ℤ} : checkedI128 e x = .ok y ↔ InI128 x ∧ x = y := by
  unfold checkedI128; split <;> simp [*]

/-- An unsigned 64-bit result, or the error an overflow is reported with. -/
def checkedU64 (e : ε) (x : ℕ) : Except ε ℕ := if x < 2 ^ 64 then .ok x else .error e

@[simp] theorem checkedU64_eq_ok {x y : ℕ} : checkedU64 e x = .ok y ↔ x < 2 ^ 64 ∧ x = y := by
  unfold checkedU64; split <;> simp only [*, Except.ok.injEq, true_and, false_and, reduceCtorEq]

theorem exists_checkedI128 {x : ℤ} {q : ℤ → Prop} :
    (∃ y, checkedI128 e x = .ok y ∧ q y) ↔ InI128 x ∧ q x := by
  simp only [checkedI128_eq_ok, and_assoc, exists_and_left, exists_eq_left']

theorem exists_checkedU64 {x : ℕ} {q : ℕ → Prop} :
    (∃ y, checkedU64 e x = .ok y ∧ q y) ↔ x < 2 ^ 64 ∧ q x := by
  simp only [checkedU64_eq_ok, and_assoc, exists_and_left, exists_eq_left']

end Checked

end Foundation
