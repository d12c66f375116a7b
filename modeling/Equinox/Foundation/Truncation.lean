import Mathlib

/-! # Truncating division of sums

Division that rounds towards zero, of the parts of a sum and of the whole. The
quotients of parts of one sign fall short of the quotient of the whole by less
than one unit a part. Parts of both signs that add up to zero leave the sum of
their remainders, which the positive parts bound.
-/

namespace Foundation

open List Int

variable {s : ℤ} {l : List ℤ}

theorem tdiv_add_of_nonneg (hs : 0 < s) {a b : ℤ} (ha : 0 ≤ a) (hb : 0 ≤ b) :
    a.tdiv s + b.tdiv s ≤ (a + b).tdiv s ∧ (a + b).tdiv s ≤ a.tdiv s + b.tdiv s + 1 := by
  rw [tdiv_eq_ediv_of_nonneg ha, tdiv_eq_ediv_of_nonneg hb,
    tdiv_eq_ediv_of_nonneg (add_nonneg ha hb)]
  have ha' := mul_ediv_add_emod a s
  have hb' := mul_ediv_add_emod b s
  have hra := emod_nonneg a hs.ne'
  have hrb := emod_nonneg b hs.ne'
  have hra' := emod_lt_of_pos a hs
  have hrb' := emod_lt_of_pos b hs
  constructor
  · rw [Int.le_ediv_iff_mul_le hs]
    nlinarith
  · rw [← lt_add_one_iff]
    refine Int.ediv_lt_of_lt_mul hs ?_
    nlinarith

/-- Quotients of two parts of one sign have that sign, and together stay within the quotient of
the whole. -/
theorem tdiv_add_cases (hs : 0 < s) {a b : ℤ} (h : (0 ≤ a ∧ 0 ≤ b) ∨ (a ≤ 0 ∧ b ≤ 0)) :
    (0 ≤ a.tdiv s ∧ 0 ≤ b.tdiv s ∧ a.tdiv s + b.tdiv s ≤ (a + b).tdiv s) ∨
      (a.tdiv s ≤ 0 ∧ b.tdiv s ≤ 0 ∧ (a + b).tdiv s ≤ a.tdiv s + b.tdiv s) := by
  rcases h with ⟨ha, hb⟩ | ⟨ha, hb⟩
  · exact .inl ⟨Int.tdiv_nonneg ha hs.le, Int.tdiv_nonneg hb hs.le, (tdiv_add_of_nonneg hs ha hb).1⟩
  · have ha' : 0 ≤ -a := by omega
    have hb' : 0 ≤ -b := by omega
    have hle := (tdiv_add_of_nonneg hs ha' hb').1
    have hqa := Int.tdiv_nonneg ha' hs.le
    have hqb := Int.tdiv_nonneg hb' hs.le
    rw [← neg_add] at hle
    rw [Int.neg_tdiv] at hle hqa hqb
    rw [Int.neg_tdiv, Int.neg_tdiv] at hle
    exact .inr ⟨by omega, by omega, by omega⟩

theorem sum_tdiv_of_nonneg (hs : 0 < s) (h : ∀ a ∈ l, 0 ≤ a) :
    (l.map (·.tdiv s)).sum ≤ l.sum.tdiv s ∧
      l.sum.tdiv s ≤ (l.map (·.tdiv s)).sum + (l.length - 1 : ℕ) := by
  induction l with
  | nil => simp
  | cons a l ih =>
    have hl : ∀ b ∈ l, 0 ≤ b := fun b hb => h b (mem_cons_of_mem a hb)
    obtain ⟨hle, hge⟩ := ih hl
    obtain ⟨hle', hge'⟩ := tdiv_add_of_nonneg hs (h a mem_cons_self) (sum_nonneg hl)
    simp only [map_cons, sum_cons, length_cons, Nat.add_sub_cancel]
    refine ⟨by omega, ?_⟩
    rcases l with _ | ⟨b, l⟩
    · simp
    · simp only [length_cons, Nat.add_sub_cancel] at hge ⊢
      push_cast at hge ⊢
      omega

/-- Parts of one sign: their quotients come to no more than the quotient of the whole, and miss it
by at most one unit for each part after the first. -/
theorem sum_tdiv_of_same_sign (hs : 0 < s) (h : (∀ a ∈ l, 0 ≤ a) ∨ ∀ a ∈ l, a ≤ 0) :
    |l.sum.tdiv s - (l.map (·.tdiv s)).sum| ≤ (l.length - 1 : ℕ) ∧
      |(l.map (·.tdiv s)).sum| ≤ |l.sum.tdiv s| := by
  -- the nonpositive case is the other one for the negated parts
  have hpos {l : List ℤ} (h : ∀ a ∈ l, 0 ≤ a) :
      |l.sum.tdiv s - (l.map (·.tdiv s)).sum| ≤ (l.length - 1 : ℕ) ∧
        |(l.map (·.tdiv s)).sum| ≤ |l.sum.tdiv s| := by
    obtain ⟨hle, hge⟩ := sum_tdiv_of_nonneg hs h
    have hn : 0 ≤ (l.map (·.tdiv s)).sum := by
      refine sum_nonneg fun b hb => ?_
      obtain ⟨a, ha, rfl⟩ := mem_map.1 hb
      exact Int.tdiv_nonneg (h a ha) hs.le
    rw [abs_of_nonneg (sub_nonneg.2 hle), abs_of_nonneg hn, abs_of_nonneg (hn.trans hle)]
    exact ⟨by omega, hle⟩
  rcases h with h | h
  · exact hpos h
  · have hneg : ∀ a ∈ l.map Neg.neg, 0 ≤ a := by
      intro b hb
      obtain ⟨a, ha, rfl⟩ := mem_map.1 hb
      have := h a ha
      omega
    have hsum : (l.map Neg.neg).sum = -l.sum := (sum_neg l).symm
    have hm : ((l.map Neg.neg).map (·.tdiv s)).sum = -(l.map (·.tdiv s)).sum := by
      rw [sum_neg, map_map, map_map]
      exact congrArg sum (map_congr_left fun a _ => Int.neg_tdiv a s)
    have := hpos hneg
    rwa [hm, hsum, Int.neg_tdiv, length_map, abs_neg, abs_neg, ← neg_add', abs_neg,
      ← sub_eq_add_neg] at this

theorem mul_sum_tdiv (h : l.sum = 0) : s * (l.map (·.tdiv s)).sum = -(l.map (·.tmod s)).sum := by
  have hs : s * (l.map (·.tdiv s)).sum + (l.map (·.tmod s)).sum = l.sum := by
    clear h
    induction l with
    | nil => simp
    | cons a l ih =>
      have ha := mul_tdiv_add_tmod a s
      simp only [map_cons, sum_cons, mul_add]
      omega
  omega

theorem sum_tmod_le (hs : 0 < s) : (l.map (·.tmod s)).sum ≤ (l.countP (0 < ·) : ℤ) * (s - 1) := by
  induction l with
  | nil => simp
  | cons a l ih =>
    rw [map_cons, sum_cons, countP_cons]
    rcases lt_or_ge 0 a with ha | ha
    · have hmod := tmod_lt_of_pos a hs
      rw [if_pos (decide_eq_true ha)]
      push_cast
      linarith
    · have hmod : a.tmod s ≤ 0 := by
        have := tmod_nonneg s (neg_nonneg.2 ha)
        rw [neg_tmod] at this
        omega
      rw [if_neg (by simpa using ha), add_zero]
      linarith

end Foundation
