import Equinox.Book.Plan

/-! # How far a walk reaches

A walk uses the makers whose price the taker reaches, best first, until its room
or its quantity runs out. If something of the quantity is left, the walk has used
all of them that fit, and filled each one whole.
-/

namespace Equinox

open Foundation CritBit List

namespace PagedBookV3

variable {b : PagedBookV3} {taker : Taker} {oracle : Option I64} {now room remaining : ℕ}
  {x : Maker} {xs : List Maker} {use : Use} {uses : List (Maker × Use)}

def filledIn : Maker × Use → ℕ
  | (_, .filled quantity) => quantity
  | _ => 0

def Taker.reached (taker : Taker) (xs : List Maker) : List Maker :=
  xs.takeWhile fun x => crosses taker.side taker.price.val x.price.val

/-- How much of a taker a maker can take away. Its own orders do so only if they are decremented. -/
def Taker.takes (taker : Taker) (x : Maker) : ℕ :=
  if x.leaf.owner = taker.owner ∧ taker.selfTradeBehavior ≠ .decrementTake then 0
  else x.leaf.quantity

theorem Taker.reached_cons (h : crosses taker.side taker.price.val x.price.val = true) :
    taker.reached (x :: xs) = x :: taker.reached xs := takeWhile_cons_of_pos h

namespace Taker.Walk

variable (h : taker.Walk room remaining xs uses)

include h

theorem consumed_eq {u : Maker × Use} (hu : u ∈ uses) : consumed u = taker.takes u.1 := by
  induction h with
  | full | done | ended | stopped => simp at hu
  | passed _ _ _ behavior _ ih =>
    rcases mem_cons.1 hu with rfl | hu
    · simp [consumed, takes, behavior]
    · exact ih hu
  | cancelled _ _ own behavior _ ih =>
    rcases mem_cons.1 hu with rfl | hu
    · simp [consumed, takes, own, behavior]
    · exact ih hu
  | filled _ _ other _ ih =>
    rcases mem_cons.1 hu with rfl | hu
    · simp [consumed, takes, other]
    · exact ih hu

theorem passed_iff (hu : (x, use) ∈ uses) : use = .passed ↔
    x.leaf.owner = taker.owner ∧ taker.selfTradeBehavior = .decrementTake := by
  induction h with
  | full | done | ended | stopped => simp at hu
  | passed _ _ own behavior _ ih =>
    rcases mem_cons.1 hu with heq | hu
    · obtain ⟨rfl, rfl⟩ := Prod.mk.inj heq
      exact iff_of_true rfl ⟨own, behavior⟩
    · exact ih hu
  | cancelled _ _ _ behavior _ ih =>
    rcases mem_cons.1 hu with heq | hu
    · obtain ⟨rfl, rfl⟩ := Prod.mk.inj heq
      exact iff_of_false (by simp) (by simp [behavior])
    · exact ih hu
  | filled _ _ other _ ih =>
    rcases mem_cons.1 hu with heq | hu
    · obtain ⟨rfl, rfl⟩ := Prod.mk.inj heq
      exact iff_of_false (by simp) (by simp [other])
    · exact ih hu

theorem isPrefix_reached : uses.map Prod.fst <+: (taker.reached xs).take room := by
  induction h with
  | full | done | ended | stopped => exact nil_prefix
  | passed _ reached _ _ _ ih | cancelled _ reached _ _ _ ih | filled _ reached _ _ ih =>
    rw [reached_cons reached, take_succ_cons]
    exact cons_prefix_cons.2 ⟨rfl, ih⟩

theorem map_fst_eq (hm : (uses.map consumed).sum < remaining) :
    uses.map Prod.fst = (taker.reached xs).take room := by
  induction h with
  | full => simp
  | done => simp at hm
  | ended => simp [reached]
  | stopped beyond => simp [reached, beyond]
  | passed _ reached _ _ _ ih | filled _ reached _ _ ih =>
    rw [reached_cons reached, take_succ_cons, map_cons]
    simp only [map_cons, sum_cons, consumed] at hm
    rw [ih (by omega)]
  | cancelled _ reached _ _ _ ih =>
    rw [reached_cons reached, take_succ_cons, map_cons]
    simp only [map_cons, sum_cons, consumed] at hm
    rw [ih (by omega)]

theorem filled_eq (hm : (uses.map consumed).sum < remaining) {n : ℕ}
    (hu : (x, .filled n) ∈ uses) : n = x.leaf.quantity := by
  induction h with
  | full | done | ended | stopped => simp at hu
  | passed _ _ _ _ _ ih =>
    simp only [map_cons, sum_cons, consumed] at hm
    exact ih (by omega) (by simpa using hu)
  | cancelled _ _ _ _ _ ih =>
    simp only [map_cons, sum_cons, consumed] at hm
    exact ih (by omega) (by simpa using hu)
  | filled _ _ _ _ ih =>
    simp only [map_cons, sum_cons, consumed] at hm
    rcases mem_cons.1 hu with heq | hu
    · simp only [Prod.mk.injEq, Use.filled.injEq] at heq
      obtain ⟨rfl, rfl⟩ := heq
      omega
    · exact ih (by omega) hu

theorem filled_other {n : ℕ} (hu : (x, .filled n) ∈ uses) : x.leaf.owner ≠ taker.owner :=
  (h.filled_of_mem hu).1

theorem filled_ne {n : ℕ} (hx : x.leaf.quantity ≠ 0) (hu : (x, .filled n) ∈ uses) : n ≠ 0 := by
  obtain ⟨-, wanted, hw, rfl⟩ := h.filled_of_mem hu
  omega

theorem filled_sum_le : (uses.map filledIn).sum ≤ remaining := by
  induction h with
  | full | done | ended | stopped => simp
  | passed _ _ _ _ _ ih | cancelled _ _ _ _ _ ih | filled _ _ _ _ ih =>
    simp only [map_cons, sum_cons, filledIn]
    omega

theorem exhausted_iff : remaining ≤ (uses.map consumed).sum ↔
    remaining ≤ (((taker.reached xs).take room).map taker.takes).sum := by
  have hsum : (uses.map consumed).sum = ((uses.map Prod.fst).map taker.takes).sum := by
    rw [map_map]
    exact congrArg sum (map_congr_left fun u hu => h.consumed_eq hu)
  constructor
  · intro hle
    obtain ⟨rest, hr⟩ := h.isPrefix_reached
    rw [hsum] at hle
    rw [← hr, map_append, sum_append]
    omega
  · intro hle
    by_contra hm
    rw [not_le] at hm
    rw [← h.map_fst_eq hm, ← hsum] at hle
    omega

end Taker.Walk

/-! ## Makers in order -/

theorem crosses_of_rank_le {side : Side} {price : ℤ} {y : Maker} (hx : 0 < x.price.val)
    (hy : 0 < y.price.val) (hr : x.rank side.opposite ≤ y.rank side.opposite)
    (h : crosses side price y.price.val = true) : crosses side price x.price.val = true := by
  have hlt : (x.rank side.opposite).val ≤ (y.rank side.opposite).val := hr
  have hxs := x.leaf.sequence.isLt
  have hys := y.leaf.sequence.isLt
  have hxp := x.price.property
  have hyp := y.price.property
  cases side with
  | bid =>
    simp only [Maker.rank, packKey, priceWord, Side.opposite] at hlt
    simp only [crosses, decide_eq_true_eq] at h ⊢
    omega
  | ask =>
    simp only [Maker.rank, packKey, priceWord, Side.opposite] at hlt
    simp only [crosses, decide_eq_true_eq] at h ⊢
    omega

theorem Taker.mem_reached (taker : Taker) (hs : b.DistinctSequences) :
    x ∈ taker.reached (b.makers taker.side.opposite oracle now) ↔
      x ∈ b.makers taker.side.opposite oracle now ∧
        crosses taker.side taker.price.val x.price.val = true := by
  have hpos : ∀ y ∈ b.makers taker.side.opposite oracle now, 0 < y.price.val := fun y hy =>
    (executablePrice_eq_some (mem_makers.1 hy).2).1
  refine mem_takeWhile_iff ((makers_sorted hs).imp_of_mem fun {y z} hy hz hr => ?_)
  exact crosses_of_rank_le (hpos y hy) (hpos z hz) hr.le

end PagedBookV3

end Equinox
