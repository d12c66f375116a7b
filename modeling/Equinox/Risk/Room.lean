import Equinox.Risk.Fill

/-! # When the arithmetic of a seat fits

The operations on a seat fail where an intermediate result leaves the signed
128-bit range. These are the exact conditions for settling funding, for the
health check and for closing a part of a position.
-/

namespace Equinox

open Foundation TraderSeat

namespace TraderSeat

variable (seat : TraderSeat)

/-- What the seat owes for the funding since it was last settled. -/
def fundingOwed (accumulator : ℤ) : ℤ :=
  (seat.basePosition * (accumulator - seat.lastFundingAccumulator)).tdiv Risk.fundingScale

def settledAt (accumulator : ℤ) : TraderSeat :=
  { seat with
    realizedPnl := seat.realizedPnl - seat.fundingOwed accumulator
    lastFundingAccumulator := accumulator }

def maintenance (mark : ℤ) (bps : ℕ) : ℤ := Risk.bpsOf (|seat.basePosition| * mark) bps

/-- The part of the entry value that belongs to a part of the position. -/
def allocated (q : ℤ) : ℤ := (seat.quoteEntryValue * q).tdiv |seat.basePosition|

/-- The profit realized by closing a part of the position. -/
def closingGain (q price : ℤ) : ℤ :=
  if 0 < seat.basePosition then q * price - seat.allocated q else -seat.allocated q - q * price

def closingPosition (q : ℤ) : ℤ :=
  if 0 < seat.basePosition then seat.basePosition - q else seat.basePosition + q

/-- The seat after closing a part of its position for a fee. -/
def closing (q price charged : ℤ) : TraderSeat :=
  { seat with
    basePosition := seat.closingPosition q
    quoteEntryValue :=
      if seat.closingPosition q = 0 then 0 else seat.quoteEntryValue - seat.allocated q
    realizedPnl := seat.realizedPnl - charged + seat.closingGain q price }

end TraderSeat

namespace Risk

variable {seat seat' : TraderSeat} {acc mark price q c charged : ℤ} {bps : ℕ}

/-! ## Funding -/

structure Settles (seat : TraderSeat) (accumulator : ℤ) : Prop where
  delta : InI128 (accumulator - seat.lastFundingAccumulator)
  product : InI128 (seat.basePosition * (accumulator - seat.lastFundingAccumulator))
  pnl : InI128 (seat.realizedPnl - seat.fundingOwed accumulator)

theorem settleFunding_iff : settleFunding seat acc = .ok (c, seat') ↔
    Settles seat acc ∧ seat.fundingOwed acc = c ∧ seat.settledAt acc = seat' := by
  simp only [settleFunding, sub, mul, ok_rules, exists_checkedI128, Prod.mk.injEq]
  constructor
  · rintro ⟨hd, hpr, hp, hc, hs⟩
    exact ⟨⟨hd, hpr, hp⟩, hc, hs⟩
  · rintro ⟨⟨hd, hpr, hp⟩, hc, hs⟩
    exact ⟨hd, hpr, hp, hc, hs⟩

/-! ## Health -/

/-- Equity and maintenance margin can be computed. -/
structure Assessable (seat : TraderSeat) (mark : ℤ) (bps : ℕ) : Prop where
  size : InI128 |seat.basePosition|
  notional : InI128 (|seat.basePosition| * mark)
  margin : InI128 (|seat.basePosition| * mark * bps)
  cash : InI128 (seat.availableCollateral + seat.realizedPnl)
  current : InI128 (seat.basePosition * mark)
  unrealized : InI128 (seat.basePosition * mark -
    if seat.basePosition = 0 then 0 else seat.quoteEntryValue)
  value : InI128 (seat.value mark)

theorem equity_iff (hm : 0 < mark) : equity seat mark = .ok c ↔
    InI128 (seat.availableCollateral + seat.realizedPnl) ∧ InI128 (seat.basePosition * mark) ∧
      InI128 (seat.basePosition * mark - if seat.basePosition = 0 then 0 else
        seat.quoteEntryValue) ∧ InI128 (seat.value mark) ∧ seat.value mark = c := by
  simp only [equity, unrealizedPnl, add, sub, mul, ok_rules, exists_checkedI128, hm, true_and]
  simp only [checkedI128_eq_ok]
  constructor
  · rintro ⟨hc, _, ⟨hcu, hun, rfl⟩, hv⟩
    exact ⟨hc, hcu, hun, hv⟩
  · rintro ⟨hc, hcu, hun, hv⟩
    exact ⟨hc, _, ⟨hcu, hun, rfl⟩, hv⟩

theorem isLiquidatable_iff (hma : 0 < mark) {liquidatable : Bool} :
    isLiquidatable seat mark bps = .ok liquidatable ↔ Assessable seat mark bps ∧
      decide (seat.value mark < seat.maintenance mark bps) = liquidatable := by
  have hsi := abs_nonneg seat.basePosition
  simp only [isLiquidatable, maintenanceRequirement, maintenanceMargin, abs, ok_rules,
    exists_checkedI128, notional_eq_ok, fee_eq_ok, equity_iff hma, hma, hsi, true_and]
  constructor
  · rintro ⟨_, ⟨hs, _, ⟨hn, rfl⟩, hm, rfl⟩, _, ⟨hc, hcu, hun, hv, rfl⟩, h⟩
    exact ⟨⟨hs, hn, hm, hc, hcu, hun, hv⟩, h⟩
  · rintro ⟨⟨hs, hn, hm, hc, hcu, hun, hv⟩, h⟩
    exact ⟨_, ⟨hs, _, ⟨hn, rfl⟩, hm, rfl⟩, _, ⟨hc, hcu, hun, hv, rfl⟩, h⟩

theorem partialLiquidationQuantity_iff (hm : 0 < mark)
    (hl : isLiquidatable seat mark bps = .ok true) :
    partialLiquidationQuantity seat mark bps = .ok c ↔ max (|seat.basePosition|.tdiv 2) 1 = c := by
  have hs := ((isLiquidatable_iff hm).1 hl).1.size
  simp only [partialLiquidationQuantity, hl, ok_bind, if_true, abs, ok_rules, exists_checkedI128,
    hs, true_and]

theorem setLiquidationState_iff (hm : 0 < mark) :
    setLiquidationState seat mark bps = .ok seat' ↔ Assessable seat mark bps ∧
      { seat with liquidationState :=
          if seat.value mark < seat.maintenance mark bps then .liquidatable else .healthy } =
        seat' := by
  simp only [setLiquidationState, ok_rules, isLiquidatable_iff hm]
  constructor
  · rintro ⟨_, ⟨h, rfl⟩, rfl⟩
    exact ⟨h, by simp⟩
  · rintro ⟨h, rfl⟩
    exact ⟨_, ⟨h, rfl⟩, by simp⟩

/-! ## Closing a part of a position -/

structure Closes (seat : TraderSeat) (q price : ℤ) (bps : ℕ) : Prop where
  size : InI128 |seat.basePosition|
  notional : InI128 (q * price)
  fee : InI128 (q * price * bps)
  product : InI128 (seat.quoteEntryValue * q)
  negated : 0 < seat.basePosition ∨ InI128 (-seat.allocated q)
  gain : InI128 (seat.closingGain q price)
  entry : seat.closingPosition q = 0 ∨ InI128 (seat.quoteEntryValue - seat.allocated q)
  charged : InI128 (seat.realizedPnl - bpsOf (q * price) bps)
  pnl : InI128 (seat.realizedPnl - bpsOf (q * price) bps + seat.closingGain q price)

theorem closed_entry_eq_ok {b x y r : ℤ} {t : ℤ × ℤ × ℤ} : (if b = 0 then do
        let entry ← pure 0
        pure (b, entry, r)
      else do
        let entry ← sub x y
        pure (b, entry, r) : Except RiskError (ℤ × ℤ × ℤ)) = .ok t ↔
      (b = 0 ∨ InI128 (x - y)) ∧ (b, if b = 0 then 0 else x - y, r) = t := by
  split
  · simp [*]
  · simp [*]

section Closing

variable (hq : 0 < q) (hle : q ≤ |seat.basePosition|)

include hq hle

theorem inI128_closingPosition (hsi : InI128 |seat.basePosition|) :
    InI128 (seat.closingPosition q) := by
  obtain ⟨-, hlt⟩ := hsi
  unfold closingPosition
  split
  · rename_i hl
    rw [abs_of_pos hl] at hlt hle
    constructor <;> omega
  · rename_i hs
    rw [abs_of_nonpos (not_lt.1 hs)] at hlt hle
    constructor <;> omega

theorem decrease_close_iff {b e r : ℤ} (hs : InI128 |seat.basePosition|) :
    decrease seat (if 0 < seat.basePosition then -q else q) |seat.basePosition| q price =
        .ok (b, e, r) ↔
      InI128 (seat.quoteEntryValue * q) ∧ InI128 (q * price) ∧
      (0 < seat.basePosition ∨ InI128 (-seat.allocated q)) ∧ InI128 (seat.closingGain q price) ∧
      (seat.closingPosition q = 0 ∨ InI128 (seat.quoteEntryValue - seat.allocated q)) ∧
      seat.closingPosition q = b ∧
      (if seat.closingPosition q = 0 then 0 else seat.quoteEntryValue - seat.allocated q) = e ∧
      seat.closingGain q price = r := by
  have hmin : min |seat.basePosition| q = q := min_eq_right hle
  have hz : InI128 0 := by decide
  have hp := inI128_closingPosition hq hle hs
  by_cases hl : 0 < seat.basePosition
  · simp only [closingPosition, if_pos hl] at hp
    simp only [decrease, hmin, hl, if_true, sub_self, sub, mul, bind_eq_ok, exists_checkedI128,
      hz, hp, true_or, true_and, closingPosition, closingGain]
    rw [← sub, closed_entry_eq_ok]
    simp only [allocated, Prod.mk.injEq]
  · simp only [closingPosition, if_neg hl] at hp
    simp only [decrease, hmin, hl, if_false, sub_self, sub, add, mul, bind_eq_ok,
      exists_checkedI128, hz, hp, if_true, false_or, true_and, closingPosition, closingGain]
    rw [← sub, closed_entry_eq_ok]
    simp only [allocated, Prod.mk.injEq]

/-- Closing a part of a position succeeds exactly within these bounds. -/
theorem applyFill_close_iff (hpr : 0 < price) :
    applyFill seat (if 0 < seat.basePosition then -q else q) price bps = .ok (charged, seat') ↔
      Closes seat q price bps ∧ bpsOf (q * price) bps = charged ∧
        seat.closing q price charged = seat' := by
  have ha : |if 0 < seat.basePosition then -q else q| = q := by
    split
    · rw [abs_neg, abs_of_pos hq]
    · rw [abs_of_pos hq]
  have hfl : seat.basePosition ≠ 0 := by
    rintro h0
    rw [h0, abs_zero] at hle
    omega
  have hsi : ¬(seat.basePosition = 0 ∨
      (0 < seat.basePosition ∧ 0 < if 0 < seat.basePosition then -q else q) ∨
      (seat.basePosition < 0 ∧ (if 0 < seat.basePosition then -q else q) < 0)) := by
    split <;> omega
  simp only [applyFill, ok_rules, abs, exists_checkedI128, ha, notional_eq_ok, fee_eq_ok, hpr,
    true_and, if_neg hsi]
  constructor
  · rintro ⟨hs, -, _, ⟨-, hn, rfl⟩, _, ⟨hf, rfl⟩, ⟨b, e, r⟩, hm, h⟩
    obtain ⟨hp, -, hneg, hg, he, rfl, rfl, rfl⟩ := (decrease_close_iff hq hle hs).1 hm
    simp only [sub, add, exists_checkedI128, Prod.mk.injEq] at h
    obtain ⟨hc, hpnl, rfl, rfl⟩ := h
    exact ⟨⟨hs, hn, hf, hp, hneg, hg, he, hc, hpnl⟩, rfl, rfl⟩
  · rintro ⟨⟨hs, hn, hf, hp, hneg, hg, he, hc, hpnl⟩, rfl, rfl⟩
    have hm : decrease seat (if 0 < seat.basePosition then -q else q) |seat.basePosition| q
        price = _ := (decrease_close_iff hq hle hs).2 ⟨hp, hn, hneg, hg, he, rfl, rfl, rfl⟩
    have hqs : InI128 q := ⟨by omega, hle.trans_lt hs.2⟩
    refine ⟨hs, hqs, _, ⟨hq.le, hn, rfl⟩, _, ⟨hf, rfl⟩, _, hm, ?_⟩
    simp only [sub, add, exists_checkedI128, Prod.mk.injEq]
    exact ⟨hc, hpnl, trivial, rfl⟩

end Closing

end Risk

end Equinox
