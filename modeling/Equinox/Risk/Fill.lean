import Equinox.Risk.Seat

/-! # The value of a seat

Equity without the overflow checks, and what fills, funding and withdrawals do
to it. A fill moves position against cash at its price, minus the fee, whatever
part of the position it opens, closes or turns.
-/

namespace Equinox

open Foundation Prod

def TraderSeat.Consistent (seat : TraderSeat) : Prop :=
  seat.basePosition = 0 → seat.quoteEntryValue = 0

def TraderSeat.value (seat : TraderSeat) (markPrice : ℤ) : ℤ :=
  seat.availableCollateral + seat.realizedPnl +
    (seat.basePosition * markPrice - if seat.basePosition = 0 then 0 else seat.quoteEntryValue)

theorem TraderSeat.Consistent.value_eq {seat : TraderSeat} (h : seat.Consistent) (m : ℤ) :
    seat.value m = seat.availableCollateral + seat.realizedPnl +
      (seat.basePosition * m - seat.quoteEntryValue) := by
  unfold value
  split
  · rename_i h0; rw [h h0]
  · rfl

namespace Risk

variable {a b c p q : ℤ} {bps : ℕ} {seat seat' : TraderSeat}

@[simp] theorem add_eq_ok : add a b = .ok c ↔ InI128 (a + b) ∧ a + b = c := checkedI128_eq_ok

@[simp] theorem sub_eq_ok : sub a b = .ok c ↔ InI128 (a - b) ∧ a - b = c := checkedI128_eq_ok

@[simp] theorem mul_eq_ok : mul a b = .ok c ↔ InI128 (a * b) ∧ a * b = c := checkedI128_eq_ok

@[simp] theorem abs_eq_ok : abs a = .ok c ↔ InI128 |a| ∧ |a| = c := checkedI128_eq_ok

/-- The fee on a notional value, rounded towards zero. -/
def bpsOf (notionalValue : ℤ) (bps : ℕ) : ℤ := (notionalValue * bps).tdiv bpsDenominator

theorem notional_eq_ok : notional q p = .ok c ↔ 0 < p ∧ 0 ≤ q ∧ InI128 (q * p) ∧ q * p = c := by
  simp [notional, and_assoc]

theorem fee_eq_ok : fee a bps = .ok c ↔ InI128 (a * bps) ∧ bpsOf a bps = c := by
  simp [fee, bpsOf]

theorem initialMargin_eq_ok : initialMargin a bps = .ok c ↔ InI128 (a * bps) ∧ bpsOf a bps = c :=
  fee_eq_ok

theorem bpsOf_nonneg (h : 0 ≤ a) : 0 ≤ bpsOf a bps := Int.tdiv_nonneg (by positivity) (by decide)

theorem equity_eq_value (h : equity seat p = .ok c) : c = seat.value p := by
  simp only [equity, unrealizedPnl, bind_eq_ok, add_eq_ok, sub_eq_ok, mul_eq_ok, require_eq_ok] at h
  obtain ⟨_, ⟨-, rfl⟩, _, ⟨_, -, _, ⟨-, rfl⟩, -, rfl⟩, -, rfl⟩ := h
  rfl

/-- A change of position and entry value: the position moves by the quantity, the entry value by its
cost and by the profit realized. -/
structure Moved (seat : TraderSeat) (q p b e r : ℤ) : Prop where
  position : b = seat.basePosition + q
  entry : e = seat.quoteEntryValue + q * p + r
  flat : seat.Consistent → b = 0 → e = 0

section Moves

variable {e r : ℤ}

theorem moved_of_increase
    (hs : seat.basePosition = 0 ∨ (0 < seat.basePosition ∧ 0 < q) ∨ (seat.basePosition < 0 ∧ q < 0))
    (h : increase seat q p = .ok (b, e, r)) : Moved seat q p b e r := by
  simp only [increase, ok_rules, add_eq_ok, mul_eq_ok, mk.injEq] at h
  obtain ⟨_, ⟨-, rfl⟩, _, ⟨-, rfl⟩, _, ⟨-, rfl⟩, rfl, rfl, rfl⟩ := h
  constructor
  · rfl
  · ring
  · intro hc h0
    have hq : q = 0 := by omega
    have hb : seat.basePosition = 0 := by omega
    rw [hc hb, hq]
    ring

theorem allocated_all (h : seat.basePosition ≠ 0) :
    (seat.quoteEntryValue * |seat.basePosition|).tdiv |seat.basePosition| = seat.quoteEntryValue :=
  Int.mul_tdiv_cancel _ (by simpa using h)

theorem moved_of_buyBack (hn : seat.basePosition < 0) (hq : 0 ≤ q)
    (h : decrease seat q (-seat.basePosition) q p = .ok (b, e, r)) : Moved seat q p b e r := by
  have ha := allocated_all hn.ne
  simp only [abs_of_neg hn] at ha
  simp only [decrease, not_lt_of_gt hn, if_false, bind_eq_ok, mul_eq_ok, sub_eq_ok,
    checkedI128_eq_ok] at h
  obtain ⟨_, ⟨-, rfl⟩, _, ⟨-, rfl⟩, _, ⟨-, rfl⟩, _, ⟨-, rfl⟩, _, ⟨-, rfl⟩, h⟩ := h
  split at h
  · have hmin : min (-seat.basePosition) q = q := by omega
    simp only [hmin, bind_eq_ok, add_eq_ok] at h
    obtain ⟨_, ⟨-, rfl⟩, h⟩ := h
    split at h
    · have hc : q = -seat.basePosition := by omega
      simp only [ok_rules, mk.injEq] at h
      obtain ⟨_, rfl, rfl, rfl, rfl⟩ := h
      constructor
      · rfl
      · rw [hc, ha]; ring
      · intros; rfl
    · simp only [ok_rules, sub_eq_ok, mk.injEq] at h
      obtain ⟨_, ⟨-, rfl⟩, rfl, rfl, rfl⟩ := h
      constructor
      · rfl
      · ring
      · intro _ h0; contradiction
  · have hmin : min (-seat.basePosition) q = -seat.basePosition := by omega
    have hq' : 0 < q := by omega
    simp only [hmin, ha, hq', if_true, ok_rules, mul_eq_ok, mk.injEq] at h
    obtain ⟨_, ⟨-, rfl⟩, _, ⟨-, rfl⟩, _, ⟨-, rfl⟩, rfl, rfl, rfl⟩ := h
    constructor
    · ring
    · ring
    · intro _ h0; omega

theorem moved_of_sellOff (hpos : 0 < seat.basePosition) (hq : q ≤ 0)
    (h : decrease seat q seat.basePosition (-q) p = .ok (b, e, r)) : Moved seat q p b e r := by
  have ha := allocated_all hpos.ne'
  simp only [abs_of_pos hpos] at ha
  simp only [decrease, hpos, if_true, bind_eq_ok, mul_eq_ok, sub_eq_ok] at h
  obtain ⟨_, ⟨-, rfl⟩, _, ⟨-, rfl⟩, _, ⟨-, rfl⟩, _, ⟨-, rfl⟩, h⟩ := h
  split at h
  · have hmin : min seat.basePosition (-q) = -q := by omega
    simp only [hmin, bind_eq_ok, sub_eq_ok] at h
    obtain ⟨_, ⟨-, rfl⟩, h⟩ := h
    split at h
    · have hc : -q = seat.basePosition := by omega
      simp only [ok_rules, mk.injEq, hc, ha] at h
      obtain ⟨_, rfl, rfl, rfl, rfl⟩ := h
      constructor
      · omega
      · rw [← hc]; ring
      · intros; rfl
    · simp only [ok_rules, sub_eq_ok, mk.injEq] at h
      obtain ⟨_, ⟨-, rfl⟩, rfl, rfl, rfl⟩ := h
      constructor
      · ring
      · ring
      · intro _ h0; contradiction
  · have hmin : min seat.basePosition (-q) = seat.basePosition := by omega
    have hq' : ¬ 0 < q := by omega
    simp only [hmin, ha, hq', if_false, ok_rules, mul_eq_ok, mk.injEq] at h
    obtain ⟨_, ⟨-, rfl⟩, _, ⟨-, rfl⟩, _, ⟨-, rfl⟩, rfl, rfl, rfl⟩ := h
    constructor
    · ring
    · ring
    · intro _ h0; omega

theorem moved_of_decrease
    (hs : ¬(seat.basePosition = 0 ∨ (0 < seat.basePosition ∧ 0 < q) ∨
      (seat.basePosition < 0 ∧ q < 0)))
    (h : decrease seat q |seat.basePosition| |q| p = .ok (b, e, r)) : Moved seat q p b e r := by
  push Not at hs
  rcases lt_or_gt_of_ne hs.1 with hn | hpos
  · have hq := hs.2.2 hn
    rw [abs_of_neg hn, abs_of_nonneg hq] at h
    exact moved_of_buyBack hn hq h
  · have hq := hs.2.1 hpos
    rw [abs_of_pos hpos, abs_of_nonpos hq] at h
    exact moved_of_sellOff hpos hq h

end Moves

theorem applyFill_eq_ok {charged : ℤ} (h : applyFill seat q p bps = .ok (charged, seat')) :
    0 < p ∧ charged = bpsOf (|q| * p) bps ∧ ∃ e r, Moved seat q p (seat.basePosition + q) e r ∧
      seat' = { seat with
        basePosition := seat.basePosition + q, quoteEntryValue := e,
        realizedPnl := seat.realizedPnl - charged + r } := by
  simp only [applyFill, bind_eq_ok, require_eq_ok, abs_eq_ok, notional_eq_ok, fee_eq_ok] at h
  obtain ⟨⟨⟩, hp, _, ⟨-, rfl⟩, _, ⟨-, rfl⟩, _, ⟨-, -, -, rfl⟩, _, ⟨-, rfl⟩, h⟩ := h
  split at h
  all_goals
    rename_i hs
    simp only [ok_rules, sub_eq_ok, add_eq_ok, mk.injEq] at h
    obtain ⟨⟨b, e, r⟩, hm, _, ⟨-, rfl⟩, _, ⟨-, rfl⟩, rfl, rfl⟩ := h
    first
      | have moved := moved_of_increase hs hm
      | have moved := moved_of_decrease hs hm
    obtain rfl := moved.position
    exact ⟨hp, rfl, e, r, moved, rfl⟩

theorem value_applyFill {charged : ℤ} (hc : seat.Consistent)
    (h : applyFill seat q p bps = .ok (charged, seat')) :
    seat'.Consistent ∧ ∀ m, seat'.value m = seat.value m + q * (m - p) - charged := by
  obtain ⟨-, -, e, r, moved, rfl⟩ := applyFill_eq_ok h
  have hc' : TraderSeat.Consistent { seat with
      basePosition := seat.basePosition + q, quoteEntryValue := e,
      realizedPnl := seat.realizedPnl - charged + r } := moved.flat hc
  constructor
  · exact hc'
  · intro m
    rw [hc'.value_eq, hc.value_eq, moved.entry]
    ring

/-- The equity law of a fill, at every mark at which equity is defined before and after it. -/
theorem equity_applyFill {charged : ℤ} (hc : seat.basePosition = 0 → seat.quoteEntryValue = 0)
    (h : applyFill seat q p bps = .ok (charged, seat')) :
    charged = bpsOf (|q| * p) bps ∧ seat'.basePosition = seat.basePosition + q ∧
      (seat'.basePosition = 0 → seat'.quoteEntryValue = 0) ∧
      ∀ m before after, equity seat m = .ok before → equity seat' m = .ok after →
        after = before + (q * (m - p) - charged) := by
  obtain ⟨hco, hv⟩ := value_applyFill hc h
  obtain ⟨-, hf, e, r, -, hs⟩ := applyFill_eq_ok h
  refine ⟨hf, by rw [hs], hco, fun m before after hb ha => ?_⟩
  rw [equity_eq_value ha, equity_eq_value hb, hv m]
  ring

/-- A seat that is short three at an entry value that does not divide. -/
def shortSeat : TraderSeat :=
  { TraderSeat.empty with
    occupancy := true, trader := 7, availableCollateral := 1000, basePosition := -3,
    quoteEntryValue := -305 }

/-- The seat buys five at 110: it closes the short and turns long. -/
theorem equity_applyFill_of_turn :
    ∃ turned, applyFill shortSeat 5 110 200 = .ok (11, turned) ∧ 11 = bpsOf (|5| * 110) 200 ∧
      turned.basePosition = 2 ∧
      (turned.basePosition = 0 → turned.quoteEntryValue = 0) ∧
      ∀ m before after, equity shortSeat m = .ok before → equity turned m = .ok after →
        after = before + (5 * (m - 110) - 11) := by
  have hr : applyFill shortSeat 5 110 200 = .ok (11, { shortSeat with
      basePosition := 2, quoteEntryValue := 220, realizedPnl := -36 }) := by decide +kernel
  exact ⟨_, hr, equity_applyFill (by decide) hr⟩

theorem settleFunding_eq_ok {acc payment : ℤ}
    (h : settleFunding seat acc = .ok (payment, seat')) :
    payment = (seat.basePosition * (acc - seat.lastFundingAccumulator)).tdiv fundingScale ∧
      seat' = { seat with
        realizedPnl := seat.realizedPnl - payment, lastFundingAccumulator := acc } := by
  simp only [settleFunding, ok_rules, sub_eq_ok, mul_eq_ok, mk.injEq] at h
  obtain ⟨_, ⟨-, rfl⟩, _, ⟨-, rfl⟩, _, ⟨-, rfl⟩, rfl, rfl⟩ := h
  exact ⟨rfl, rfl⟩

theorem settleFunding_self {payment : ℤ}
    (h : settleFunding seat seat.lastFundingAccumulator = .ok (payment, seat')) :
    payment = 0 ∧ seat' = seat := by
  obtain ⟨rfl, rfl⟩ := settleFunding_eq_ok h
  simp

theorem prepareWithdrawal_eq_ok {amount : ℕ} {acc m buffer : ℤ}
    (h : prepareWithdrawal seat amount acc m bps buffer = .ok seat') :
    0 < amount ∧ (amount : ℤ) ≤ seat.availableCollateral ∧ ∃ payment, seat' = { seat with
      availableCollateral := seat.availableCollateral - amount,
      realizedPnl := seat.realizedPnl - payment, lastFundingAccumulator := acc } := by
  simp only [prepareWithdrawal, ok_rules, require_eq_ok, sub_eq_ok] at h
  obtain ⟨⟨⟩, ⟨ha, -, -⟩, ⟨payment, settled⟩, hs, _, ⟨-, rfl⟩, ⟨⟩, hle, _, -, _, -, _, -, _, -,
    ⟨⟩, -, rfl⟩ := h
  obtain ⟨-, rfl⟩ := settleFunding_eq_ok hs
  exact ⟨by omega, by simpa using hle, payment, rfl⟩

end Risk

end Equinox
