import Equinox.Foundation.Truncation
import Equinox.Market.Liquidation

/-! # The shortfall of a liquidated seat

A liquidation closes a part of the position at the mark. That lowers the
requirement of the seat by the maintenance margin of the closed part, and its
equity by the fee and by the funding that is due. Which of the two weighs more is
decided by the configuration, which bounds the fee and the margin independently.
-/

namespace Equinox

open Foundation World TraderSeat Risk

variable {m m' : Market} {ctx : Context} {i maxQuantity : ℕ} {u : Unit} {mark fee : ℤ}
  {config : V3RiskConfig} {settled filled : TraderSeat}

/-- What a seat lacks to cover its maintenance requirement at a mark. -/
def TraderSeat.shortfall (seat : TraderSeat) (mark : ℤ) (maintenanceBps : ℕ) : ℤ :=
  seat.maintenance mark maintenanceBps - seat.value mark

/-- How far a liquidation lowers the maintenance requirement of a seat. -/
def Market.liquidationRelief (m : Market) (i maxQuantity : ℕ) (mark : ℤ) : ℤ :=
  (m.seats i).maintenance mark m.core.config.effective.maintenanceMarginBps -
    bpsOf ((|(m.seats i).basePosition| - liquidationQuantity (m.seats i) maxQuantity) * mark)
      m.core.config.effective.maintenanceMarginBps

section Liquidated

variable (h : Market.Liquidated i maxQuantity mark config settled filled fee m m')
  (hopen : (m.seats i).basePosition ≠ 0)

include h hopen

theorem Market.Liquidated.maintenance_eq :
    (m'.seats i).maintenance mark m.core.config.effective.maintenanceMarginBps =
      (m.seats i).maintenance mark m.core.config.effective.maintenanceMarginBps -
        m.liquidationRelief i maxQuantity mark := by
  have hle : liquidationQuantity (m.seats i) maxQuantity ≤ |(m.seats i).basePosition| :=
    liquidationQuantity_le hopen
  have hr := abs_sub_abs_closing hle
  have hc : |(m'.seats i).basePosition| =
      |(m.seats i).basePosition| - liquidationQuantity (m.seats i) maxQuantity := by
    rw [h.position_eq]
    omega
  rw [Market.liquidationRelief, sub_sub_cancel, maintenance, hc]

theorem Market.Liquidated.value_eq :
    (m'.seats i).value mark = m.settledValue i mark - m.liquidationFee i maxQuantity mark := by
  have hc : (m.seats i).Consistent := fun hf => absurd hf hopen
  obtain ⟨state, hs⟩ := h.seats_self
  rw [← h.fee_eq, ← h.value_filled hc, hs]
  rfl

end Liquidated

/-- Where the fee rate is within the maintenance rate, the fee of a liquidation is within the
relief. -/
theorem Market.liquidationFee_le_relief (hm : 0 < mark) (hopen : (m.seats i).basePosition ≠ 0)
    (hpos : 0 < liquidationQuantity (m.seats i) maxQuantity)
    (hr : m.core.config.effective.liquidationFeeBps ≤
      m.core.config.effective.maintenanceMarginBps) :
    m.liquidationFee i maxQuantity mark ≤ m.liquidationRelief i maxQuantity mark := by
  unfold Market.liquidationFee Market.liquidationRelief maintenance bpsOf
  generalize m.core.config.effective.liquidationFeeBps = feeBps at hr ⊢
  generalize m.core.config.effective.maintenanceMarginBps = bps at hr ⊢
  have hle : liquidationQuantity (m.seats i) maxQuantity ≤ |(m.seats i).basePosition| :=
    liquidationQuantity_le hopen
  generalize liquidationQuantity (m.seats i) maxQuantity = q at hle hpos ⊢
  generalize |(m.seats i).basePosition| = size at hle ⊢
  have hc : 0 ≤ q * mark * bps := by positivity
  have hl : 0 ≤ (size - q) * mark * bps :=
    mul_nonneg (mul_nonneg (sub_nonneg.2 hle) hm.le) (Int.natCast_nonneg _)
  have hsum : q * mark * bps + (size - q) * mark * bps = size * mark * bps := by ring
  have hp := (tdiv_add_of_nonneg (s := bpsDenominator) (by decide) hc hl).1
  rw [hsum] at hp
  have hf : (q * mark * feeBps).tdiv bpsDenominator ≤ (q * mark * bps).tdiv bpsDenominator := by
    refine Int.tdiv_le_tdiv (by decide) ?_
    have hr' : (feeBps : ℤ) ≤ bps := by exact_mod_cast hr
    exact mul_le_mul_of_nonneg_left hr' (by positivity)
  omega

/-- A liquidation of an open position raises its shortfall by at most one if and only if the funding
due and the fee exceed the relief by at most one; with the funding settled before, if and only if
the fee does. A fee rate within the maintenance rate is enough for the latter. -/
theorem shortfall_after_liquidation_iff (h : liquidateV3 ctx i maxQuantity m = .ok u m')
    (hopen : (m.seats i).basePosition ≠ 0) :
    ∃ mark config, oraclePriceAfterFreshness ctx m.core = .ok mark ∧
      readV3RiskConfig m.core = .ok config ∧
      ((m'.seats i).shortfall mark.val config.maintenanceMarginBps ≤
          (m.seats i).shortfall mark.val config.maintenanceMarginBps + 1 ↔
        (m.seats i).fundingOwed m.core.fundingAccumulator +
          m.liquidationFee i maxQuantity mark.val ≤
            m.liquidationRelief i maxQuantity mark.val + 1) ∧
      ((m'.seats i).shortfall mark.val config.maintenanceMarginBps ≤
          (m.settledSeat i).shortfall mark.val config.maintenanceMarginBps + 1 ↔
        m.liquidationFee i maxQuantity mark.val ≤ m.liquidationRelief i maxQuantity mark.val + 1) ∧
      (config.liquidationFeeBps ≤ config.maintenanceMarginBps →
        m.liquidationFee i maxQuantity mark.val ≤ m.liquidationRelief i maxQuantity mark.val) := by
  obtain ⟨mark, config, settled, filled, fee, hm, hl⟩ := liquidateV3_eq_ok h
  obtain ⟨-, -, -, -, rfl⟩ := readV3RiskConfig_eq_ok.1 hl.config_eq
  have hma := hl.maintenance_eq hopen
  have hv := hl.value_eq hopen
  have hs : m.settledValue i mark.val = (m.seats i).value mark.val -
      (m.seats i).fundingOwed m.core.fundingAccumulator := rfl
  have hb : (m.settledSeat i).shortfall mark.val
      m.core.config.effective.maintenanceMarginBps =
      (m.seats i).maintenance mark.val m.core.config.effective.maintenanceMarginBps -
        m.settledValue i mark.val := by
    rw [← m.value_settledSeat]
    rfl
  refine ⟨mark, _, hm, hl.config_eq, ?_, ?_, fun hr => ?_⟩
  · rw [shortfall, shortfall]
    omega
  · rw [hb, shortfall]
    omega
  · exact Market.liquidationFee_le_relief hl.mark_pos hopen (hl.quantity_eq ▸ hl.quantity_pos) hr

/-- Rates that the validator accepts: a requirement of ten basis points, a fee of a thousand. -/
def steepConfig : V3RiskConfig :=
  { V3RiskConfig.defaults with
    initialMarginBps := 100
    maintenanceMarginBps := 10
    liquidationFeeBps := 1000
    maximumLeverage := 100 }

/-- The market is configured, and trader 7 buys ten at a thousand with some collateral. -/
def thinRun (configs : List V3RiskConfig) (amount : ℕ) : List Action :=
  configs.map (.updateV3RiskConfig (call 3 1000)) ++
    tradeRun amount 10 1000

theorem shortfall_after_liquidation_of_thinRun : ∃ m',
    liquidateV3 (call 3 752) 0 10 (genesis.after (thinRun [] 2500)).live = .ok () m' ∧
    (m'.seats 0).shortfall 752 1000 ≤
      ((genesis.after (thinRun [] 2500)).live.seats 0).shortfall 752 1000 + 1 := by
  have hl : liquidateV3 (call 3 752) 0 10
      (genesis.after (thinRun [] 2500)).live = .ok () (finalState _) :=
    eq_ok_of_isOk (by decide +kernel)
  obtain ⟨mark, config, hm, hco, hi, -, -⟩ := shortfall_after_liquidation_iff hl (by decide +kernel)
  have hc : oraclePriceAfterFreshness (call 3 752)
      (genesis.after (thinRun [] 2500)).live.core = .ok 752 := by
    decide +kernel
  have hd : readV3RiskConfig (genesis.after (thinRun [] 2500)).live.core =
      .ok V3RiskConfig.defaults := by
    decide +kernel
  obtain rfl := Except.ok.inj (hc.symm.trans hm)
  obtain rfl := Except.ok.inj (hd.symm.trans hco)
  exact ⟨_, hl, hi.2 (by decide +kernel)⟩

/-- Under the steep rates the fee costs the seat far more than the closed part required. -/
theorem shortfall_grows : ∃ m',
    Run Action.Accepted genesis (thinRun [steepConfig] 200)
      (genesis.after (thinRun [steepConfig] 200)) ∧
    liquidateV3 (call 3 980) 0 10
      (genesis.after (thinRun [steepConfig] 200)).live = .ok () m' ∧
    ((genesis.after (thinRun [steepConfig] 200)).live.seats 0).basePosition = 10 ∧
    ((genesis.after (thinRun [steepConfig] 200)).live.seats 0).shortfall 980 10 = 9 ∧
    (m'.seats 0).shortfall 980 10 = 494 := by
  have hl : liquidateV3 (call 3 980) 0 10
      (genesis.after (thinRun [steepConfig] 200)).live = .ok () (finalState _) :=
    eq_ok_of_isOk (by decide +kernel)
  exact ⟨_, run_accepted (by decide +kernel), hl, by decide +kernel⟩

end Equinox
