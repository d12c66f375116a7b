import Equinox.Market.World
import Equinox.Risk.Room

/-! # Withdrawals at a stressed price

Without a live price a withdrawal is checked at the last authenticated price,
moved against the position. That covers the prices between the two as long as
equity moves faster than the requirement. For a long position with a requirement
above its whole value it does not: there the last price itself is the worst.
-/

namespace Equinox

open Foundation World OracleSnapshot Risk TraderSeat Int

variable {m m' : Market} {ctx : Context} {i amount : ℕ} {u : Unit} {seat : TraderSeat}
  {p q x d : ℤ} {bps : ℕ}

/-! ## Requirement and equity between two prices -/

namespace Risk

theorem bpsOf_add_whole (hx : 0 ≤ x) (hd : 0 ≤ d) :
    (x * bps + d * bpsDenominator).tdiv bpsDenominator = bpsOf x bps + d := by
  have hx' : 0 ≤ x * bps := mul_nonneg hx (natCast_nonneg _)
  have hd' : 0 ≤ d * bpsDenominator := mul_nonneg hd (by decide)
  rw [bpsOf, tdiv_eq_ediv_of_nonneg hx', tdiv_eq_ediv_of_nonneg (add_nonneg hx' hd'),
    add_mul_ediv_right _ _ (by decide)]

theorem bpsOf_add_le (hx : 0 ≤ x) (hd : 0 ≤ d) (hb : bps ≤ 10000) :
    bpsOf (x + d) bps ≤ bpsOf x bps + d := by
  have hr : d * bps ≤ d * bpsDenominator :=
    mul_le_mul_of_nonneg_left (show (bps : ℤ) ≤ 10000 by exact_mod_cast hb) hd
  calc bpsOf (x + d) bps = (x * bps + d * bps).tdiv bpsDenominator := by rw [bpsOf, add_mul]
    _ ≤ (x * bps + d * bpsDenominator).tdiv bpsDenominator :=
      Int.tdiv_le_tdiv (by decide) (by omega)
    _ = bpsOf x bps + d := bpsOf_add_whole hx hd

theorem le_bpsOf_add (hx : 0 ≤ x) (hd : 0 ≤ d) (hb : 10000 ≤ bps) :
    bpsOf x bps + d ≤ bpsOf (x + d) bps := by
  have hr : d * bpsDenominator ≤ d * bps :=
    mul_le_mul_of_nonneg_left (show 10000 ≤ (bps : ℤ) by exact_mod_cast hb) hd
  calc bpsOf x bps + d = (x * bps + d * bpsDenominator).tdiv bpsDenominator :=
        (bpsOf_add_whole hx hd).symm
    _ ≤ (x * bps + d * bps).tdiv bpsDenominator := Int.tdiv_le_tdiv (by decide) (by omega)
    _ = bpsOf (x + d) bps := by rw [bpsOf, add_mul]

theorem bpsOf_mono (h : x ≤ d) : bpsOf x bps ≤ bpsOf d bps :=
  Int.tdiv_le_tdiv (by decide) (mul_le_mul_of_nonneg_right h (natCast_nonneg _))

end Risk

namespace TraderSeat

/-- The seat covers its maintenance requirement at a price. -/
def Covered (seat : TraderSeat) (price : ℤ) (bps : ℕ) : Prop :=
  seat.maintenance price bps ≤ seat.value price

instance (seat : TraderSeat) (price : ℤ) (bps : ℕ) : Decidable (seat.Covered price bps) :=
  inferInstanceAs (Decidable (_ ≤ _))

theorem covered_iff_of_isLiquidatable {liquidatable : Bool} (hp : 0 < p)
    (h : isLiquidatable seat p bps = .ok liquidatable) :
    seat.Covered p bps ↔ liquidatable = false := by
  obtain ⟨-, rfl⟩ := (isLiquidatable_iff hp).1 h
  rw [decide_eq_false_iff_not, not_lt]
  rfl

theorem value_sub (seat : TraderSeat) (p q : ℤ) :
    seat.value q - seat.value p = seat.basePosition * (q - p) := by
  unfold value
  ring

theorem maintenance_of_long (hl : 0 < seat.basePosition) (p : ℤ) (bps : ℕ) :
    seat.maintenance p bps = bpsOf (seat.basePosition * p) bps := by
  rw [maintenance, abs_of_pos hl]

theorem Covered.long_up (hl : 0 < seat.basePosition) (hb : bps ≤ 10000) (hp : 0 ≤ p)
    (hle : p ≤ q) (h : seat.Covered p bps) : seat.Covered q bps := by
  have hg : 0 ≤ seat.basePosition * (q - p) := mul_nonneg hl.le (sub_nonneg.2 hle)
  have hs := bpsOf_add_le (mul_nonneg hl.le hp) hg hb
  have hv := seat.value_sub p q
  rw [← mul_add, add_sub_cancel] at hs
  unfold Covered at h ⊢
  rw [maintenance_of_long hl] at h ⊢
  omega

theorem Covered.long_down (hl : 0 < seat.basePosition) (hb : 10000 ≤ bps) (hp : 0 ≤ p)
    (hle : p ≤ q) (h : seat.Covered q bps) : seat.Covered p bps := by
  have hg : 0 ≤ seat.basePosition * (q - p) := mul_nonneg hl.le (sub_nonneg.2 hle)
  have hs := le_bpsOf_add (mul_nonneg hl.le hp) hg hb
  have hv := seat.value_sub p q
  rw [← mul_add, add_sub_cancel] at hs
  unfold Covered at h ⊢
  rw [maintenance_of_long hl] at h ⊢
  omega

theorem Covered.short_down (hs : seat.basePosition ≤ 0) (hle : p ≤ q)
    (h : seat.Covered q bps) : seat.Covered p bps := by
  have hl : seat.basePosition * (q - p) ≤ 0 := mul_nonpos_of_nonpos_of_nonneg hs (sub_nonneg.2 hle)
  have hr : seat.maintenance p bps ≤ seat.maintenance q bps :=
    bpsOf_mono (mul_le_mul_of_nonneg_left hle (abs_nonneg _))
  have hv := seat.value_sub p q
  unfold Covered at h ⊢
  omega

theorem Covered.of_flat (hf : seat.basePosition = 0) (h : seat.Covered p bps) :
    seat.Covered q bps := by
  have hv := seat.value_sub p q
  unfold Covered maintenance at h ⊢
  rw [hf, zero_mul] at hv
  rw [hf, abs_zero, zero_mul] at h ⊢
  omega

end TraderSeat

/-! ## The check of a withdrawal -/

def Market.withdrawnSeat (m : Market) (i amount : ℕ) : TraderSeat :=
  { (m.seats i).settledAt m.core.fundingAccumulator with
    availableCollateral := (m.seats i).availableCollateral - amount
    withdrawalRequested := (m.seats i).withdrawalRequested + amount }

theorem Risk.prepareWithdrawal_covered {acc mark buffer : ℤ} {seat' : TraderSeat}
    (h : prepareWithdrawal seat amount acc mark bps buffer = .ok seat') :
    seat' = { seat.settledAt acc with availableCollateral := seat.availableCollateral - amount } ∧
      seat'.Covered mark bps := by
  simp only [prepareWithdrawal, maintenanceRequirement, maintenanceMargin, ok_rules, require_eq_ok,
    sub_eq_ok, add_eq_ok, abs_eq_ok, notional_eq_ok, fee_eq_ok] at h
  obtain ⟨⟨⟩, ⟨-, hr, hb⟩, ⟨payment, settled⟩, hs, _, ⟨-, rfl⟩, ⟨⟩, -, _,
    ⟨_, ⟨-, rfl⟩, _, ⟨-, -, -, rfl⟩, -, rfl⟩, _, ⟨-, rfl⟩, _, ⟨-, rfl⟩, value, hv, ⟨⟩, hle,
    rfl⟩ := h
  obtain ⟨rfl, rfl⟩ := settleFunding_eq_ok hs
  refine ⟨rfl, ?_⟩
  rw [equity_eq_value hv] at hle
  unfold Covered maintenance
  dsimp only at hle ⊢
  omega

theorem requestWithdrawalV3_covered (h : requestWithdrawalV3 ctx i amount m = .ok u m') :
    m'.seats i = m.withdrawnSeat i amount ∧ ∃ mark config,
      withdrawalMarkPrice ctx m.core (m.seats i).basePosition = .ok mark ∧
      readV3RiskConfig m.core = .ok config ∧
      (m.withdrawnSeat i amount).Covered mark config.maintenanceMarginBps := by
  simp only [requestWithdrawalV3, run_rules, exists_checkedI128, exists_checkedU64,
    riskOk_eq_ok] at h
  obtain ⟨-, ⟨⟩, -, -, -, -, mark, hm, config, hc, seat, hs, -, -, h⟩ := h
  obtain ⟨rfl, hco⟩ := prepareWithdrawal_covered hs
  refine ⟨?_, mark, config, hm, hc, hco⟩
  rw [(writeDebit_eq_ok h).seats]
  exact Market.seats_withSeat_self

/-! ## Without a live price -/

/-- The call comes with a price that is fresh enough to trade at. -/
def Context.HasLivePrice (ctx : Context) (core : MarketCore) : Prop :=
  ∃ snapshot, ctx.snapshot = some snapshot ∧ snapshot.validateForCore core ctx.now = .ok ()

/-- The prices from the last one to that moved against the position. -/
def StressRange (basePosition price p : ℤ) : Prop :=
  if 0 < basePosition then price * (10000 - v3StaleWithdrawalStressBps) ≤ p * 10000 ∧ p ≤ price
  else price ≤ p ∧ p * 10000 ≤ price * (10000 + v3StaleWithdrawalStressBps)

theorem OracleSnapshot.lastVerifiedPrice_eq_ok {snapshot : OracleSnapshot} {core : MarketCore}
    {price : I64} (h : snapshot.lastVerifiedPrice core = .ok price) :
    snapshot.price = price ∧ 0 < price.val := by
  simp only [lastVerifiedPrice, ok_rules] at h
  obtain ⟨-, hpos, rfl⟩ := h
  exact ⟨rfl, hpos⟩

theorem withdrawalMarkPrice_stale {core : MarketCore} {base mark : ℤ}
    (hst : ¬ctx.HasLivePrice core) (ho : base ≠ 0)
    (h : withdrawalMarkPrice ctx core base = .ok mark) :
    ∃ snapshot price, ctx.snapshot = some snapshot ∧
      snapshot.lastVerifiedPrice core = .ok price ∧
      mark = max ((price.val * if 0 < base then 10000 - v3StaleWithdrawalStressBps
        else 10000 + v3StaleWithdrawalStressBps).tdiv 10000) 1 := by
  unfold withdrawalMarkPrice at h
  cases hs : ctx.snapshot with
  | none => simp [hs, ho] at h
  | some snapshot =>
    have hn : ¬snapshot.validateForCore core ctx.now = .ok () := fun hv =>
      hst ⟨snapshot, hs, hv⟩
    simp only [hs, if_neg hn, if_neg ho, ok_rules, mapError_eq_ok] at h
    obtain ⟨price, hp, -, rfl⟩ := h
    exact ⟨snapshot, price, rfl, hp, rfl⟩

section Range

variable {base price : ℤ}

theorem StressRange.stressed_le (hl : 0 < base) (hp : 0 < price)
    (h : StressRange base price p) :
    max ((price * (10000 - v3StaleWithdrawalStressBps)).tdiv 10000) 1 ≤ p := by
  simp only [StressRange, if_pos hl, v3StaleWithdrawalStressBps] at h ⊢
  rw [tdiv_eq_ediv_of_nonneg (by omega)]
  omega

theorem StressRange.le_stressed (hs : ¬0 < base) (hp : 0 < price)
    (h : StressRange base price p) :
    p ≤ max ((price * (10000 + v3StaleWithdrawalStressBps)).tdiv 10000) 1 := by
  simp only [StressRange, if_neg hs, v3StaleWithdrawalStressBps] at h ⊢
  rw [tdiv_eq_ediv_of_nonneg (by omega)]
  omega

theorem StressRange.last (hl : 0 < base) (hp : 0 < price) : StressRange base price price := by
  simp only [StressRange, if_pos hl, v3StaleWithdrawalStressBps]
  omega

/-- A seat that is covered at the stressed mark is covered in the whole range if and only if it is
not long, or does not require more than its value, or is covered at the last price too. -/
theorem TraderSeat.covered_range_iff (ho : seat.basePosition ≠ 0) (hpr : 0 < price)
    (h : seat.Covered (max ((price * if 0 < seat.basePosition then
      10000 - v3StaleWithdrawalStressBps else 10000 + v3StaleWithdrawalStressBps).tdiv 10000) 1)
      bps) :
    (∀ p, StressRange seat.basePosition price p → seat.Covered p bps) ↔
      seat.basePosition < 0 ∨ bps ≤ 10000 ∨ seat.Covered price bps := by
  by_cases hl : 0 < seat.basePosition
  · rw [if_pos hl] at h
    constructor
    · exact fun ha => .inr (.inr (ha price (.last hl hpr)))
    · rintro (hs | hb | hla) p hp
      · omega
      · exact h.long_up hl hb (by omega) (hp.stressed_le hl hpr)
      · rcases le_total bps 10000 with hb | hb
        · exact h.long_up hl hb (by omega) (hp.stressed_le hl hpr)
        · have hle := hp.stressed_le hl hpr
          simp only [StressRange, if_pos hl] at hp
          exact hla.long_down hl hb (by omega) hp.2
  · rw [if_neg hl] at h
    refine iff_of_true (fun p hp => ?_) (.inl (by omega))
    exact h.short_down (by omega) (hp.le_stressed hl hpr)

end Range

/-- A withdrawal without a live price leaves a seat that is covered at every price, if it is flat.
If not, the seat is covered from the last authenticated price to the stressed one if and only if it
is short, or its requirement is at most its value, or it is covered at the last price too. -/
theorem stressed_withdrawal_covered_iff (h : requestWithdrawalV3 ctx i amount m = .ok u m')
    (hstale : ¬ctx.HasLivePrice m.core) :
    ∃ config, readV3RiskConfig m.core = .ok config ∧
      (∀ p liquidatable, 0 < p →
        isLiquidatable (m'.seats i) p config.maintenanceMarginBps = .ok liquidatable →
        ((m'.seats i).Covered p config.maintenanceMarginBps ↔ liquidatable = false)) ∧
      ((m.seats i).basePosition = 0 → ∀ p, (m'.seats i).Covered p config.maintenanceMarginBps) ∧
      ((m.seats i).basePosition ≠ 0 → ∃ snapshot price, ctx.snapshot = some snapshot ∧
        snapshot.lastVerifiedPrice m.core = .ok price ∧
        ((∀ p, StressRange (m.seats i).basePosition price.val p →
            (m'.seats i).Covered p config.maintenanceMarginBps) ↔
          (m.seats i).basePosition < 0 ∨ config.maintenanceMarginBps ≤ 10000 ∨
            (m.withdrawnSeat i amount).Covered price.val config.maintenanceMarginBps)) := by
  obtain ⟨hs, mark, config, hm, hco, hc⟩ := requestWithdrawalV3_covered h
  rw [hs]
  refine ⟨config, hco, fun p answer hp => covered_iff_of_isLiquidatable hp,
    fun hf p => hc.of_flat hf, fun ho => ?_⟩
  obtain ⟨snapshot, price, hsn, hpr, rfl⟩ := withdrawalMarkPrice_stale hstale ho hm
  have hl : (m.withdrawnSeat i amount).basePosition ≠ 0 := ho
  obtain ⟨-, hpos⟩ := lastVerifiedPrice_eq_ok hpr
  exact ⟨snapshot, price, hsn, hpr, covered_range_iff hl hpos hc⟩

def staleCall (signer : Address) : Context :=
  { call signer 1000 with now := 1000000 }

theorem staleCall_not_live (signer : Address) (core : MarketCore) :
    ¬(staleCall signer).HasLivePrice core := by
  rintro ⟨snapshot, hs, hv⟩
  obtain rfl := Option.some.inj hs
  simp only [validateForCore, validate, bind_eq_ok, require_eq_ok] at hv
  obtain ⟨_, ⟨_, -, -, -, -, -, hf⟩, -⟩ := hv
  have hl : 1000000 ≤ 0 + 10 := hf
  omega

/-- Trader 7 buys ten at a thousand, and the market is configured anew. -/
def stressRun (configs : List V3RiskConfig) : List Action :=
  tradeRun 25000 10 1000 ++
    configs.map (.updateV3RiskConfig (call 3 1000))

theorem stressed_withdrawal_covered_of_stressRun : ∃ m',
    requestWithdrawalV3 (staleCall 7) 0 7000 (genesis.after (stressRun [])).live =
      .ok () m' ∧ ∀ p, StressRange 10 1000 p → (m'.seats 0).Covered p 1000 := by
  have hr : requestWithdrawalV3 (staleCall 7) 0 7000
      (genesis.after (stressRun [])).live = .ok () (finalState _) :=
    eq_ok_of_isOk (by decide +kernel)
  obtain ⟨config, hc, -, -, ho⟩ := stressed_withdrawal_covered_iff hr (staleCall_not_live _ _)
  obtain ⟨snapshot, price, hs, hp, hi⟩ := ho (by decide +kernel)
  have hd : readV3RiskConfig (genesis.after (stressRun [])).live.core =
      .ok V3RiskConfig.defaults := by
    decide +kernel
  have hb : ((genesis.after (stressRun [])).live.seats 0).basePosition = 10 := by
    decide +kernel
  obtain rfl := Except.ok.inj (hd.symm.trans hc)
  obtain rfl := Option.some.inj hs
  obtain ⟨rfl, -⟩ := lastVerifiedPrice_eq_ok hp
  rw [hb] at hi
  exact ⟨_, hr, hi.2 (.inr (.inl (by decide)))⟩

/-- Rates that the validator accepts: a requirement of twice the value of the position. -/
def doubleConfig : V3RiskConfig :=
  { V3RiskConfig.defaults with initialMarginBps := 20000, maintenanceMarginBps := 20000 }

/-- Under these rates the seat is left covered at the stressed price and liquidatable at the last
one. -/
theorem stressed_withdrawal_uncovered : ∃ m',
    Run Action.Accepted genesis (stressRun [doubleConfig])
      (genesis.after (stressRun [doubleConfig])) ∧
    requestWithdrawalV3 (staleCall 7) 0 7000
      (genesis.after (stressRun [doubleConfig])).live = .ok () m' ∧
    ¬(staleCall 7).HasLivePrice (genesis.after (stressRun [doubleConfig])).live.core ∧
    ((genesis.after (stressRun [doubleConfig])).live.seats 0).basePosition = 10 ∧
    StressRange 10 1000 1000 ∧
    isLiquidatable (m'.seats 0) 750 20000 = .ok false ∧
    isLiquidatable (m'.seats 0) 1000 20000 = .ok true := by
  have hr : requestWithdrawalV3 (staleCall 7) 0 7000
      (genesis.after (stressRun [doubleConfig])).live = .ok () (finalState _) :=
    eq_ok_of_isOk (by decide +kernel)
  exact ⟨_, run_accepted (by decide +kernel), hr, staleCall_not_live _ _,
    by decide +kernel, .last (by decide) (by decide), by decide +kernel⟩

end Equinox
