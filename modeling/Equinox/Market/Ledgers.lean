import Equinox.Market.Steps

/-! # The ledgers of the core

Which actions keep what the vault should hold, and which keep the core readable:
every handler first reads the risk configuration together with the ledgers, and
refuses to work on a core where one of them is negative.
-/

namespace Equinox

open Foundation CritBit World Risk TraderSeat MarketCore Market V3RiskConfig

variable {a : Action} {w w' w₀ : World} {m m' : Market} {as : List Action} {i : ℕ}
  {seat seat' : TraderSeat}

/-! ## Seats -/

/-- How one step can change one seat. -/
inductive TraderSeat.Changed (seat : TraderSeat) : TraderSeat → Prop
  | opened {trader : Address} {sequence : ℕ} : Changed seat (opened trader sequence)
  | closed : Changed seat empty
  | moved {seat' : TraderSeat} (position : seat'.basePosition = seat.basePosition)
    (entry : seat'.quoteEntryValue = seat.quoteEntryValue)
    (collateral : 0 ≤ seat.availableCollateral → 0 ≤ seat'.availableCollateral) :
    Changed seat seat'
  | traded {seat' : TraderSeat} (claims : seat.SameClaims seat')
    (consistent : seat.Consistent → seat'.Consistent) : Changed seat seat'

theorem TraderSeat.Changed.refl (seat : TraderSeat) : seat.Changed seat := .moved rfl rfl id

theorem TraderSeat.Changed.withSeat (h : (m.seats i).Changed seat) (j : ℕ) :
    (m.seats j).Changed ((m.withSeat i seat).seats j) := by
  rcases eq_or_ne j i with rfl | hj
  · rw [seats_withSeat_self]
    exact h
  · rw [seats_withSeat_of_ne hj]
    exact .refl _

theorem Market.Debited.changed {amount : ℕ} (h : m.Debited i amount seat m') (j : ℕ) :
    (m.seats j).Changed (m'.seats j) := by
  obtain ⟨payment, hs⟩ := h.paid
  have hc := h.covered
  rw [h.logged.seats]
  refine Changed.withSeat (m := m) (.moved ?_ ?_ fun _ => ?_) j <;> rw [hs]
  dsimp only
  omega

theorem Market.Liquidated.changed {maxQuantity : ℕ} {mark fee : ℤ} {config : V3RiskConfig}
    {settled filled : TraderSeat}
    (h : Liquidated i maxQuantity mark config settled filled fee m m') (j : ℕ) :
    (m.seats j).Changed (m'.seats j) := by
  refine .traded (h.sameClaims j) fun hj => ?_
  rcases eq_or_ne j i with rfl | hne
  · obtain ⟨state, hs⟩ := h.seats_self
    rw [hs]
    exact h.dealt.consistent hj
  · rw [h.seats_of_ne hne]
    exact hj

theorem World.Step.changed (h : w.Step a w') (j : ℕ) :
    (w.live.seats j).Changed (w'.live.seats j) := by
  cases h with
  | @opened _ _ m _ _ _ logged =>
    change Changed _ (m.seats j)
    rw [logged.seats]
    exact Changed.opened.withSeat j
  | @closed _ _ m _ _ logged =>
    change Changed _ (m.seats j)
    rw [logged.seats]
    exact Changed.closed.withSeat j
  | @deposited _ _ _ _ m _ _ logged =>
    change Changed _ (m.seats j)
    rw [logged.seats]
    refine Changed.withSeat (m := w.live) ?_ j
    refine .moved rfl rfl fun h => ?_
    dsimp only
    omega
  | @credited _ _ _ _ _ m _ _ _ _ _ logged =>
    change Changed _ (m.seats j)
    rw [logged.seats]
    refine Changed.withSeat (m := w.live) ?_ j
    refine .moved rfl rfl fun h => ?_
    dsimp only
    omega
  | withdrawn _ debited => exact debited.changed j
  | requested _ _ debited => exact debited.changed j
  | traded trades => exact .traded (trades.traded.claims j) (trades.traded.consistent j)
  | liquidated _ hl => exact hl.changed j
  | @kept _ m _ same =>
    change Changed _ (m.seats j)
    rw [same.seats]
    exact .refl _
  | @reconciled _ _ _ m logged =>
    change Changed _ (m.seats j)
    rw [logged.seats]
    exact .refl _
  | inboxed | paid | configured | rolledBack | copiedShard | copiedCore | donated => exact .refl _

theorem TraderSeat.Changed.consistent (h : seat.Changed seat') (hc : seat.Consistent) :
    seat'.Consistent := by
  cases h with
  | opened | closed => exact fun _ => rfl
  | moved position entry => exact fun h0 => by rw [entry, hc (by rw [← position, h0])]
  | traded _ consistent => exact consistent hc

theorem World.consistent_of_run (hi : w₀.Initial) (hr : Run Action.Accepted w₀ as w) (i : ℕ) :
    (w.live.seats i).Consistent := by
  refine hr.invariant (P := fun w => ∀ i, (w.live.seats i).Consistent) (fun i => ?_) ?_ i
  · rw [hi.seats]
    exact fun _ => rfl
  · exact fun a t u ht ha i => (ha.step.changed i).consistent (ht i)

/-! ## What the vault should hold -/

/-- What a seat is worth at a mark once its funding is settled. -/
def Market.settledValue (m : Market) (i : ℕ) (mark : ℤ) : ℤ :=
  (m.seats i).value mark - ((m.seats i).basePosition *
    (m.core.fundingAccumulator - (m.seats i).lastFundingAccumulator)).tdiv fundingScale

theorem Market.value_settled {settled : TraderSeat} {payment mark : ℤ}
    (h : settleFunding (m.seats i) m.core.fundingAccumulator = .ok (payment, settled)) :
    settled.value mark = m.settledValue i mark := by
  obtain ⟨hp, hs⟩ := settleFunding_eq_ok h
  rw [hs, hp]
  simp only [value, settledValue]
  split <;> ring

def Market.liquidationFee (m : Market) (i maxQuantity : ℕ) (mark : ℤ) : ℤ :=
  bpsOf (liquidationQuantity (m.seats i) maxQuantity * mark)
    m.core.config.effective.liquidationFeeBps

theorem Market.Traded.expectedVault (h : m.Traded m') :
    m'.core.expectedVault = m.core.expectedVault := by
  obtain ⟨fees, _, _, _, -, -, -, hc⟩ := h.core
  simp only [MarketCore.expectedVault, hc]
  omega

theorem Market.SameAccounts.expectedVault (h : m.SameAccounts m') :
    m'.core.expectedVault = m.core.expectedVault := by
  simp only [MarketCore.expectedVault, h.vaultLiability, h.protocolFeeBalance, h.insuranceBalance,
    h.badDebt]

section Liquidated

variable {maxQuantity : ℕ} {mark fee : ℤ} {config : V3RiskConfig} {settled filled : TraderSeat}

section

variable (h : Liquidated i maxQuantity mark config settled filled fee m m')

include h

theorem Market.Liquidated.fee_eq : fee = m.liquidationFee i maxQuantity mark := by
  obtain ⟨_, hs⟩ := h.settled_eq
  obtain ⟨-, hse⟩ := settleFunding_eq_ok hs
  obtain ⟨-, hf, -⟩ := applyFill_eq_ok h.filled_eq
  obtain ⟨-, -, -, -, hc⟩ := readV3RiskConfig_eq_ok.1 h.config_eq
  have hq : liquidationQuantity settled maxQuantity =
      liquidationQuantity (m.seats i) maxQuantity := by rw [hse]; rfl
  have hpos := h.quantity_pos
  rw [hf, liquidationFee, hc, ← hq]
  split
  · rw [abs_neg, abs_of_pos hpos]
  · rw [abs_of_pos hpos]

theorem Market.Liquidated.value_filled (hc : (m.seats i).Consistent) :
    filled.value mark = m.settledValue i mark - fee := by
  obtain ⟨_, hs⟩ := h.settled_eq
  have hc' : settled.Consistent := by rw [(settleFunding_eq_ok hs).2]; exact hc
  rw [(value_applyFill hc' h.filled_eq).2 mark, value_settled hs]
  ring

/-- A liquidation raises what the vault should hold by its fee, or by the seat's equity if that
is less: the insurance gets the fee, and the bad debt only the part the seat cannot pay. -/
theorem Market.Liquidated.expectedVault (hc : (m.seats i).Consistent) :
    m'.core.expectedVault = m.core.expectedVault +
      min (m.settledValue i mark) (m.liquidationFee i maxQuantity mark) := by
  obtain ⟨_, ⟨_, hco⟩, -⟩ := h.result
  rw [← h.fee_eq]
  simp only [MarketCore.expectedVault, hco, h.value_filled hc]
  split <;> omega

end

end Liquidated

/-- Orders, cancellations, funding and liquidations. -/
def Action.isTrading : Action → Bool
  | placeOrderV3 .. | cancelOrderV3 .. | cancelAllV3 .. | replaceOrderV3 .. | updateFundingV3 ..
  | liquidateV3 .. => true
  | _ => false

/-- A liquidation charges no fee to a solvent seat, or finds its equity at zero. -/
def Action.ChargesNothing (m : Market) : Action → Prop
  | liquidateV3 ctx i maxQuantity => ∀ mark, oraclePriceAfterFreshness ctx m.core = .ok mark →
      min (m.settledValue i mark.val) (m.liquidationFee i maxQuantity mark.val) = 0
  | _ => True

/-- Trading changes what the vault should hold exactly when a liquidation charges something. -/
theorem expectedVault_eq_iff (hw : ∀ i, (w.live.seats i).Consistent) (ha : a.isTrading = true)
    (h : a.Accepted w w') : w'.live.core.expectedVault = w.live.core.expectedVault ↔
      a.ChargesNothing w.live := by
  cases h.step with
  | @traded _ m trades =>
    have hs : m.core.expectedVault = w.live.core.expectedVault := trades.traded.expectedVault
    cases trades <;> exact iff_of_true hs trivial
  | @liquidated ctx i maxQuantity mark _ _ _ _ m price hl =>
    change m.core.expectedVault = _ ↔ _
    rw [hl.expectedVault (hw i)]
    constructor
    · intro heq mark' hm'
      obtain rfl : mark = mark' := by simpa [price] using hm'
      omega
    · intro hz
      rw [hz mark price, add_zero]
  | @kept _ m upkeep same =>
    have hs : m.core.expectedVault = w.live.core.expectedVault := same.expectedVault
    cases a <;> simp [Action.isUpkeep, Action.isTrading] at upkeep ha
    exact iff_of_true hs trivial
  | _ => simp [Action.isTrading] at ha

def liquidation : Action := .liquidateV3 (call 3 800) 0 10

def fillingAsk : Action := .placeOrderV3 (call 8 1000) (limitOrder .ask 1 10 1000)

/-- A fill leaves what the vault should hold, and the liquidation after it charges something. -/
theorem expectedVault_eq_iff_of_tradeRun :
    ((genesis.after ((tradeRun 2500 10 1000).take 6)).after [fillingAsk]).live.core.expectedVault =
      (genesis.after ((tradeRun 2500 10 1000).take 6)).live.core.expectedVault ∧
    ¬liquidation.ChargesNothing (genesis.after (tradeRun 2500 10 1000)).live := by
  have hr : Run Action.Accepted genesis ((tradeRun 2500 10 1000).take 6) _ :=
    run_accepted (by decide +kernel)
  have hr' : Run Action.Accepted genesis (tradeRun 2500 10 1000) _ :=
    run_accepted (by decide +kernel)
  have hl : liquidation.Accepted (genesis.after (tradeRun 2500 10 1000)) _ :=
    accepted_of_accepts (by decide +kernel)
  exact ⟨(expectedVault_eq_iff (consistent_of_run genesis_initial hr) rfl
    (accepted_of_accepts (by decide +kernel))).2 trivial,
    mt (expectedVault_eq_iff (consistent_of_run genesis_initial hr') rfl hl).2 (by decide +kernel)⟩

/-- After a liquidation the ledgers expect 20 more than the vault holds. -/
theorem expectedVault_raised : ∃ w₀ as w w', w₀.Initial ∧ Run Action.Accepted w₀ as w ∧
    liquidation.Accepted w w' ∧ w.live.core.expectedVault = 5000 ∧ w.vault = 5000 ∧
    w'.live.core.expectedVault = 5020 ∧ w'.vault = 5000 :=
  ⟨genesis, tradeRun 2500 10 1000, _, _, genesis_initial,
    run_accepted (by decide +kernel), accepted_of_accepts (by decide +kernel), by decide +kernel⟩

/-! ## Readable cores -/

/-- The risk configuration can be read: it is in bounds and no ledger is negative. -/
def MarketCore.Readable (core : MarketCore) : Prop := ∃ config, readV3RiskConfig core = .ok config

theorem MarketCore.readable_iff {core : MarketCore} : core.Readable ↔
    core.riskConfigVersion = v3RiskConfigVersion ∧ core.config.effective.InBounds ∧
      core.LedgersNonneg ∧ core.reconciliationStatus ≤ 3 := by
  simp only [Readable, readV3RiskConfig_eq_ok]
  constructor
  · rintro ⟨_, hv, hb, hl, hr, rfl⟩
    exact ⟨hv, hb, hl, hr⟩
  · rintro ⟨hv, hb, hl, hr⟩
    exact ⟨_, hv, hb, hl, hr, rfl⟩

theorem V3RiskConfig.defaults_inBounds : defaults.InBounds := by decide

/-- Withdrawals do not exceed the liability, and the core is not rolled back. -/
def Action.KeepsReadable (core : MarketCore) : Action → Prop
  | withdrawCollateralV3 _ _ amount | requestWithdrawalV3 _ _ amount =>
    (amount : ℤ) ≤ core.vaultLiability
  | rollbackV3Undelegation => False
  | _ => True

instance (core : MarketCore) (a : Action) : Decidable (a.KeepsReadable core) := by
  unfold Action.KeepsReadable; split <;> infer_instance

section Readable

variable {core : MarketCore}

theorem MarketCore.Readable.liability_nonneg (h : core.Readable) : 0 ≤ core.vaultLiability :=
  (readable_iff.1 h).2.2.1.2.2.2.2

theorem MarketCore.Readable.withLiability {liability : ℤ} (h : core.Readable) :
    Readable { core with vaultLiability := liability } ↔ 0 ≤ liability := by
  rw [readable_iff] at h ⊢
  obtain ⟨hv, hb, ⟨ho, hp, hi, hd, -⟩, hr⟩ := h
  constructor
  · exact fun h' => (readable_iff.2 h').liability_nonneg
  · exact fun hl => ⟨hv, hb, ⟨ho, hp, hi, hd, hl⟩, hr⟩

theorem Market.Logged.readable (h : m.Logged m') : m'.core.Readable ↔ m.core.Readable := by
  obtain ⟨⟨_, hc⟩, -⟩ := h
  rw [hc]
  rfl

theorem Market.Traded.readable (h : m.Traded m') (hm : m.core.Readable) : m'.core.Readable := by
  obtain ⟨fees, oi, _, _, hf, hle, hoi, hc⟩ := h.core
  rw [readable_iff] at hm ⊢
  obtain ⟨hv, hb, ⟨ho, hp, hi, hd, hl⟩, hr⟩ := hm
  rw [hc]
  have := hle hl
  exact ⟨hv, hb, ⟨hoi ho, by dsimp only; omega, hi, hd, by dsimp only; omega⟩, hr⟩

theorem Market.SameAccounts.readable (h : m.SameAccounts m') (hm : m.core.Readable) :
    m'.core.Readable := by
  rw [readable_iff] at hm ⊢
  simpa only [LedgersNonneg, h.riskConfigVersion, h.config, h.currentOpenInterest,
    h.protocolFeeBalance, h.insuranceBalance, h.badDebt, h.vaultLiability,
    h.reconciliationStatus] using hm

theorem Market.Liquidated.readable {maxQuantity : ℕ} {mark fee : ℤ} {config : V3RiskConfig}
    {settled filled : TraderSeat}
    (h : Liquidated i maxQuantity mark config settled filled fee m m')
    (hm : m.core.Readable) : m'.core.Readable := by
  obtain ⟨_, hlog⟩ := h.result
  rw [hlog.readable, readable_iff]
  rw [readable_iff] at hm
  obtain ⟨hv, hb, ⟨-, hp, hi, hd, hl⟩, hr⟩ := hm
  have hf := h.dealt.fee_nonneg
  refine ⟨hv, hb, ⟨h.openInterest_nonneg, hp, ?_, ?_, hl⟩, hr⟩
  · dsimp only
    omega
  · dsimp only
    split <;> omega

end Readable

/-- From a readable core, an accepted action leads to a readable core exactly when it keeps to the
condition. -/
theorem World.Step.readable_iff (h : w.Step a w') (hw : w.live.core.Readable) :
    w'.live.core.Readable ↔ a.KeepsReadable w.live.core := by
  cases h with
  | opened _ _ _ logged => exact iff_of_true (logged.readable.2 hw) trivial
  | closed _ _ logged => exact iff_of_true (logged.readable.2 hw) trivial
  | deposited _ _ logged =>
    have hl := hw.liability_nonneg
    exact iff_of_true (logged.readable.2 (hw.withLiability.2 (by omega))) trivial
  | credited _ _ _ _ _ logged =>
    have hl := hw.liability_nonneg
    exact iff_of_true (logged.readable.2 (hw.withLiability.2 (by omega))) trivial
  | withdrawn _ debited =>
    exact (debited.logged.readable.trans hw.withLiability).trans sub_nonneg
  | requested _ _ debited =>
    exact (debited.logged.readable.trans hw.withLiability).trans sub_nonneg
  | @traded _ m trades =>
    have hm : m.core.Readable := trades.traded.readable hw
    cases trades <;> exact iff_of_true hm trivial
  | liquidated _ hliq => exact iff_of_true (hliq.readable hw) trivial
  | configured bounds _ =>
    obtain ⟨-, -, hl, hr⟩ := MarketCore.readable_iff.1 hw
    exact iff_of_true (MarketCore.readable_iff.2 ⟨rfl, bounds.effective, hl, hr⟩) trivial
  | @kept _ m upkeep same =>
    have hm : m.core.Readable := same.readable hw
    cases a <;> simp only [Action.isUpkeep, Bool.false_eq_true] at upkeep <;>
      exact iff_of_true hm trivial
  | reconciled logged =>
    obtain ⟨hv, hb, hl, -⟩ := MarketCore.readable_iff.1 hw
    obtain ⟨hi, hm, hle, hlev, hl', hma, ht, hliq, hd, hpos, hoi, -, hbuf⟩ := hb
    refine iff_of_true (logged.readable.2 (MarketCore.readable_iff.2 ⟨hv, ?_, hl, ?_⟩)) trivial
    · exact ⟨hi, hm, hle, hlev, hl', hma, ht, hliq, hd, hpos, hoi, le_rfl, hbuf⟩
    · exact Nat.zero_le _
  | rolledBack =>
    refine iff_of_false (fun h => ?_) id
    have hv := (MarketCore.readable_iff.1 h).1
    simp [MarketCore.rolledBack, blank, v3RiskConfigVersion] at hv
  | inboxed | paid | copiedShard | copiedCore | donated => exact iff_of_true hw trivial

/-- The core stays readable in every run whose withdrawals stay within the liability. -/
theorem readV3RiskConfig_succeeds (hinit : w₀.Initial) (hrun : Run
    (fun a w w' => a.Accepted w w' ∧ a.KeepsReadable w.live.core) w₀ as w) :
    ∃ config, readV3RiskConfig w.live.core = .ok config := by
  refine hrun.invariant (P := fun w => w.live.core.Readable) ?_ ?_
  · obtain ⟨_, hc⟩ := hinit.core_eq
    rw [hc, readable_iff]
    exact ⟨rfl, defaults_inBounds.effective,
      by simp [LedgersNonneg, initializeV3RiskConfig], Nat.zero_le _⟩
  · exact fun a t u ht ha => (ha.1.step.readable_iff ht).2 ha.2

theorem readV3RiskConfig_succeeds_of_tradeRun : ∃ config, readV3RiskConfig
    (genesis.after (tradeRun 10000 10 1000)).live.core = .ok config :=
  readV3RiskConfig_succeeds genesis_initial (run_of_accepts (by decide +kernel))

/-- Both traders of a fill withdraw all their collateral, each at a mark in their favour; the fee is
owed by no one. -/
def overdrawRun : List Action :=
  tradeRun 10000 10 1000 ++
    [.requestWithdrawalV3 (call 7 2000) 0 10000,
      .requestWithdrawalV3 (call 8 100) 1 10000]

theorem readV3RiskConfig_fails : ∃ w₀ as w, w₀.Initial ∧ Run Action.Accepted w₀ as w ∧
    w.live.core.vaultLiability = -5 ∧
    readV3RiskConfig w.live.core = .error (custom .riskViolation) :=
  ⟨genesis, overdrawRun, _, genesis_initial, run_accepted (by decide +kernel), by decide +kernel⟩

end Equinox
