import Equinox.Market.Gate
import Equinox.Risk.Fill

/-! # Seats and custody

Opening and closing seats, and the handlers that move a trader's claim on the
vault: deposits on L1, credits from the inbox, withdrawals on L1, and withdrawal
requests in the rollup. Each is followed by what it does when it succeeds.
-/

namespace Equinox

open Foundation CritBit TraderSeat ProgramError Market Risk

variable {m m' : Market} {ctx : Context} {i amount : ℕ}

/-! ## Seats -/

def TraderSeat.opened (trader : Address) (sequence : ℕ) : TraderSeat :=
  { empty with occupancy := true, trader := trader, sequence := sequence }

def Market.seated (m : Market) (trader : Address) : Bool :=
  (List.range v3SeatCount).any fun j => (m.seats j).occupancy && (m.seats j).trader = trader

def createTraderSeat (ctx : Context) (seatIndex : ℕ) : MarketM Unit := do
  let m ← asking id
  validateSeatCore m.core
  require (seatIndex < v3SeatCount) (custom .invalidSeat)
  require (m.seated ctx.signer = false) (custom .seatOccupied)
  require ((m.seats seatIndex).occupancy = false) (custom .seatOccupied)
  writeV3Seat seatIndex (opened ctx.signer m.core.globalEventSequence)
  appendEventRecord .traderSeatCreated (.seat seatIndex) ctx.now

variable {u : Unit}

theorem createTraderSeat_eq_ok (h : createTraderSeat ctx i m = .ok u m') :
    i < v3SeatCount ∧ m.seated ctx.signer = false ∧ (m.seats i).occupancy = false ∧
      (m.withSeat i (opened ctx.signer m.core.globalEventSequence)).Logged m' := by
  simp only [createTraderSeat, run_rules, run_writeV3Seat_bind] at h
  obtain ⟨⟨⟩, -, hi, hs, ho, h⟩ := h
  exact ⟨hi, hs, ho, (logged_of_appendEventRecord h).2⟩

def closeTraderSeat (ctx : Context) (seatIndex : ℕ) : MarketM Unit := do
  let m ← asking id
  validateActiveCore m.core
  require (seatIndex < v3SeatCount) (custom .invalidSeat)
  let seat := m.seats seatIndex
  require (seat.trader = ctx.signer) (custom .invalidSeat)
  require (seat.canClose = true) (custom .seatNotEmpty)
  writeV3Seat seatIndex empty
  appendEventRecord .traderSeatClosed (.seat seatIndex) ctx.now

theorem closeTraderSeat_eq_ok (h : closeTraderSeat ctx i m = .ok u m') :
    i < v3SeatCount ∧ (m.seats i).trader = ctx.signer ∧ (m.seats i).canClose = true ∧
      m.core.delegationStatus.isOnL1 = true ∧ (m.withSeat i empty).Logged m' := by
  simp only [closeTraderSeat, validateActiveCore, run_rules, run_writeV3Seat_bind] at h
  obtain ⟨⟨-, -, hl, -⟩, hi, ht, hc, h⟩ := h
  exact ⟨hi, ht, hc, hl, (logged_of_appendEventRecord h).2⟩

/-! ## Credits -/

/-- Raise a seat's collateral and the liability by one amount, and record it. -/
def writeCredit (seatIndex amount : ℕ) (seat : TraderSeat) (timestamp : ℕ) : MarketM Unit := do
  let core ← asking (·.core)
  let liability ← checkedI128 (custom .arithmeticOverflow) (core.vaultLiability + amount)
  writeV3Seat seatIndex seat
  modifyCore fun core => { core with vaultLiability := liability }
  appendEventRecord .collateralDeposited
    (.seatAmount seatIndex amount seat.availableCollateral.toNat) timestamp

theorem writeCredit_eq_ok {seat : TraderSeat} {t : ℕ}
    (h : writeCredit i amount seat t m = .ok u m') : Logged { m.withSeat i seat with
      core := { m.core with vaultLiability := m.core.vaultLiability + amount } } m' := by
  simp only [writeCredit, run_asking_bind, run_lift_bind, exists_checkedI128, run_writeV3Seat_bind,
    run_modifyCore_bind] at h
  exact (logged_of_appendEventRecord h.2).2

theorem lt_seatCount_of_shard_lt (h : i / v3SeatsPerShard < v3SeatShards) : i < v3SeatCount := by
  simp only [v3SeatsPerShard, v3SeatShards, v3SeatCount] at h ⊢
  omega

/-- A deposit on L1. `sourceAmount` is the balance of the trader's token account. -/
def depositCollateralV3 (ctx : Context) (seatIndex amount sourceAmount : ℕ) : MarketM Unit := do
  let m ← asking id
  require (amount ≠ 0) notEnoughAccountKeys
  require (seatIndex / v3SeatsPerShard < v3SeatShards) (custom .invalidSeat)
  let _ ← freshV3ExecutionTimeWithSnapshot ctx m.core
  let _ ← readV3RiskConfig m.core
  require (m.core.mode = 1 ∧ m.core.delegationStatus.isOnL1 = true ∧ m.core.commitPhase = .idle)
    (custom .custodyViolation)
  require (amount ≤ sourceAmount) (custom .custodyViolation)
  let seat := m.seats seatIndex
  require (seat.occupancy = true ∧ seat.trader = ctx.signer) (custom .invalidSeat)
  let collateral ← checkedI128 (custom .arithmeticOverflow) (seat.availableCollateral + amount)
  writeCredit seatIndex amount { seat with availableCollateral := collateral } ctx.now

theorem depositCollateralV3_eq_ok {source : ℕ}
    (h : depositCollateralV3 ctx i amount source m = .ok u m') :
    i < v3SeatCount ∧ (m.seats i).occupancy = true ∧
      m.core.delegationStatus.isOnL1 = true ∧ Logged { m.withSeat i { m.seats i with
        availableCollateral := (m.seats i).availableCollateral + amount } with
        core := { m.core with vaultLiability := m.core.vaultLiability + amount } } m' := by
  simp only [depositCollateralV3, run_rules, exists_checkedI128] at h
  obtain ⟨-, hi, _, -, _, -, ⟨-, hl, -⟩, -, ⟨ho, -⟩, -, h⟩ := h
  exact ⟨lt_seatCount_of_shard_lt hi, ho, hl, writeCredit_eq_ok h⟩

/-- Credit a seat with what its trader's receipt holds beyond what was credited before; returns
the amount. -/
def claimInboxDepositV3 (ctx : Context) (seatIndex : ℕ) (receiptTrader : Address)
    (receiptTotal : ℕ) : MarketM ℕ := do
  let m ← asking id
  validateEventCore m.core
  require (m.core.delegationStatus ≠ .undelegating) (custom .custodyViolation)
  require (seatIndex / v3SeatsPerShard < v3SeatShards) (custom .invalidSeat)
  let seat := m.seats seatIndex
  require (seat.occupancy = true ∧ seat.trader = receiptTrader) (custom .invalidSeat)
  require (seat.inboxCredited < receiptTotal) (custom .invalidInstruction)
  let amount := receiptTotal - seat.inboxCredited
  let collateral ← checkedI128 (custom .arithmeticOverflow) (seat.availableCollateral + amount)
  writeCredit seatIndex amount
    { seat with availableCollateral := collateral, inboxCredited := receiptTotal } ctx.now
  pure amount

theorem claimInboxDepositV3_eq_ok {trader : Address} {total : ℕ}
    (h : claimInboxDepositV3 ctx i trader total m = .ok amount m') :
    i < v3SeatCount ∧ (m.seats i).occupancy = true ∧ (m.seats i).trader = trader ∧
      (m.seats i).inboxCredited + amount = total ∧ 0 < amount ∧
      Logged { m.withSeat i { m.seats i with
        availableCollateral := (m.seats i).availableCollateral + amount
        inboxCredited := total } with
        core := { m.core with vaultLiability := m.core.vaultLiability + amount } } m' := by
  simp only [claimInboxDepositV3, run_rules, exists_checkedI128] at h
  obtain ⟨⟨⟩, -, -, hi, ⟨ho, ht⟩, hlt, -, h⟩ := h
  obtain ⟨⟨⟩, _, hc, he⟩ := run_bind_eq_ok.1 h
  obtain ⟨rfl, rfl⟩ := run_pure_eq_ok.1 he
  exact ⟨lt_seatCount_of_shard_lt hi, ho, ht, by omega, by omega, writeCredit_eq_ok hc⟩

/-! ## Debits -/

/-- Lower the liability by an amount already taken from a seat, and record it. -/
def writeDebit (seatIndex amount : ℕ) (seat : TraderSeat) (liability : ℤ) (timestamp : ℕ) :
    MarketM Unit := do
  writeV3Seat seatIndex seat
  modifyCore fun core => { core with vaultLiability := liability }
  appendEventRecord .collateralWithdrawn
    (.seatAmount seatIndex amount seat.availableCollateral.toNat) timestamp

theorem writeDebit_eq_ok {seat : TraderSeat} {liability : ℤ} {t : ℕ}
    (h : writeDebit i amount seat liability t m = .ok u m') : Logged { m.withSeat i seat with
      core := { m.core with vaultLiability := liability } } m' := by
  simp only [writeDebit, run_writeV3Seat_bind, run_modifyCore_bind] at h
  exact (logged_of_appendEventRecord h).2

def validateV3WithdrawalReadiness (m : Market) : Except ProgramError Unit := do
  validateExecutionBundle m
  require (m.core.delegationStatus = .restored) (custom .custodyViolation)
  require (m.core.expectedCommitSequence = m.core.lastCommittedSequence)
    (custom .custodyViolation)
  require (m.core.reconciliationStatus = 0 ∨ m.core.reconciliationStatus = 1)
    (custom .custodyViolation)

theorem validateV3WithdrawalReadiness_eq_ok (h : validateV3WithdrawalReadiness m = .ok ()) :
    m.core.delegationStatus = .restored := by
  simp only [validateV3WithdrawalReadiness, bind_eq_ok, require_eq_ok] at h
  obtain ⟨⟨⟩, -, ⟨⟩, hr, -⟩ := h
  exact hr

/-- A withdrawal on L1. `vaultAmount` is the balance of the vault. -/
def withdrawCollateralV3 (ctx : Context) (seatIndex amount vaultAmount : ℕ) : MarketM Unit := do
  let m ← asking id
  require (amount ≠ 0) notEnoughAccountKeys
  validateV3WithdrawalReadiness m
  require (seatIndex / v3SeatsPerShard < v3SeatShards) (custom .invalidSeat)
  let seat := m.seats seatIndex
  require (seat.occupancy = true ∧ seat.trader = ctx.signer ∧ seat.openOrderCount = 0)
    (custom .riskViolation)
  require (ctx.snapshot.isSome = true ∨ m.core.oracleValid = true) (custom .riskViolation)
  let _ ← freshV3ExecutionTimeWithSnapshot ctx m.core
  let markPrice ← oraclePriceAfterFreshness ctx m.core
  let liability ← checkedI128 (custom .riskViolation) (m.core.vaultLiability - amount)
  let config ← readV3RiskConfig m.core
  let updated ← riskOk (prepareWithdrawal seat amount m.core.fundingAccumulator
    markPrice.val config.maintenanceMarginBps config.withdrawalBuffer)
  require (amount ≤ vaultAmount) (custom .custodyViolation)
  writeDebit seatIndex amount updated liability ctx.now

/-- The seat and the ledger after an accepted withdrawal or request. -/
structure Market.Debited (m : Market) (seatIndex amount : ℕ) (seat : TraderSeat) (m' : Market) :
    Prop where
  index : seatIndex < v3SeatCount
  occupied : (m.seats seatIndex).occupancy = true
  covered : (amount : ℤ) ≤ (m.seats seatIndex).availableCollateral
  readable : ∃ config, readV3RiskConfig m.core = .ok config
  paid : ∃ payment, seat = { m.seats seatIndex with
    availableCollateral := (m.seats seatIndex).availableCollateral - amount
    realizedPnl := (m.seats seatIndex).realizedPnl - payment
    lastFundingAccumulator := m.core.fundingAccumulator
    withdrawalRequested := seat.withdrawalRequested }
  logged : Logged { m.withSeat seatIndex seat with
    core := { m.core with vaultLiability := m.core.vaultLiability - amount } } m'

theorem withdrawCollateralV3_eq_ok {vault : ℕ}
    (h : withdrawCollateralV3 ctx i amount vault m = .ok u m') :
    m.core.delegationStatus = .restored ∧ amount ≤ vault ∧ ∃ seat,
      seat.withdrawalRequested = (m.seats i).withdrawalRequested ∧ m.Debited i amount seat m' := by
  simp only [withdrawCollateralV3, run_rules, exists_checkedI128, riskOk_eq_ok] at h
  obtain ⟨-, ⟨⟩, hr, hi, ⟨ho, -, -⟩, -, _, -, _, -, -, config, hc, seat, hs, hv, h⟩ := h
  obtain ⟨-, hle, payment, hp⟩ := prepareWithdrawal_eq_ok hs
  exact ⟨validateV3WithdrawalReadiness_eq_ok hr, hv, seat, by rw [hp],
    lt_seatCount_of_shard_lt hi, ho, hle, ⟨config, hc⟩, ⟨payment, by rw [hp]⟩, writeDebit_eq_ok h⟩

def v3StaleWithdrawalStressBps : ℤ := 2500

/-- The mark a withdrawal request is checked at: the live price, else 1 without a position, else
the last authenticated price moved against the position. -/
def withdrawalMarkPrice (ctx : Context) (core : MarketCore) (basePosition : ℤ) :
    Except ProgramError ℤ :=
  match ctx.snapshot with
  | none => if basePosition = 0 then pure 1 else throw (custom .oracleUnavailable)
  | some snapshot =>
    if snapshot.validateForCore core ctx.now = .ok () then do
      require (0 < snapshot.price.val) (custom .oracleUnavailable)
      pure snapshot.price.val
    else if basePosition = 0 then pure 1
    else do
      let price ← (snapshot.lastVerifiedPrice core).mapError fun _ => custom .oracleUnavailable
      let factor := if 0 < basePosition then 10000 - v3StaleWithdrawalStressBps
        else 10000 + v3StaleWithdrawalStressBps
      require (price.val * factor < 2 ^ 63) (custom .arithmeticOverflow)
      pure (max ((price.val * factor).tdiv 10000) 1)

/-- A withdrawal request in the rollup, to be paid on L1 after a commit of the seat's shard. -/
def requestWithdrawalV3 (ctx : Context) (seatIndex amount : ℕ) : MarketM Unit := do
  let m ← asking id
  require (amount ≠ 0) notEnoughAccountKeys
  validateEventCore m.core
  require (m.core.delegationStatus = .delegated) (custom .custodyViolation)
  require (seatIndex / v3SeatsPerShard < v3SeatShards) (custom .invalidSeat)
  let seat := m.seats seatIndex
  require (seat.occupancy = true ∧ seat.trader = ctx.signer ∧ seat.openOrderCount = 0)
    (custom .riskViolation)
  let markPrice ← withdrawalMarkPrice ctx m.core seat.basePosition
  let config ← readV3RiskConfig m.core
  let updated ← riskOk (prepareWithdrawal seat amount m.core.fundingAccumulator
    markPrice config.maintenanceMarginBps config.withdrawalBuffer)
  let requested ←
    checkedU64 (custom .arithmeticOverflow) (updated.withdrawalRequested + amount)
  let liability ← checkedI128 (custom .riskViolation) (m.core.vaultLiability - amount)
  writeDebit seatIndex amount { updated with withdrawalRequested := requested } liability ctx.now

theorem requestWithdrawalV3_eq_ok (h : requestWithdrawalV3 ctx i amount m = .ok u m') :
    m.core.delegationStatus = .delegated ∧ (m.seats i).trader = ctx.signer ∧ ∃ seat,
      seat.withdrawalRequested = (m.seats i).withdrawalRequested + amount ∧
        m.Debited i amount seat m' := by
  simp only [requestWithdrawalV3, run_rules, exists_checkedI128, exists_checkedU64,
    riskOk_eq_ok] at h
  obtain ⟨-, ⟨⟩, -, hd, hi, ⟨ho, ht, -⟩, _, -, config, hc, seat, hs, -, -, h⟩ := h
  obtain ⟨-, hle, payment, hp⟩ := prepareWithdrawal_eq_ok hs
  exact ⟨hd, ht, { seat with withdrawalRequested := seat.withdrawalRequested + amount },
    by rw [hp], lt_seatCount_of_shard_lt hi, ho, hle, ⟨config, hc⟩,
    ⟨payment, by rw [hp]⟩, writeDebit_eq_ok h⟩

end Equinox
