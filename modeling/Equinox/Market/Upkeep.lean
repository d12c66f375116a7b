import Equinox.Book.Matching
import Equinox.Foundation.Frame
import Equinox.Market.Gate
import Equinox.Risk.Fill

/-! # Keeping the market

The instructions of operators and governance: liquidation at the verified mark,
the funding accumulator, verified prices, the risk configuration and the
reconciliation of the vault.
-/

namespace Equinox

open Foundation CritBit Risk Market

variable {m m' : Market} {ctx : Context} {i : ℕ} {u : Unit}

/-! ## Liquidation -/

/-- How much of a liquidatable seat one call may close. -/
def liquidationQuantity (seat : TraderSeat) (maxQuantity : ℕ) : ℤ :=
  min (max (|seat.basePosition|.tdiv 2) 1) maxQuantity

def liquidateV3 (ctx : Context) (seatIndex maxQuantity : ℕ) : MarketM Unit := do
  let m ← asking id
  require (maxQuantity ≠ 0) ProgramError.notEnoughAccountKeys
  validateExecutionBundle m
  let _ ← freshV3ExecutionTimeWithSnapshot ctx m.core
  require (m.core.isV3Operator ctx.signer = true ∧
    (ctx.snapshot.isSome = true ∨ m.core.oracleValid = true)) (custom .invalidInstruction)
  let mark ← oraclePriceAfterFreshness ctx m.core
  let config ← readV3RiskConfig m.core
  let seatBefore ← v3TradeSeat m seatIndex
  let (_, settled) ← riskOk (settleFunding seatBefore m.core.fundingAccumulator)
  let liquidatable ← riskOk (isLiquidatable settled mark.val config.maintenanceMarginBps)
  require (liquidatable = true) (custom .riskViolation)
  let partialQuantity ←
    riskOk (partialLiquidationQuantity settled mark.val config.maintenanceMarginBps)
  let quantity := min partialQuantity maxQuantity
  require (0 < quantity) (custom .riskViolation)
  let signed := if 0 < seatBefore.basePosition then -quantity else quantity
  let (fee, filled) ← riskOk (applyFill settled signed mark.val config.liquidationFeeBps)
  let seat ← riskOk (setLiquidationState filled mark.val config.maintenanceMarginBps)
  let oldAbs ← checkedI128 (custom .arithmeticOverflow) |seatBefore.basePosition|
  let newAbs ← checkedI128 (custom .arithmeticOverflow) |seat.basePosition|
  let reduction ← checkedI128 (custom .arithmeticOverflow) (oldAbs - newAbs)
  let postEquity ← riskOk (equity seat mark.val)
  let insurance ← checkedI128 (custom .arithmeticOverflow) (m.core.insuranceBalance + fee)
  let openInterest ← checkedI128 (custom .riskViolation) (m.core.currentOpenInterest - reduction)
  require (0 ≤ openInterest) (custom .riskViolation)
  let shortfall ← checkedI128 (custom .arithmeticOverflow)
    (if postEquity < 0 then -postEquity else 0)
  let badDebt ← checkedI128 (custom .arithmeticOverflow) (m.core.badDebt + shortfall)
  writeV3Seat seatIndex seat
  modifyCore fun core => { core with
    insuranceBalance := insurance, currentOpenInterest := openInterest, badDebt := badDebt }
  appendEventRecord .liquidationStarted (.liquidation seatIndex quantity mark.val) ctx.now
  appendEventRecord .positionChanged
    (.position seatIndex seat.basePosition seat.quoteEntryValue) ctx.now

/-- A liquidation: the seat settles its funding and trades at the mark; the fee goes to the
insurance and what the seat owes beyond its equity to the bad debt. -/
structure Market.Liquidated (seatIndex maxQuantity : ℕ) (mark : ℤ) (config : V3RiskConfig)
    (settled filled : TraderSeat) (fee : ℤ) (m m' : Market) : Prop where
  index : seatIndex < v3SeatCount
  occupied : (m.seats seatIndex).occupancy = true
  mark_pos : 0 < mark
  config_eq : readV3RiskConfig m.core = .ok config
  settled_eq : ∃ payment, settleFunding (m.seats seatIndex) m.core.fundingAccumulator =
    .ok (payment, settled)
  quantity_pos : 0 < liquidationQuantity settled maxQuantity
  filled_eq : applyFill settled (if 0 < (m.seats seatIndex).basePosition then
      -liquidationQuantity settled maxQuantity else liquidationQuantity settled maxQuantity)
    mark config.liquidationFeeBps = .ok (fee, filled)
  openInterest_nonneg : 0 ≤ m.core.currentOpenInterest -
    (|(m.seats seatIndex).basePosition| - |filled.basePosition|)
  result : ∃ state, Logged { m.withSeat seatIndex { filled with
      liquidationState := state } with core := { m.core with
    insuranceBalance := m.core.insuranceBalance + fee
    currentOpenInterest := m.core.currentOpenInterest -
      (|(m.seats seatIndex).basePosition| - |filled.basePosition|)
    badDebt := m.core.badDebt + if filled.value mark < 0 then -filled.value mark else 0 } } m'

namespace Risk

variable {seat seat' : TraderSeat} {mark : ℤ} {bps : ℕ}

theorem partialLiquidationQuantity_eq_ok {quantity : ℤ}
    (hl : isLiquidatable seat mark bps = .ok true)
    (h : partialLiquidationQuantity seat mark bps = .ok quantity) :
    quantity = max (|seat.basePosition|.tdiv 2) 1 := by
  simp only [partialLiquidationQuantity, hl, ok_bind, if_true, ok_rules, abs_eq_ok] at h
  obtain ⟨_, ⟨-, rfl⟩, h⟩ := h
  exact h.symm

theorem setLiquidationState_eq_ok (h : setLiquidationState seat mark bps = .ok seat') :
    ∃ state, seat' = { seat with liquidationState := state } := by
  simp only [setLiquidationState, ok_rules] at h
  obtain ⟨_, -, rfl⟩ := h
  exact ⟨_, rfl⟩

end Risk

theorem liquidateV3_eq_ok {maxQuantity : ℕ} (h : liquidateV3 ctx i maxQuantity m = .ok u m') :
    ∃ mark config settled filled fee, oraclePriceAfterFreshness ctx m.core = .ok mark ∧
      Liquidated i maxQuantity mark.val config settled filled fee m m' := by
  simp only [liquidateV3, run_rules, exists_checkedI128, riskOk_eq_ok, v3TradeSeat_eq_ok,
    run_writeV3Seat_bind, run_modifyCore_bind] at h
  obtain ⟨-, ⟨⟩, -, _, -, -, mark, hm, config, hc, seat, ⟨hi, ho, -, rfl⟩,
    ⟨payment, settled⟩, hs, liquidatable, hl, rfl, quantity, hq, hpos,
    ⟨fee, filled⟩, hf, after, hsta, -, -, -, equity, he, -, -, hoi, -, -, h⟩ := h
  obtain rfl := partialLiquidationQuantity_eq_ok hl hq
  obtain ⟨state, rfl⟩ := setLiquidationState_eq_ok hsta
  obtain rfl := equity_eq_value he
  obtain ⟨⟨⟩, m₁, hst, h⟩ := run_bind_eq_ok.1 h
  refine ⟨mark, config, settled, filled, fee, hm, hi, ho, oraclePriceAfterFreshness_pos hm,
    hc, ⟨payment, hs⟩, hpos, hf, hoi, state, ?_⟩
  exact (logged_of_appendEventRecord hst).2.trans (logged_of_appendEventRecord h).2

/-! ## Funding -/

def betterPrice (side : Side) (best : Option I64) (price : I64) : I64 :=
  match best, side with
  | none, _ => price
  | some current, .bid => max current price
  | some current, .ask => min current price

/-- The best price the two trees of a side offer at their heads. -/
def bestFor (b : PagedBookV3) (side : Side) (oracle : I64) (now : ℕ) :
    Except ProgramError (Option I64) :=
  [TreeKind.fixed, TreeKind.oraclePegged].foldlM (fun best tree => do
    match ← b.bestExecutablePrice tree side oracle now with
    | none => pure best
    | some price => pure (some (betterPrice side best price))) none

/-- The mark before clamping: the middle of an uncrossed book, its only side, or the index. -/
def bookMark (bestBid bestAsk : Option I64) (oracle : I64) : ℤ :=
  match bestBid, bestAsk with
  | some bid, some ask => if bid.val < ask.val then (bid.val + ask.val).tdiv 2 else oracle.val
  | some bid, none => bid.val
  | none, some ask => ask.val
  | none, none => oracle.val

/-- The mark within the configured deviation of the index. -/
def clampMark (mark oracle : ℤ) (markDeviationBps : ℕ) : ℤ :=
  let deviationBps : ℤ := if markDeviationBps = 0 then 500 else markDeviationBps
  let maxDeviation := (oracle * deviationBps).tdiv 10000
  min (max mark (max (oracle - maxDeviation) 1)) (oracle + maxDeviation)

def updateFundingV3 (ctx : Context) (accumulator : ℤ) (timestamp : ℕ) : MarketM Unit := do
  let m ← asking id
  validateExecutionBundle m
  require (m.core.isV3Operator ctx.signer = true ∧ (ctx.snapshot.isSome = true ∨
    (m.core.oracleValid = true ∧ 1 ≤ m.core.mode ∧ m.core.mode ≤ 3))) (custom .oracleUnavailable)
  let now ← freshV3ExecutionTimeWithSnapshot ctx m.core
  let oracle ← oraclePriceAfterFreshness ctx m.core
  let config ← readV3RiskConfig m.core
  require (timestamp ≤ now + 2) (custom .oracleUnavailable)
  let bestBid ← bestFor (m.books .bid) .bid oracle now
  let bestAsk ← bestFor (m.books .ask) .ask oracle now
  let mark := clampMark (bookMark bestBid bestAsk oracle) oracle.val config.markDeviationBps
  require (m.core.lastFundingTimestamp ≤ timestamp ∧ m.core.fundingAccumulator ≤ accumulator)
    (custom .invalidInstruction)
  let scaled ← checkedI128 (custom .arithmeticOverflow) ((mark - oracle.val) * 10000)
  let cap := min ((timestamp - m.core.lastFundingTimestamp : ℕ) : ℤ) |scaled.tdiv oracle.val|
  let requested ← checkedI128 (custom .arithmeticOverflow)
    (accumulator - m.core.fundingAccumulator)
  require (|requested| ≤ cap) (custom .invalidInstruction)
  modifyCore fun core => { core with
    fundingAccumulator := accumulator, lastFundingTimestamp := timestamp }
  appendEventRecord .fundingAccumulatorUpdated (.funding accumulator) timestamp

/-- Seats, books, ledgers and the risk configuration are as they were; what else the core holds may
have changed. -/
structure Market.SameAccounts (m m' : Market) : Prop where
  seats : m'.seats = m.seats
  books : m'.books = m.books
  config : m'.core.config = m.core.config
  riskConfigVersion : m'.core.riskConfigVersion = m.core.riskConfigVersion
  reconciliationStatus : m'.core.reconciliationStatus = m.core.reconciliationStatus
  currentOpenInterest : m'.core.currentOpenInterest = m.core.currentOpenInterest
  protocolFeeBalance : m'.core.protocolFeeBalance = m.core.protocolFeeBalance
  insuranceBalance : m'.core.insuranceBalance = m.core.insuranceBalance
  badDebt : m'.core.badDebt = m.core.badDebt
  vaultLiability : m'.core.vaultLiability = m.core.vaultLiability
  globalOrderSequence : m'.core.globalOrderSequence = m.core.globalOrderSequence

theorem Market.Logged.sameAccounts (h : m.Logged m') : m.SameAccounts m' := by
  obtain ⟨⟨s, hs⟩, hb, hse, -⟩ := h
  constructor <;> first | assumption | rw [hs]

instance Market.sameAccounts_refl : Std.Refl SameAccounts := ⟨fun _ => by constructor <;> rfl⟩

instance Market.sameAccounts_trans : IsTrans Market SameAccounts where
  trans _ _ _ h h' := by
    obtain ⟨⟩ := h
    obtain ⟨⟩ := h'
    constructor <;> simp only [*]

instance sameAccounts_appendEventRecord (kind : EventKind) (payload : EventPayload) (t : ℕ) :
    Leads SameAccounts (appendEventRecord kind payload t) where
  of_ok h := (logged_of_appendEventRecord h).2.sameAccounts

/-! ## Verified prices -/

/-- A price the oracle program has verified, with its feed and session. -/
structure VerifiedOracle where
  feedId : ℕ
  channel : ℕ
  exponent : ℤ
  price : I64
  confidence : ℤ
  session : ℕ
  envelopeTimestampUs : ℕ
  feedUpdateTimestampUs : ℕ

/-- The mode a session puts the market in: open up to overnight, close-only when closed. -/
def sessionMode (session : ℕ) : Option ℕ :=
  if session ≤ 3 then some 1 else if session = 4 then some 2 else none

def consumeOracleUpdateV3 (ctx : Context) (verified : VerifiedOracle) : MarketM Unit := do
  let m ← asking id
  require (verified.feedUpdateTimestampUs ≤ verified.envelopeTimestampUs)
    (custom .oracleUnavailable)
  let timestamp := verified.feedUpdateTimestampUs / 1000000
  require (m.core.initialized = true ∧ m.core.riskConfigVersion = v3RiskConfigVersion ∧
    m.core.oracleFeedId = verified.feedId ∧ m.core.oracleChannel = verified.channel ∧
    verified.exponent = m.core.oracleExponent ∧ 0 < verified.price.val ∧ 0 ≤ verified.confidence ∧
    verified.confidence.toNat ≤ verified.price.val.natAbs / 5 ∧ timestamp ≤ ctx.now + 2 ∧
    ctx.now ≤ timestamp + 10 ∧ m.core.oracleTimestamp < timestamp) (custom .oracleUnavailable)
  let mode ← okOr (sessionMode verified.session) (custom .oracleUnavailable)
  let payload := EventPayload.oracle verified.price.val verified.exponent
    verified.confidence.toNat verified.session
  modifyCore fun core => { core with
    oraclePrice := verified.price
    oracleTimestamp := timestamp
    oracleValid := true
    oracleSession := verified.session
    oracleConfidence := verified.confidence.toNat
    mode := mode }
  appendEventRecord .oracleUpdated payload timestamp
  if m.core.mode ≠ mode then appendEventRecord .marketSessionChanged payload timestamp
  else pure ()

/-! ## Governance -/

def updateV3RiskConfig (ctx : Context) (config : V3RiskConfig) : MarketM Unit := do
  let m ← asking id
  let _ ← readV3RiskConfig m.core
  require (m.core.initialized = true ∧ m.core.marketAuthority = ctx.signer ∧ config.InBounds ∧
    0 ≤ m.core.currentOpenInterest ∧ (0 < config.maximumOpenInterest →
      m.core.currentOpenInterest ≤ config.maximumOpenInterest)) (custom .riskViolation)
  modifyCore fun core =>
    { core with config := config, riskConfigVersion := v3RiskConfigVersion }

theorem updateV3RiskConfig_eq_ok {config : V3RiskConfig}
    (h : updateV3RiskConfig ctx config m = .ok u m') :
    config.InBounds ∧ (∃ old, readV3RiskConfig m.core = .ok old) ∧ m' = { m with
      core := { m.core with config := config, riskConfigVersion := v3RiskConfigVersion } } := by
  simp only [updateV3RiskConfig, run_rules, run_modifyCore] at h
  obtain ⟨old, hold, ⟨-, -, hb, -, -⟩, rfl⟩ := h
  exact ⟨hb, ⟨old, hold⟩, rfl⟩

/-- Write one of the core's keys, market authority only. -/
def setCoreKey (ctx : Context) (write : MarketCore → MarketCore) : MarketM Unit := do
  let m ← asking id
  require (m.core.marketAuthority = ctx.signer) ProgramError.missingRequiredSignature
  modifyCore write

def setV3Keeper (ctx : Context) (keeper : Address) : MarketM Unit :=
  setCoreKey ctx fun core => { core with keeper := keeper }

def setV3PriceReporter (ctx : Context) (reporter : Address) : MarketM Unit :=
  setCoreKey ctx fun core => { core with priceReporter := reporter }

/-! ## Reconciliation -/

def MarketCore.expectedVault (core : MarketCore) : ℤ :=
  core.vaultLiability + core.protocolFeeBalance + core.insuranceBalance - core.badDebt

inductive ReconciliationStatus where
  | reconciled | surplusDetected | deficitDetected
  deriving DecidableEq, Repr

def ReconciliationStatus.toByte : ReconciliationStatus → ℕ
  | reconciled => 0
  | surplusDetected => 1
  | deficitDetected => 2

def ReconciliationStatus.eventKind : ReconciliationStatus → EventKind
  | reconciled => .vaultReconciled
  | surplusDetected => .vaultSurplusDetected
  | deficitDetected => .vaultDeficitDetected

def reconciliationStatus (actual expected : ℤ) : ReconciliationStatus :=
  if actual = expected then .reconciled
  else if expected < actual then .surplusDetected else .deficitDetected

/-- Compare the vault with the ledgers; a difference pauses the market. -/
def reconcileVaultV3 (ctx : Context) (vaultAmount : ℕ) : MarketM Unit := do
  let m ← asking id
  validateExecutionBundleInner true m
  let returned := m.core.isReturned
  require (returned = true ∨ (m.core.delegationStatus.isOnL1 = true ∧ m.core.commitPhase = .idle))
    (custom .custodyViolation)
  let gross ← checkedI128 (custom .arithmeticOverflow)
    (m.core.vaultLiability + m.core.protocolFeeBalance)
  let total ← checkedI128 (custom .arithmeticOverflow) (gross + m.core.insuranceBalance)
  let expected ← checkedI128 (custom .arithmeticOverflow) (total - m.core.badDebt)
  require (0 ≤ expected) (custom .riskViolation)
  let status := reconciliationStatus vaultAmount expected
  let expectedU64 ← checkedU64 (custom .arithmeticOverflow) expected.toNat
  modifyCore fun core => { core with
    reconciliationStatus := status.toByte
    config := { core.config with
      vaultSurplus := if status = .surplusDetected then vaultAmount - expected else 0 }
    delegationStatus := if returned then .restored else core.delegationStatus
    commitPhase := if returned then .idle else core.commitPhase
    mode := if status = .reconciled then core.mode else 0 }
  appendEventRecord status.eventKind
    (.reconciliation vaultAmount expectedU64 status.toByte) ctx.now

/-- A reconciliation that is recorded found the vault as expected: recording needs an open market,
and a difference has just paused it. -/
theorem reconcileVaultV3_eq_ok {vault : ℕ} (h : reconcileVaultV3 ctx vault m = .ok u m') :
    (vault : ℤ) = m.core.expectedVault ∧ ∃ status phase, Logged { m with
      core := { m.core with
        reconciliationStatus := 0
        config := { m.core.config with vaultSurplus := 0 }
        delegationStatus := status
        commitPhase := phase } } m' := by
  simp only [reconcileVaultV3, run_rules, exists_checkedI128, exists_checkedU64,
    run_modifyCore_bind] at h
  obtain ⟨⟨⟩, -, -, -, -, -, -, -, h⟩ := h
  obtain ⟨he, hl⟩ := logged_of_appendEventRecord h
  simp only [validateEventCore, require_eq_ok] at he
  have hs : reconciliationStatus vault (m.core.vaultLiability +
      m.core.protocolFeeBalance + m.core.insuranceBalance - m.core.badDebt) = .reconciled := by
    by_contra hne
    simp [hne] at he
  have heq : (vault : ℤ) = m.core.expectedVault := by
    unfold reconciliationStatus at hs
    split at hs
    · assumption
    · split at hs <;> simp at hs
  rw [hs] at hl
  simp only [reduceCtorEq, if_false, if_true, ReconciliationStatus.toByte] at hl
  exact ⟨heq, _, _, hl⟩

end Equinox
