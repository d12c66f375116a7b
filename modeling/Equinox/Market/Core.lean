import Equinox.Book.Paged
import Equinox.Risk.Seat

/-! # The market core

The durable state of a market outside its books: lifecycle, oracle, risk
configuration and ledgers in one core account, 128 seats in four shards, and a
ring of event records in four more. Handlers run on this state and may fail
half way; the runtime then discards what they wrote.
-/

namespace Equinox

open Foundation CritBit

inductive DelegationStatus where
  | notDelegated | delegated | undelegating | restored
  deriving DecidableEq, Repr

inductive CommitPhase where
  | idle | snapshot | undelegating
  deriving DecidableEq, Repr

structure V3RiskConfig where
  initialMarginBps : ℕ
  maintenanceMarginBps : ℕ
  liquidationFeeBps : ℕ
  makerFeeBps : ℕ
  takerFeeBps : ℕ
  maximumLeverage : ℕ
  maximumPosition : ℤ
  maximumOpenInterest : ℤ
  markDeviationBps : ℕ
  vaultSurplus : ℤ
  withdrawalBuffer : ℤ
  deriving DecidableEq, Repr

def V3RiskConfig.defaults : V3RiskConfig where
  initialMarginBps := 2000
  maintenanceMarginBps := 1000
  liquidationFeeBps := 50
  makerFeeBps := 0
  takerFeeBps := 5
  maximumLeverage := 5
  maximumPosition := 0
  maximumOpenInterest := 0
  markDeviationBps := 0
  vaultSurplus := 0
  withdrawalBuffer := 0

/-- The commit of one child account that the core remembers. -/
structure ChildRecord where
  epoch : ℕ
  sequence : ℕ
  digest : ℕ
  deriving DecidableEq, Repr

def ChildRecord.blank : ChildRecord := { epoch := 0, sequence := 0, digest := 0 }

/-- The core account. `config` holds the stored fields of the risk configuration, before the
fallback for zero values. -/
structure MarketCore where
  address : Address
  initialized : Bool
  mode : ℕ
  instrument : Address
  marketAuthority : Address
  globalOrderSequence : U64
  globalEventSequence : ℕ
  fundingAccumulator : ℤ
  lastFundingTimestamp : ℕ
  oracleValid : Bool
  oraclePrice : I64
  oracleTimestamp : ℕ
  delegationStatus : DelegationStatus
  expectedCommitSequence : ℕ
  lastCommittedSequence : ℕ
  validator : Address
  oracleFeedId : ℕ
  oracleChannel : ℕ
  oracleExponent : ℤ
  config : V3RiskConfig
  currentOpenInterest : ℤ
  protocolFeeBalance : ℤ
  insuranceBalance : ℤ
  badDebt : ℤ
  vaultLiability : ℤ
  reconciliationStatus : ℕ
  riskConfigVersion : ℕ
  commitPhase : CommitPhase
  snapshotEpoch : ℕ
  snapshotChildCount : ℕ
  childRecords : ℕ → ChildRecord
  oracleSession : ℕ
  oracleConfidence : ℕ
  keeper : Address
  priceReporter : Address

inductive EventKind where
  | traderSeatCreated | traderSeatClosed | orderPlaced | orderPartiallyFilled | orderFilled
  | orderCancelled | positionChanged | fundingAccumulatorUpdated | liquidationStarted
  | collateralDeposited | collateralWithdrawn | vaultSurplusDetected | vaultDeficitDetected
  | vaultReconciled | oracleUpdated | marketSessionChanged | commitRequested
  | undelegationRequested | tradingSessionAuthorized | tradingSessionRevoked
  | tradingSessionLimitsUpdated | tradingSessionClosed
  -- the kinds that only V2 markets log
  | marketRiskUpdated | marketPaused | marketResumed | marketCloseOnly | corporateActionEntered
  | corporateActionResolved | marketClosed | cancelAllProgress | orderReplaced | orderExpired
  | invalidOrderRemoved | selfTradePrevented | marginChanged | fundingSettled | positionLiquidated
  | vaultInitialized | protocolFeesChanged | insuranceFundChanged | badDebtRecorded
  | badDebtResolved | delegationRequested | marketDelegated | commitSequenceChanged
  | restorationPending | marketRestored | tradingSessionActionConsumed
  deriving DecidableEq, Repr

/-- The payload of an event, by its fields. -/
inductive EventPayload where
  | seat (seatIndex : ℕ)
  | seatAmount (seatIndex amount balance : ℕ)
  | order (seatIndex : ℕ) (orderKey : Key) (side : Side) (price : ℤ) (quantity : ℕ)
  | fill (makerSeat takerSeat price quantity fillSequence : ℕ)
  | position (seatIndex : ℕ) (basePosition quoteEntryValue : ℤ)
  | funding (accumulator : ℤ)
  | liquidation (seatIndex : ℕ) (quantity price : ℤ)
  | oracle (price exponent : ℤ) (confidence session : ℕ)
  | delegation (validator : Address) (sequence : ℕ)
  | reconciliation (actual expected status : ℕ)
  | session (seatIndex : ℕ) (sessionSigner : Address) (generation : ℕ)
  | empty
  | seatFunding (seatIndex : ℕ) (accumulator payment : ℤ)
  /-- An order whose side, price and quantity are not at hand. -/
  | orderKey (seatIndex : ℕ) (orderKey : Key)
  deriving DecidableEq, Repr

structure EventRecord where
  kind : EventKind
  sequence : ℕ
  timestamp : ℕ
  payload : EventPayload
  deriving DecidableEq, Repr

structure TradingSession where
  initialized : Bool
  revoked : Bool
  createdAt : ℕ
  expiresAt : ℕ
  actions : ℕ
  maxOrderNotional : ℕ
  maxCumulativeNotional : ℕ
  consumedCumulativeNotional : ℕ
  maxExposure : ℤ
  maxOpenOrders : ℕ
  nextExpectedNonce : ℕ
  lastActionTimestamp : ℕ
  sessionGeneration : ℕ
  deriving DecidableEq, Repr

/-- What a session account is derived from, besides the market. -/
structure SessionKey where
  owner : Address
  seatIndex : ℕ
  sessionSigner : Address
  deriving DecidableEq, Repr

structure Market where
  core : MarketCore
  books : Side → PagedBookV3
  seats : ℕ → TraderSeat
  events : ℕ → ℕ → Option EventRecord
  sessions : SessionKey → Option TradingSession

abbrev custom (error : EquinoxError) : ProgramError := .custom error

abbrev MarketM := EStateM ProgramError Market

def v3SeatShards : ℕ := 4

def v3SeatsPerShard : ℕ := 32

def v3SeatCount : ℕ := v3SeatShards * v3SeatsPerShard

def v3EventShards : ℕ := 4

def v3EventsPerShard : ℕ := 32

def v3RiskConfigVersion : ℕ := 2

def v3RiskError : RiskError → ProgramError
  | .overflow => custom .arithmeticOverflow
  | .invalidPrice => custom .invalidInstruction
  | .negativeCollateral | .margin => custom .riskViolation

/-- A risk computation, with its errors as the program reports them. -/
def riskOk {α : Type} (x : Except RiskError α) : Except ProgramError α := x.mapError v3RiskError

@[simp] theorem riskOk_eq_ok {α : Type} {x : Except RiskError α} {a : α} :
    riskOk x = .ok a ↔ x = .ok a := mapError_eq_ok

/-! ## The risk configuration -/

def orDefault (value fallback : ℕ) : ℕ := if value = 0 then fallback else value

def V3RiskConfig.effective (stored : V3RiskConfig) : V3RiskConfig :=
  { stored with
    initialMarginBps := orDefault stored.initialMarginBps V3RiskConfig.defaults.initialMarginBps
    maintenanceMarginBps :=
      orDefault stored.maintenanceMarginBps V3RiskConfig.defaults.maintenanceMarginBps
    liquidationFeeBps := orDefault stored.liquidationFeeBps V3RiskConfig.defaults.liquidationFeeBps
    makerFeeBps := orDefault stored.makerFeeBps V3RiskConfig.defaults.makerFeeBps
    takerFeeBps := orDefault stored.takerFeeBps V3RiskConfig.defaults.takerFeeBps
    maximumLeverage := orDefault stored.maximumLeverage V3RiskConfig.defaults.maximumLeverage
    markDeviationBps := orDefault stored.markDeviationBps V3RiskConfig.defaults.markDeviationBps }

/-- The bounds that reading and updating a configuration both check. -/
def V3RiskConfig.InBounds (config : V3RiskConfig) : Prop :=
  config.initialMarginBps ≠ 0 ∧ config.maintenanceMarginBps ≠ 0 ∧
  config.maintenanceMarginBps ≤ config.initialMarginBps ∧ config.maximumLeverage ≠ 0 ∧
  config.maximumLeverage ≤ 100 ∧ config.makerFeeBps ≤ 1000 ∧ config.takerFeeBps ≤ 1000 ∧
  config.liquidationFeeBps ≤ 1000 ∧ config.markDeviationBps ≤ 10000 ∧
  0 ≤ config.maximumPosition ∧ 0 ≤ config.maximumOpenInterest ∧ 0 ≤ config.vaultSurplus ∧
  0 ≤ config.withdrawalBuffer

instance (config : V3RiskConfig) : Decidable config.InBounds := by
  unfold V3RiskConfig.InBounds; infer_instance

theorem orDefault_of_ne_zero {value fallback : ℕ} (h : value ≠ 0) :
    orDefault value fallback = value := if_neg h

theorem orDefault_le {value fallback bound : ℕ} (h : value ≤ bound) (h' : fallback ≤ bound) :
    orDefault value fallback ≤ bound := by
  unfold orDefault
  split <;> assumption

theorem V3RiskConfig.InBounds.effective {config : V3RiskConfig} (h : config.InBounds) :
    config.effective.InBounds := by
  obtain ⟨hi, hm, hle, hl, hl', hma, ht, hliq, hd, hr⟩ := h
  simp only [InBounds, V3RiskConfig.effective, orDefault_of_ne_zero hi, orDefault_of_ne_zero hm,
    orDefault_of_ne_zero hl]
  exact ⟨hi, hm, hle, hl, hl', orDefault_le hma (by decide), orDefault_le ht (by decide),
    orDefault_le hliq (by decide), orDefault_le hd (by decide), hr⟩

/-- The ledgers of a core that must not be negative. -/
def MarketCore.LedgersNonneg (core : MarketCore) : Prop :=
  0 ≤ core.currentOpenInterest ∧ 0 ≤ core.protocolFeeBalance ∧ 0 ≤ core.insuranceBalance ∧
  0 ≤ core.badDebt ∧ 0 ≤ core.vaultLiability

instance (core : MarketCore) : Decidable core.LedgersNonneg := by
  unfold MarketCore.LedgersNonneg; infer_instance

def readV3RiskConfig (core : MarketCore) : Except ProgramError V3RiskConfig := do
  require (core.riskConfigVersion = v3RiskConfigVersion) bundleError
  let config := core.config.effective
  require (config.InBounds ∧ core.LedgersNonneg ∧ core.reconciliationStatus ≤ 3)
    (custom .riskViolation)
  pure config

theorem readV3RiskConfig_eq_ok {core : MarketCore} {config : V3RiskConfig} :
    readV3RiskConfig core = .ok config ↔
      core.riskConfigVersion = v3RiskConfigVersion ∧ config.InBounds ∧ core.LedgersNonneg ∧
        core.reconciliationStatus ≤ 3 ∧ core.config.effective = config := by
  simp only [readV3RiskConfig, ok_rules, require_eq_ok]
  constructor
  · rintro ⟨⟨⟩, hv, ⟨⟩, ⟨hb, hl, hr⟩, rfl⟩
    exact ⟨hv, hb, hl, hr, rfl⟩
  · rintro ⟨hv, hb, hl, hr, rfl⟩
    exact ⟨(), hv, (), ⟨hb, hl, hr⟩, rfl⟩

def MarketCore.isV3Operator (core : MarketCore) (signer : Address) : Bool :=
  core.marketAuthority = signer || (core.keeper ≠ 0 && core.keeper = signer)

/-! ## Activation -/

def MarketCore.blank (address instrument : Address) : MarketCore where
  address := address
  initialized := true
  mode := 0
  instrument := instrument
  marketAuthority := 0
  globalOrderSequence := 0
  globalEventSequence := 0
  fundingAccumulator := 0
  lastFundingTimestamp := 0
  oracleValid := false
  oraclePrice := 0
  oracleTimestamp := 0
  delegationStatus := .notDelegated
  expectedCommitSequence := 0
  lastCommittedSequence := 0
  validator := 0
  oracleFeedId := 0
  oracleChannel := 0
  oracleExponent := 0
  config :=
    { initialMarginBps := 0, maintenanceMarginBps := 0, liquidationFeeBps := 0, makerFeeBps := 0
      takerFeeBps := 0, maximumLeverage := 0, maximumPosition := 0, maximumOpenInterest := 0
      markDeviationBps := 0, vaultSurplus := 0, withdrawalBuffer := 0 }
  currentOpenInterest := 0
  protocolFeeBalance := 0
  insuranceBalance := 0
  badDebt := 0
  vaultLiability := 0
  reconciliationStatus := 0
  riskConfigVersion := 0
  commitPhase := .idle
  snapshotEpoch := 0
  snapshotChildCount := 0
  childRecords := fun _ => .blank
  oracleSession := 0
  oracleConfidence := 0
  keeper := 0
  priceReporter := 0

def initializeV3RiskConfig (core : MarketCore) : MarketCore :=
  { core with
    config := V3RiskConfig.defaults
    currentOpenInterest := 0
    protocolFeeBalance := 0
    insuranceBalance := 0
    badDebt := 0
    vaultLiability := 0
    reconciliationStatus := 0
    riskConfigVersion := v3RiskConfigVersion }

/-- Bind a created core to the listing authority and its instrument's feed. -/
def initializeV3Market (authority : Address) (feedId channel : ℕ) (exponent : ℤ)
    (core : MarketCore) : Except ProgramError MarketCore := do
  require (feedId ≠ 0 ∧ 1 ≤ channel ∧ channel ≤ 4 ∧ -12 ≤ exponent ∧ exponent ≤ 0)
    (custom .oracleUnavailable)
  require (core.initialized = true) (custom .invalidInstruction)
  require (core.mode = 0 ∧ core.marketAuthority = 0) (custom .invalidInstruction)
  pure (initializeV3RiskConfig { core with
    mode := 1
    marketAuthority := authority
    oracleFeedId := feedId
    oracleChannel := channel
    oracleExponent := exponent })

theorem initializeV3Market_eq_ok {authority : Address} {feedId channel : ℕ} {exponent : ℤ}
    {core core' : MarketCore}
    (h : initializeV3Market authority feedId channel exponent core = .ok core') :
    ∃ bound, core' = initializeV3RiskConfig bound := by
  simp only [initializeV3Market, ok_rules] at h
  exact ⟨_, h.2.2.2.symm⟩

end Equinox
