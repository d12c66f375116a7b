import Equinox.Market.Lifecycle
import Equinox.Market.Order
import Equinox.V2.Planner

/-! # The V2 market

A V2 market is one account: a header with lifecycle, oracle, risk parameters and
ledgers, two arenas, 128 seats and a ring of fills. Its events are only logged.
Handlers work on a copy of the header that they write back; here they change the
header in place, and the runtime discards what a failed one wrote.
-/

namespace Equinox.V2

open Foundation CritBit Function

inductive MarketMode where
  | paused | open | closeOnly | emergency
  deriving DecidableEq, Repr

inductive ReconciliationStatus where
  | reconciled | surplusDetected | deficitDetected | recoveryRequired
  deriving DecidableEq, Repr

def ReconciliationStatus.toByte : ReconciliationStatus → ℕ
  | reconciled => 0
  | surplusDetected => 1
  | deficitDetected => 2
  | recoveryRequired => 3

/-- The header. The fields from `collateralDecimals` on live in its reserved bytes. -/
structure MarketStateHeader where
  initialized : Bool
  mode : MarketMode
  marketAuthority : Address
  pauseAuthority : Address
  emergencyAuthority : Address
  collateralMint : Address
  collateralTokenProgram : Address
  priceExponent : ℤ
  initialMarginBps : ℕ
  maintenanceMarginBps : ℕ
  liquidationFeeBps : ℕ
  makerFeeBps : ℕ
  takerFeeBps : ℕ
  maximumLeverage : ℕ
  currentOpenInterest : ℤ
  globalOrderSequence : U64
  globalEventSequence : ℕ
  fundingAccumulator : ℤ
  lastFundingTimestamp : ℕ
  oracleValid : Bool
  lastVerifiedOraclePrice : I64
  lastVerifiedOracleTimestamp : ℕ
  collateralDecimals : ℕ
  vaultConfigured : Bool
  delegationStatus : DelegationStatus
  expectedCommitSequence : ℕ
  lastCommittedSequence : ℕ
  instrumentId : ℕ
  oracleFeedId : ℕ
  oracleChannel : ℕ
  validator : Address
  delegationSequence : ℕ
  commitIntervalMs : ℕ
  expectedFinalCommitSequence : ℕ
  pendingUndelegation : Bool
  protocolFeeBalance : ℕ
  insuranceFundBalance : ℕ
  recognizedBadDebt : ℕ
  reconciliationStatus : ReconciliationStatus
  vaultSurplus : ℕ
  clusterMemberCount : ℕ
  markDeviationBps : ℤ

namespace MarketStateHeader

def empty : MarketStateHeader where
  initialized := false
  mode := .paused
  marketAuthority := 0
  pauseAuthority := 0
  emergencyAuthority := 0
  collateralMint := 0
  collateralTokenProgram := 0
  priceExponent := -6
  initialMarginBps := 2000
  maintenanceMarginBps := 1000
  liquidationFeeBps := 50
  makerFeeBps := 0
  takerFeeBps := 5
  maximumLeverage := 5
  currentOpenInterest := 0
  globalOrderSequence := 0
  globalEventSequence := 0
  fundingAccumulator := 0
  lastFundingTimestamp := 0
  oracleValid := false
  lastVerifiedOraclePrice := 0
  lastVerifiedOracleTimestamp := 0
  collateralDecimals := 0
  vaultConfigured := false
  delegationStatus := .notDelegated
  expectedCommitSequence := 0
  lastCommittedSequence := 0
  instrumentId := 0
  oracleFeedId := 0
  oracleChannel := 0
  validator := 0
  delegationSequence := 0
  commitIntervalMs := 0
  expectedFinalCommitSequence := 0
  pendingUndelegation := false
  protocolFeeBalance := 0
  insuranceFundBalance := 0
  recognizedBadDebt := 0
  reconciliationStatus := .reconciled
  vaultSurplus := 0
  clusterMemberCount := 0
  markDeviationBps := 0

def validate (header : MarketStateHeader) : Bool :=
  header.initialMarginBps ≠ 0 && header.maintenanceMarginBps ≠ 0 &&
    header.maintenanceMarginBps ≤ header.initialMarginBps && header.maximumLeverage ≠ 0

def l1WithdrawalsAllowed (header : MarketStateHeader) : Bool := header.delegationStatus.isOnL1

/-- An unresolved deficit keeps the collateral in the vault. -/
def withdrawalsBlockedByReconciliation (header : MarketStateHeader) : Bool :=
  header.reconciliationStatus = .deficitDetected || header.reconciliationStatus = .recoveryRequired

def maxMarkDeviationBps (header : MarketStateHeader) : ℤ :=
  if header.markDeviationBps ≤ 0 then 500 else header.markDeviationBps

end MarketStateHeader

structure FillEvent where
  sequence : ℕ
  makerSeat : ℕ
  takerSeat : ℕ
  price : I64
  quantity : ℕ
  makerClientOrderId : ℕ
  timestamp : ℕ
  deriving DecidableEq

/-- The working account of one seat. Between instructions it is empty but for these. -/
structure SettlementScratch where
  trader : Address
  planNonce : ℕ
  deriving DecidableEq

structure Market where
  address : Address
  /-- The owner of the vault, derived from the address. -/
  vaultAuthority : Address
  header : MarketStateHeader
  arenas : Side → Arena
  seats : ℕ → TraderSeat
  fillEvents : ℕ → Option FillEvent
  scratches : ℕ → Option SettlementScratch
  sessions : SessionKey → Option TradingSession
  log : List EventRecord

abbrev MarketM := EStateM ProgramError Market

/-- What comes with an instruction besides its data. -/
structure Context where
  signer : Address
  now : ℤ
  hasSession : Bool

def maxTraderSeats : ℕ := 128

def fillEventCapacity : ℕ := 128

def noSeat : ℕ := 2 ^ 16 - 1

def riskError : RiskError → ProgramError
  | .overflow => custom .arithmeticOverflow
  | .negativeCollateral | .margin | .invalidPrice => custom .riskViolation

/-- A risk computation, with its errors as V2 handlers report them. -/
def checkRisk {α : Type} (x : Except RiskError α) : Except ProgramError α := x.mapError riskError

@[simp] theorem checkRisk_eq_ok {α : Type} {x : Except RiskError α} {a : α} :
    checkRisk x = .ok a ↔ x = .ok a := mapError_eq_ok

def bookError : BookError → ProgramError
  | .computeBudgetExceeded => .computeBudgetExceeded
  | _ => custom .invalidInstruction

/-- A book computation, with its errors as V2 handlers report them. -/
def checkBook {α : Type} (x : Except BookError α) : Except ProgramError α := x.mapError bookError

@[simp] theorem checkBook_eq_ok {α : Type} {x : Except BookError α} {a : α} :
    checkBook x = .ok a ↔ x = .ok a := mapError_eq_ok

/-! ## Reading and writing -/

section Access

variable {α β : Type} {m m' : Market}

def initializedHeader (m : Market) : Except ProgramError MarketStateHeader := do
  require (m.header.validate = true) (custom .invalidMarketLayout)
  require (m.header.initialized = true) (custom .marketNotInitialized)
  pure m.header

theorem initializedHeader_eq_ok {header : MarketStateHeader} :
    initializedHeader m = .ok header ↔
      m.header.validate = true ∧ m.header.initialized = true ∧ m.header = header := by
  simp only [initializedHeader, ok_rules]

def seatAt (m : Market) (index : ℕ) : Except ProgramError TraderSeat := do
  require (index < maxTraderSeats) (custom .invalidSeat)
  pure (m.seats index)

variable {i : ℕ} {seat : TraderSeat}

theorem seatAt_eq_ok : seatAt m i = .ok seat ↔ i < maxTraderSeats ∧ m.seats i = seat := by
  simp only [seatAt, ok_rules]

def Market.withSeat (m : Market) (index : ℕ) (seat : TraderSeat) : Market :=
  { m with seats := update m.seats index seat }

def writeSeat (index : ℕ) (seat : TraderSeat) : MarketM Unit := do
  require (index < maxTraderSeats) (custom .invalidSeat)
  modify (·.withSeat index seat)

@[simp] theorem run_writeSeat {u : Unit} :
    writeSeat i seat m = .ok u m' ↔ i < maxTraderSeats ∧ m.withSeat i seat = m' := by
  simp only [writeSeat, run_lift_bind, exists_require, run_modify_eq_ok]

variable {b : β}

theorem run_writeSeat_bind {k : Unit → MarketM β} :
    (writeSeat i seat >>= k) m = .ok b m' ↔
      i < maxTraderSeats ∧ k () (m.withSeat i seat) = .ok b m' := by
  simp only [run_bind_eq_ok, run_writeSeat]
  constructor
  · rintro ⟨⟨⟩, _, ⟨hi, rfl⟩, h⟩
    exact ⟨hi, h⟩
  · rintro ⟨hi, h⟩
    exact ⟨(), _, ⟨hi, rfl⟩, h⟩

def modifyHeader (f : MarketStateHeader → MarketStateHeader) : MarketM Unit :=
  modify fun m => { m with header := f m.header }

theorem run_modifyHeader_bind {f : MarketStateHeader → MarketStateHeader} {k : Unit → MarketM β} :
    (modifyHeader f >>= k) m = .ok b m' ↔
      k () { m with header := f m.header } = .ok b m' := run_modify_bind

def onArena (side : Side) (x : ArenaM α) : MarketM α := fun m =>
  match x (m.arenas side) with
  | .ok a arena => .ok a { m with arenas := update m.arenas side arena }
  | .error e arena => .error (bookError e) { m with arenas := update m.arenas side arena }

theorem run_onArena {side : Side} {x : ArenaM α} {r : α} : onArena side x m = .ok r m' ↔
    ∃ arena, x (m.arenas side) = .ok r arena ∧
      { m with arenas := update m.arenas side arena } = m' := by
  unfold onArena
  cases x (m.arenas side) <;> simp

/-! ## Events -/

def Context.eventTimestamp (ctx : Context) : ℕ := ctx.now.toNat

def nextEventSequence : MarketM ℕ := do
  let header ← asking (·.header)
  let sequence ← checkedU64 (custom .arithmeticOverflow) (header.globalEventSequence + 1)
  modifyHeader fun header => { header with globalEventSequence := sequence }
  pure sequence

def emitEvent (kind : EventKind) (sequence timestamp : ℕ) (payload : EventPayload) :
    MarketM Unit :=
  modify fun m => { m with log := m.log ++ [{ kind, sequence, timestamp, payload }] }

def logEvent (kind : EventKind) (timestamp : ℕ) (payload : EventPayload) : MarketM Unit := do
  let sequence ← nextEventSequence
  emitEvent kind sequence timestamp payload

def logEventIf (p : Prop) [Decidable p] (kind : EventKind) (timestamp : ℕ)
    (payload : EventPayload) : MarketM Unit :=
  if p then logEvent kind timestamp payload else pure ()

def Market.logged (m : Market) (kind : EventKind) (timestamp : ℕ) (payload : EventPayload) :
    Market :=
  { m with
    header := { m.header with globalEventSequence := m.header.globalEventSequence + 1 }
    log := m.log ++
      [{ kind, sequence := m.header.globalEventSequence + 1, timestamp, payload }] }

theorem run_nextEventSequence_bind {k : ℕ → MarketM β} :
    (nextEventSequence >>= k) m = .ok b m' ↔ m.header.globalEventSequence + 1 < 2 ^ 64 ∧
      k (m.header.globalEventSequence + 1) { m with header :=
        { m.header with globalEventSequence := m.header.globalEventSequence + 1 } } = .ok b m' := by
  simp only [nextEventSequence, bind_assoc, run_asking_bind, run_lift_bind, exists_checkedU64,
    run_modifyHeader_bind, pure_bind]

theorem run_logEvent {kind : EventKind} {t : ℕ} {payload : EventPayload} {u : Unit} :
    logEvent kind t payload m = .ok u m' ↔
      m.header.globalEventSequence + 1 < 2 ^ 64 ∧ m.logged kind t payload = m' := by
  simp only [logEvent, emitEvent, run_nextEventSequence_bind, run_modify_eq_ok, Market.logged]

end Access

end Equinox.V2
