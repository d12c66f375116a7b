import Equinox.V2.Custody
import Equinox.V2.Orders

/-! # Lifecycle, oracle and funding

The remaining instructions of a market: its creation, seats and sessions, the
mode transitions, verified prices, funding, liquidation, and the cycle between
L1 and the rollup.
-/

namespace Equinox.V2

open Foundation CritBit ProgramError Risk

/-! ## Creation -/

/-- Initialize a blank market under an authority. Its seats are left as they are. -/
def initializeMarketAccount (authority : Address) (instrumentId : ℕ) : MarketM Unit := do
  let m ← asking id
  require (m.header.initialized = false) (custom .marketAlreadyInitialized)
  modify fun m => { m with
    header := { MarketStateHeader.empty with
      marketAuthority := authority
      pauseAuthority := authority
      emergencyAuthority := authority
      initialized := true
      mode := .paused
      instrumentId := instrumentId }
    arenas := fun _ => Arena.new }

def configureMarketOracle (feedId channel : ℕ) (priceExponent : ℤ) : MarketM Unit := do
  let m ← asking id
  require (feedId ≠ 0 ∧ 1 ≤ channel ∧ channel ≤ 4 ∧ -12 ≤ priceExponent ∧ priceExponent ≤ 0)
    invalidInstructionData
  let _ ← initializedHeader m
  modifyHeader fun header => { header with
    priceExponent := priceExponent, oracleFeedId := feedId, oracleChannel := channel }

/-- Initialize the market of a listed instrument, with the oracle of its listing. -/
def createPerpMarket (ctx : Context) (instrumentId feedId channel : ℕ) (priceExponent : ℤ) :
    MarketM Unit := do
  require (feedId ≠ 0 ∧ 1 ≤ channel ∧ channel ≤ 4 ∧ -12 ≤ priceExponent ∧ priceExponent ≤ 0)
    (custom .invalidInstruction)
  initializeMarketAccount ctx.signer instrumentId
  configureMarketOracle feedId channel priceExponent

/-! ## Governance -/

inductive MarketTransitionAction where
  | pause | resume | setCloseOnly | enterCorporateAction | resolveCorporateAction | close
  deriving DecidableEq, Repr

namespace MarketTransitionAction

/-- The mode that the opcode of an action decodes to. -/
def mode : MarketTransitionAction → MarketMode
  | pause | close => .paused
  | resume | resolveCorporateAction => .open
  | setCloseOnly => .closeOnly
  | enterCorporateAction => .emergency

def eventKind : MarketTransitionAction → EventKind
  | pause => .marketPaused
  | resume => .marketResumed
  | setCloseOnly => .marketCloseOnly
  | enterCorporateAction => .corporateActionEntered
  | resolveCorporateAction => .corporateActionResolved
  | close => .marketClosed

end MarketTransitionAction

def transitionMarket (ctx : Context) (action : MarketTransitionAction) : MarketM Unit := do
  let m ← asking id
  let header ← initializedHeader m
  require (header.marketAuthority = ctx.signer) (custom .invalidInstruction)
  modifyHeader fun header => { header with mode := action.mode }
  logEvent action.eventKind ctx.eventTimestamp .empty

def updateMarketRisk (ctx : Context) (initial maintenance leverage : ℕ) : MarketM Unit := do
  let m ← asking id
  require (initial ≠ 0 ∧ maintenance ≠ 0 ∧ maintenance ≤ initial ∧ leverage ≠ 0)
    (custom .riskViolation)
  let header ← initializedHeader m
  require (header.marketAuthority = ctx.signer) (custom .invalidInstruction)
  modifyHeader fun header => { header with
    initialMarginBps := initial
    maintenanceMarginBps := maintenance
    maximumLeverage := leverage }
  logEvent .marketRiskUpdated ctx.eventTimestamp .empty

/-! ## Seats -/

def Market.seated (m : Market) (trader : Address) : Bool :=
  (List.range maxTraderSeats).any fun j => (m.seats j).occupancy && (m.seats j).trader = trader

def createSeat (ctx : Context) (index : ℕ) : MarketM Unit := do
  let m ← asking id
  let header ← initializedHeader m
  require (index < maxTraderSeats) (custom .invalidSeat)
  require (m.seated ctx.signer = false) (custom .seatOccupied)
  require ((m.seats index).occupancy = false) (custom .seatOccupied)
  writeSeat index { TraderSeat.empty with
    occupancy := true, trader := ctx.signer, sequence := header.globalEventSequence }
  logEvent .traderSeatCreated ctx.eventTimestamp (.seat index)

def closeSeat (ctx : Context) (index : ℕ) : MarketM Unit := do
  let m ← asking id
  let _ ← initializedHeader m
  let seat ← seatAt m index
  require (seat.trader = ctx.signer) (custom .invalidSeat)
  require (seat.canClose = true) (custom .seatNotEmpty)
  writeSeat index TraderSeat.empty
  logEvent .traderSeatClosed ctx.eventTimestamp (.seat index)

def initializeSettlementScratch (ctx : Context) (seatIndex : ℕ) : MarketM Unit := do
  let m ← asking id
  let _ ← initializedHeader m
  let seat ← seatAt m seatIndex
  require (seat.trader = ctx.signer) (custom .invalidSeat)
  require ((m.scratches seatIndex).isNone = true) (custom .invalidSettlementScratch)
  modify fun m => { m with
    scratches := Function.update m.scratches seatIndex (some ⟨ctx.signer, 0⟩) }

/-! ## Sessions -/

def sessionActionAll : ℕ := 31

def validateSessionPolicy (seatIndex now : ℕ) (policy : SessionPolicy) :
    Except ProgramError Unit :=
  require (seatIndex < maxTraderSeats ∧ policy.valid now = true ∧
    policy.actions ≤ sessionActionAll) (custom .invalidInstruction)

def authorizeTradingSession (ctx : Context) (seatIndex : ℕ) (sessionSigner : Address)
    (policy : SessionPolicy) : MarketM Unit := do
  let m ← asking id
  require (sessionSigner ≠ ctx.signer ∧ sessionSigner ≠ m.address) (custom .invalidTradingSession)
  let header ← initializedHeader m
  validateSessionPolicy seatIndex header.lastVerifiedOracleTimestamp policy
  let seat ← seatAt m seatIndex
  require (seat.occupancy = true ∧ seat.trader = ctx.signer) (custom .invalidSeat)
  let key : SessionKey := ⟨ctx.signer, seatIndex, sessionSigner⟩
  require ((m.sessions key).isNone = true) (custom .invalidTradingSession)
  writeSession key (some { TradingSession.empty.withPolicy policy with
    initialized := true, createdAt := header.lastVerifiedOracleTimestamp })
  logEvent .tradingSessionAuthorized ctx.eventTimestamp (.session seatIndex sessionSigner 0)

def revokeTradingSession (ctx : Context) (seatIndex : ℕ) (sessionSigner : Address) :
    MarketM Unit := do
  let m ← asking id
  let key : SessionKey := ⟨ctx.signer, seatIndex, sessionSigner⟩
  let session ← okOr (m.sessions key) (custom .invalidTradingSession)
  writeSession key (some { session with revoked := true })
  let _ ← initializedHeader m
  logEvent .tradingSessionRevoked ctx.eventTimestamp (.session seatIndex sessionSigner 0)

def updateTradingSessionLimits (ctx : Context) (seatIndex : ℕ) (sessionSigner : Address)
    (policy : SessionPolicy) : MarketM Unit := do
  let m ← asking id
  let header ← initializedHeader m
  let key : SessionKey := ⟨ctx.signer, seatIndex, sessionSigner⟩
  let session ← okOr (m.sessions key) (custom .invalidTradingSession)
  require (session.revoked = false) (custom .invalidTradingSession)
  validateSessionPolicy seatIndex header.lastVerifiedOracleTimestamp policy
  require (session.consumedCumulativeNotional ≤ policy.maxCumulativeNotional)
    (custom .invalidInstruction)
  require (session.sessionGeneration + 1 < 2 ^ 32) (custom .arithmeticOverflow)
  let generation := session.sessionGeneration + 1
  writeSession key (some { session.withPolicy policy with sessionGeneration := generation })
  logEvent .tradingSessionLimitsUpdated ctx.eventTimestamp
    (.session seatIndex sessionSigner generation)

def closeTradingSession (ctx : Context) (seatIndex : ℕ) (sessionSigner : Address) :
    MarketM Unit := do
  let m ← asking id
  let header ← initializedHeader m
  let key : SessionKey := ⟨ctx.signer, seatIndex, sessionSigner⟩
  let session ← okOr (m.sessions key) (custom .invalidTradingSession)
  require (session.revoked = true ∨ session.expiresAt ≤ header.lastVerifiedOracleTimestamp)
    (custom .invalidTradingSession)
  writeSession key none
  logEvent .tradingSessionClosed ctx.eventTimestamp (.session seatIndex sessionSigner 0)

/-! ## Verified prices -/

/-- The mode a session of the feed puts the market in, whatever mode it is in. -/
def feedMode (session : ℕ) : Option MarketMode :=
  if session ≤ 2 then some .open else if session ≤ 4 then some .closeOnly else none

/-- Anyone may bring a price that the oracle program has verified. -/
def consumeOracleUpdate (ctx : Context) (verified : VerifiedOracle) : MarketM Unit := do
  let m ← asking id
  require (verified.feedUpdateTimestampUs ≤ verified.envelopeTimestampUs)
    (custom .oracleUnavailable)
  let timestamp := verified.feedUpdateTimestampUs / 1000000
  let header ← initializedHeader m
  require (header.oracleFeedId ≠ 0 ∧ verified.feedId = header.oracleFeedId ∧
    verified.channel = header.oracleChannel ∧ verified.exponent = header.priceExponent ∧
    0 < verified.price.val ∧ 0 ≤ verified.confidence ∧
    verified.confidence.toNat ≤ verified.price.val.natAbs / 5 ∧ 0 ≤ ctx.now ∧
    (timestamp : ℤ) ≤ ctx.now + 2 ∧ ctx.now ≤ timestamp + 10 ∧
    header.lastVerifiedOracleTimestamp < timestamp) (custom .oracleUnavailable)
  let mode ← okOr (feedMode verified.session) (custom .oracleUnavailable)
  let payload := EventPayload.oracle verified.price.val verified.exponent
    verified.confidence.toNat verified.session
  modifyHeader fun header => { header with
    lastVerifiedOraclePrice := verified.price
    lastVerifiedOracleTimestamp := timestamp
    oracleValid := true
    mode := mode }
  logEvent .oracleUpdated timestamp payload
  logEventIf (mode ≠ header.mode) .marketSessionChanged timestamp payload

/-! ## The mark -/

/-- The price of the best leaf of a tree, if it can trade on the given side. -/
def executablePrice (a : Arena) (tree : TreeKind) (side : Side) (oracle : Option I64) (now : ℕ)
    (handle : ℕ) : Option I64 :=
  match a.leaf handle with
  | .error _ => none
  | .ok leaf =>
    if leaf.quantity = 0 ∨ leaf.expiresAt ≤ now then none
    else (candidatePrice leaf tree oracle now).filter fun price =>
      leaf.side = side ∧ 0 < price.val

/-- The better of two prices for those who trade against a side. -/
def betterPrice (side : Side) (current next : I64) : I64 :=
  match side with
  | .bid => if current.val ≤ next.val then next else current
  | .ask => if next.val ≤ current.val then next else current

/-- Walk the trees; a tree that cannot be searched leaves the side without a price. -/
def bestExecutableFrom (side : Side) (oracle : Option I64) (now : ℕ) :
    List (Arena × TreeKind) → Option I64 → Except BookError (Option I64)
  | [], best => pure best
  | (a, tree) :: rest, best => do
    match ← attempt (a.best tree) with
    | none => pure none
    | some handle =>
      let price := handle.bind (executablePrice a tree side oracle now)
      bestExecutableFrom side oracle now rest
        (price.elim best fun price => some (best.elim price (betterPrice side · price)))

def bestExecutablePrice (arenas : Side → Arena) (side : Side) (oracle : Option I64) (now : ℕ) :
    Except BookError (Option I64) :=
  bestExecutableFrom side oracle now
    [(arenas .bid, .fixed), (arenas .bid, .oraclePegged), (arenas .ask, .fixed),
      (arenas .ask, .oraclePegged)] none

def clampToIndex (mark index maxDeviationBps : ℤ) : ℤ :=
  let deviation := (index * maxDeviationBps).tdiv 10000
  min (max mark (max (index - deviation) 1)) (index + deviation)

/-- The mark of the book, near the verified price. A crossed or empty book has the verified
price. -/
def executableMark (m : Market) (header : MarketStateHeader) : Except ProgramError ℤ := do
  require (header.oracleValid = true) (custom .oracleUnavailable)
  require (header.mode ≠ .paused) (custom .invalidInstruction)
  let index := header.lastVerifiedOraclePrice
  require (0 < index.val) (custom .oracleUnavailable)
  let now := header.lastVerifiedOracleTimestamp
  let bid ← checkBook (bestExecutablePrice m.arenas .bid (some index) now)
  let ask ← checkBook (bestExecutablePrice m.arenas .ask (some index) now)
  let clamp (mark : ℤ) := clampToIndex mark index.val header.maxMarkDeviationBps
  pure (match bid, ask with
    | some bid, some ask =>
      if bid.val < ask.val then clamp ((bid.val + ask.val).tdiv 2) else index.val
    | some price, none | none, some price => clamp price.val
    | none, none => index.val)

/-! ## Funding and liquidation -/

def fundingCapBpsPerSec : ℤ := 1

/-- The authority advances the accumulator, no further than the mark and the time allow. -/
def updateFunding (ctx : Context) (accumulator : ℤ) (timestamp : ℕ) : MarketM Unit := do
  let m ← asking id
  let header ← initializedHeader m
  require (header.marketAuthority = ctx.signer) illegalOwner
  require (header.lastFundingTimestamp ≤ timestamp) (custom .invalidInstruction)
  let mark ← executableMark m header
  let index := header.lastVerifiedOraclePrice.val
  let scaled ← checkedI128 (custom .arithmeticOverflow) ((mark - index) * 10000)
  let basisBps := scaled.tdiv index
  let elapsed : ℤ := ((timestamp - header.lastFundingTimestamp : ℕ) : ℤ)
  let cap := min (fundingCapBpsPerSec * elapsed) |basisBps|
  let increment ← checkedI128 (custom .arithmeticOverflow) (accumulator - header.fundingAccumulator)
  require (|increment| ≤ cap) (custom .invalidInstruction)
  require (header.fundingAccumulator ≤ accumulator) (custom .invalidInstruction)
  modifyHeader fun header => { header with
    fundingAccumulator := accumulator, lastFundingTimestamp := timestamp }
  logEvent .fundingAccumulatorUpdated timestamp (.seatFunding noSeat accumulator 0)

/-- Close a part of an unhealthy position at the verified price. -/
def liquidate (ctx : Context) (seatIndex maxQuantity : ℕ) : MarketM Unit := do
  let m ← asking id
  let header ← initializedHeader m
  require (header.oracleValid = true ∧ header.emergencyAuthority = ctx.signer)
    (custom .oracleUnavailable)
  let seat ← seatAt m seatIndex
  let price := header.lastVerifiedOraclePrice.val
  let unhealthy ← checkRisk (isLiquidatable seat price header.maintenanceMarginBps)
  require (unhealthy = true) (custom .riskViolation)
  let most ← checkRisk (partialLiquidationQuantity seat price header.maintenanceMarginBps)
  let quantity := min most (maxQuantity : ℤ)
  let signed := if 0 < seat.basePosition then -quantity else quantity
  logEvent .liquidationStarted ctx.eventTimestamp (.liquidation seatIndex quantity price)
  let (fee, seat) ← checkRisk (applyFill seat signed price header.liquidationFeeBps)
  let seat ← checkRisk (setLiquidationState seat price header.maintenanceMarginBps)
  writeSeat seatIndex seat
  logEvent .positionChanged ctx.eventTimestamp
    (.position seatIndex seat.basePosition seat.quoteEntryValue)
  logEvent .marginChanged ctx.eventTimestamp (.seatAmount seatIndex (asU64 seat.reservedMargin) 0)
  logEvent .positionLiquidated ctx.eventTimestamp (.liquidation seatIndex quantity price)
  creditFees fee seatIndex ctx.eventTimestamp

/-! ## Delegation -/

def commitIntervalMs : ℕ := 30000

/-- Delegate the market. The buffer may take several calls to grow; until it is ready they change
nothing. -/
def delegateMarket (ctx : Context) (validator : Address) (memberCount : ℕ) (bufferReady : Bool) :
    MarketM Unit := do
  let m ← asking id
  require (validator ≠ 0) (custom .magicBlockInvalidAccount)
  let header ← initializedHeader m
  require (header.marketAuthority = ctx.signer) missingRequiredSignature
  require (header.delegationStatus.isOnL1 = true) (custom .magicBlockAlreadyDelegated)
  if bufferReady then
    let delegationSequence := saturatingSucc header.delegationSequence
    modifyHeader fun header => { header with
      delegationStatus := .delegated
      validator := validator
      delegationSequence := delegationSequence
      commitIntervalMs := commitIntervalMs
      expectedCommitSequence := 1
      pendingUndelegation := false
      clusterMemberCount := memberCount % 256 }
    logEvent .delegationRequested ctx.eventTimestamp (.delegation validator delegationSequence)
    logEvent .marketDelegated ctx.eventTimestamp (.delegation validator delegationSequence)
  else pure ()

/-- Commit the market, and on request give it back to L1. -/
def commitMarketInner (ctx : Context) (sequence : ℕ) (kind : CommitKind) : MarketM Unit := do
  let m ← asking id
  require (sequence ≠ 0) (custom .magicBlockSequenceReplay)
  let header ← initializedHeader m
  require (header.marketAuthority = ctx.signer) missingRequiredSignature
  require (header.delegationStatus = .delegated) (custom .magicBlockNotDelegated)
  require (kind = .commitAndUndelegate → header.pendingUndelegation = false)
    (custom .magicBlockUndelegationInProgress)
  require (sequence = header.expectedCommitSequence) (custom .magicBlockSequenceReplay)
  match kind with
  | .commitOnly =>
    modifyHeader fun header => { header with
      lastCommittedSequence := sequence
      expectedCommitSequence := saturatingSucc sequence }
    logEvent .commitRequested ctx.eventTimestamp (.delegation header.validator sequence)
    logEvent .commitSequenceChanged ctx.eventTimestamp
      (.delegation header.validator (saturatingSucc sequence))
  | .commitAndUndelegate =>
    modifyHeader fun header => { header with
      lastCommittedSequence := sequence
      delegationStatus := .undelegating
      pendingUndelegation := true
      expectedFinalCommitSequence := sequence }
    logEvent .undelegationRequested ctx.eventTimestamp (.delegation header.validator sequence)

def undelegateCallback (ctx : Context) : MarketM Unit := do
  let m ← asking id
  let header ← initializedHeader m
  require (header.delegationStatus = .undelegating ∧ header.pendingUndelegation = true)
    (custom .magicBlockInvalidCallback)
  let finalSequence := header.expectedFinalCommitSequence
  logEvent .restorationPending ctx.eventTimestamp (.delegation header.validator finalSequence)
  modifyHeader fun header => { header with
    delegationStatus := .restored
    pendingUndelegation := false
    lastCommittedSequence := finalSequence }
  logEvent .marketRestored ctx.eventTimestamp (.delegation header.validator finalSequence)

end Equinox.V2
