import Equinox.V2.Settlement

/-! # Trading instructions

Orders, replacements and cancellations. The owner of a seat acts with nonce
zero, anyone else through a session, which pays for the action after everything
else has succeeded. A new order is planned on the unchanged market.
-/

namespace Equinox.V2

open Foundation CritBit Risk Arena

/-! ## Who may act -/

/-- What a trading action asks of a session. -/
structure SessionDemand where
  requiredActions : ℕ
  notional : ℤ
  resultingExposure : ℕ
  actionNonce : ℕ

def SessionDemand.opensNewOrder (demand : SessionDemand) : Bool :=
  demand.requiredActions &&&
    (sessionActionPlace ||| sessionActionReplace ||| sessionActionReduceOnlyClose) ≠ 0

def authorizeTradingActor (m : Market) (ctx : Context) (seatIndex : ℕ) (seat : TraderSeat)
    (demand : SessionDemand) (now : ℕ) : Except ProgramError (Option TradingSession) :=
  if ctx.signer = seat.trader then do
    require (demand.actionNonce = 0) (custom .invalidInstruction)
    pure none
  else do
    require (ctx.hasSession = true) .missingRequiredSignature
    let session ← okOr (m.sessions ⟨seat.trader, seatIndex, ctx.signer⟩)
      (custom .invalidTradingSession)
    require (session.isLive now = true ∧ session.actions &&& demand.requiredActions ≠ 0)
      (custom .invalidTradingSession)
    require (demand.actionNonce = session.nextExpectedNonce) (custom .sessionNonceReplay)
    require (session.nextExpectedNonce ≠ 2 ^ 64 - 1) (custom .arithmeticOverflow)
    require (0 ≤ demand.notional ∧ demand.notional ≤ session.maxOrderNotional ∧
      demand.notional + session.consumedCumulativeNotional ≤ session.maxCumulativeNotional ∧
      (demand.resultingExposure : ℤ) ≤ session.maxExposure % 2 ^ 128 ∧
      (demand.opensNewOrder = true → seat.openOrderCount < session.maxOpenOrders))
      (custom .riskViolation)
    pure (some session)

def writeSession (key : SessionKey) (session : Option TradingSession) : MarketM Unit :=
  modify fun m => { m with sessions := Function.update m.sessions key session }

/-- The nonce and the notional of an accepted action. -/
def consumeSessionAction (key : SessionKey) (session : TradingSession) (notional : ℤ)
    (actionNonce now : ℕ) : MarketM Unit := do
  require (0 ≤ notional ∧ actionNonce = session.nextExpectedNonce) (custom .invalidTradingSession)
  let increment ← checkedU64 (custom .riskViolation) notional.toNat
  let nextConsumed ←
    checkedU64 (custom .riskViolation) (session.consumedCumulativeNotional + increment)
  require (nextConsumed ≤ session.maxCumulativeNotional) (custom .riskViolation)
  let nextNonce ← checkedU64 (custom .arithmeticOverflow) (session.nextExpectedNonce + 1)
  writeSession key (some { session with
    consumedCumulativeNotional := nextConsumed
    nextExpectedNonce := nextNonce
    lastActionTimestamp := now })

/-- The last part of every trading action: a session pays and the event says so. -/
def settleSession (ctx : Context) (session : Option TradingSession) (key : SessionKey)
    (notional : ℤ) (actionNonce now : ℕ) : MarketM Unit :=
  match session with
  | none => pure ()
  | some session => do
    consumeSessionAction key session notional actionNonce now
    logEvent .tradingSessionActionConsumed ctx.eventTimestamp
      (.session key.seatIndex key.sessionSigner actionNonce)

/-! ## Planning an order -/

def orderSide (order : PlaceOrderData) : Side := if order.side = 0 then .bid else .ask

def orderTree (order : PlaceOrderData) : TreeKind :=
  if order.tree = 0 then .fixed else .oraclePegged

def currentPrice (header : MarketStateHeader) (order : PlaceOrderData) : Except ProgramError I64 :=
  match orderTree order with
  | .fixed => pure order.priceOrOffset
  | .oraclePegged => okOr (header.lastVerifiedOraclePrice.checkedAdd order.priceOrOffset)
      (custom .arithmeticOverflow)

/-- The market trades, and the fields of the order are in range; returns its price and what it does
to the trader's own orders. -/
def checkOrder (header : MarketStateHeader) (seat : TraderSeat) (order : PlaceOrderData)
    (trader : Address) (sessionAuthorized : Bool) :
    Except ProgramError (I64 × SelfTradeBehavior) := do
  require (header.mode = .open) (custom .invalidInstruction)
  require ((seat.trader = trader ∨ sessionAuthorized = true) ∧ order.quantity ≠ 0)
    (custom .invalidInstruction)
  require (header.oracleValid = true ∧ 0 < header.lastVerifiedOraclePrice.val)
    (custom .oracleUnavailable)
  require (order.side ≤ 1 ∧ order.tree ≤ 1 ∧ order.flags < 32) (custom .invalidInstruction)
  let behavior ← order.selfTradeBehavior
  let price ← currentPrice header order
  require (0 < price.val) (custom .invalidInstruction)
  pure (price, behavior)

def validateBooks (m : Market) : Except ProgramError Unit :=
  [Side.bid, Side.ask].forM fun side => do
    checkBook (m.arenas side).validate
    checkBook ((m.arenas side).validateOwnerOccupancy fun index => (m.seats index).occupancy)

/-- A reduce-only order points against the position. -/
def reduces (side : Side) (basePosition : ℤ) : Prop :=
  match side with
  | .bid => basePosition < 0
  | .ask => 0 < basePosition

instance (side : Side) (basePosition : ℤ) : Decidable (reduces side basePosition) := by
  unfold reduces; cases side <;> infer_instance

/-- What the taker brings to the match. -/
structure Taker where
  seat : TraderSeat
  fundingPayment : ℤ
  orderNotional : ℤ

/-- Settle the taker's funding and check that it can hold the whole order. -/
def admitTaker (header : MarketStateHeader) (order : PlaceOrderData) (price : I64)
    (seat : TraderSeat) : Except ProgramError Taker := do
  require (order.reduceOnly = true → reduces (orderSide order) seat.basePosition)
    (custom .riskViolation)
  let (fundingPayment, seat) ← checkRisk (settleFunding seat header.fundingAccumulator)
  let orderNotional ← checkRisk (notional order.quantity price.val)
  let required ← checkRisk (initialMargin orderNotional header.initialMarginBps)
  let available ← checkRisk (availableMargin seat header.lastVerifiedOraclePrice.val
    header.initialMarginBps)
  require (required ≤ available) (custom .riskViolation)
  pure { seat, fundingPayment, orderNotional }

def orderInput (order : PlaceOrderData) (behavior : SelfTradeBehavior) (sequence : U64) :
    OrderInput where
  side := orderSide order
  tree := orderTree order
  owner := order.seatIndex
  priceOrOffset := order.priceOrOffset
  sequence
  quantity := order.quantity
  expiresAt := order.expiresAt
  pegLimit := order.pegLimit
  clientOrderId := order.clientOrderId
  postOnly := order.postOnly
  timeInForce := if order.immediateOrCancel then .immediateOrCancel else .goodTilCancelled
  selfTradeBehavior := behavior

def orderLimits : MatchLimits where
  maxFills := maxFillsPerInstruction
  maxInvalidRemovals := 4
  maxExpiredRemovals := 2

/-- Take the scratch account of a seat, which is bound to the owner of the seat. -/
def beginScratch (m : Market) (seatIndex : ℕ) (seatOwner : Address) :
    Except ProgramError SettlementScratch := do
  let scratch ← okOr (m.scratches seatIndex) (custom .invalidSettlementScratch)
  require (scratch.trader = seatOwner) (custom .invalidSettlementScratch)
  let planNonce ← checkedU64 (custom .arithmeticOverflow) (scratch.planNonce + 1)
  pure { scratch with planNonce }

/-- Everything an accepted order does, worked out on the unchanged market. -/
structure OrderPlan where
  input : OrderInput
  orderKey : Key
  price : I64
  taker : Taker
  scratch : SettlementScratch
  settlement : Settlement

def planOrder (m : Market) (order : PlaceOrderData) (trader seatOwner : Address)
    (sessionAuthorized : Bool) : Except ProgramError OrderPlan := do
  let header ← initializedHeader m
  let seat ← seatAt m order.seatIndex
  let (price, behavior) ← checkOrder header seat order trader sessionAuthorized
  validateBooks m
  let taker ← admitTaker header order price seat
  let sequence ← okOr header.globalOrderSequence.checkedSucc (custom .arithmeticOverflow)
  let input := orderInput order behavior sequence
  let leaf ← checkBook input.toOrderInput.leaf
  let scratch ← beginScratch m order.seatIndex seatOwner
  let plan ← checkBook (planLimitArenas m.arenas input (some header.lastVerifiedOraclePrice)
    header.lastVerifiedOracleTimestamp orderLimits)
  let settlement ← planSeatResults m header input taker.seat plan
  validateSettlementPlan m settlement input header seat
  require (plan.postOnlyRejected = false) (custom .invalidInstruction)
  require (plan.selfTradeAborted = false) (custom .selfTradeAborted)
  pure { input, orderKey := leaf.key, price, taker, scratch, settlement }

/-! ## Placing an order -/

/-- Credit the fees of an instruction to the protocol. -/
def creditFees (totalFee : ℤ) (seatIndex timestamp : ℕ) : MarketM Unit :=
  if 0 < totalFee then do
    let header ← asking (·.header)
    let fee ← checkedU64 (custom .arithmeticOverflow) totalFee.toNat
    let balance ← checkedU64 (custom .arithmeticOverflow) (header.protocolFeeBalance + fee)
    modifyHeader fun header => { header with protocolFeeBalance := balance }
    logEvent .protocolFeesChanged timestamp (.seatAmount seatIndex fee balance)
  else pure ()

/-- The events of an order other than its fills and its fees. -/
def logOrder (order : PlaceOrderData) (plan : OrderPlan) (timestamp : ℕ) : MarketM Unit := do
  let header ← asking (·.header)
  let planned := plan.settlement.plan
  logEvent .orderPlaced timestamp
    (.order order.seatIndex plan.orderKey (orderSide order) plan.price.val order.quantity)
  logEventIf (plan.taker.fundingPayment ≠ 0) .fundingSettled timestamp
    (.seatFunding order.seatIndex header.fundingAccumulator plan.taker.fundingPayment)
  logEventIf (0 < planned.invalidRemoved) .invalidOrderRemoved timestamp
    (.seatAmount noSeat planned.invalidRemoved 0)
  logEventIf (0 < planned.expiredRemoved) .orderExpired timestamp
    (.seatAmount noSeat planned.expiredRemoved 0)
  logEventIf (0 < planned.selfCancelled) .selfTradePrevented timestamp
    (.seatAmount order.seatIndex planned.selfCancelled 0)

def applyOrder (ctx : Context) (order : PlaceOrderData) (plan : OrderPlan) : MarketM Unit := do
  let settlement := plan.settlement
  applySettlementPlan settlement.plan
  insertRemainder plan.input settlement.plan.remaining
  applyScratchResults settlement
  modifyHeader fun header => { header with
    globalOrderSequence := settlement.finalOrderSequence
    globalEventSequence := settlement.finalEventSequence
    currentOpenInterest := settlement.openInterestAfter }
  logOrder order plan ctx.eventTimestamp
  creditFees settlement.totalFee noSeat ctx.eventTimestamp
  modify fun m =>
    { m with scratches := Function.update m.scratches order.seatIndex (some plan.scratch) }

/-- Returns the notional of the order and the time it was matched at. -/
def placeOrderCore (ctx : Context) (order : PlaceOrderData) (seatOwner : Address)
    (sessionAuthorized : Bool) : MarketM (ℤ × ℕ) := do
  let m ← asking id
  let plan ← planOrder m order ctx.signer seatOwner sessionAuthorized
  applyOrder ctx order plan
  pure (plan.taker.orderNotional, m.header.lastVerifiedOracleTimestamp)

/-- The notional a session is asked for, from the price or the offset as given. -/
def sessionNotional (order : PlaceOrderData) : Except ProgramError ℤ :=
  if 0 < order.priceOrOffset.val then
    checkedI128 (custom .arithmeticOverflow) (order.quantity * order.priceOrOffset.val)
  else pure 0

/-- Who places an order: its own trader, or a session that allows one of the given actions. -/
def authorizeOrder (m : Market) (ctx : Context) (order : PlaceOrderData) (requiredActions : ℕ) :
    Except ProgramError (Option TradingSession × SessionKey) := do
  let notional ← sessionNotional order
  let header ← initializedHeader m
  let seat ← seatAt m order.seatIndex
  let resulting ← checkedI128 (custom .arithmeticOverflow)
    (seat.basePosition + (orderSide order).signed order.quantity)
  let session ← authorizeTradingActor m ctx order.seatIndex seat
    { requiredActions, notional, resultingExposure := resulting.natAbs
      actionNonce := order.actionNonce } header.lastVerifiedOracleTimestamp
  pure (session, ⟨seat.trader, order.seatIndex, ctx.signer⟩)

def placeOrder (ctx : Context) (order : PlaceOrderData) : MarketM Unit := do
  let m ← asking id
  let (session, key) ← authorizeOrder m ctx order
    (if order.reduceOnly then sessionActionPlace ||| sessionActionReduceOnlyClose
      else sessionActionPlace)
  let (notional, now) ← placeOrderCore ctx order key.owner session.isSome
  settleSession ctx session key notional order.actionNonce now

/-! ## Cancelling -/

/-- Remove an order from the fixed tree of the bids, or else of the asks. What a failed search for
a bid wrote stays, as in the program. -/
def removeFixed (seatIndex : ℕ) (orderKey : Key) : MarketM LeafNode := fun m =>
  match onArena .bid (removeOwned .fixed orderKey seatIndex) m with
  | .ok leaf m' => .ok leaf m'
  | .error .computeBudgetExceeded m' => .error .computeBudgetExceeded m'
  | .error _ m' => onArena .ask (removeOwned .fixed orderKey seatIndex) m'

/-- Subtraction that stays in the range of signed 128-bit integers. -/
def saturatingSubI128 (a b : ℤ) : ℤ := max (-2 ^ 127) (min (a - b) (2 ^ 127 - 1))

/-- Take an order of a seat out of the book and release its margin. The exposures of the seat are
left as they are. -/
def cancelOrderCore (seatIndex : ℕ) (orderKey : Key) : MarketM Unit := do
  let leaf ← removeFixed seatIndex orderKey
  let m ← asking id
  let seat ← seatAt m seatIndex
  let counted := { seat with openOrderCount := seat.openOrderCount - 1 }
  if 0 < leaf.priceOrOffset.val then
    let header ← initializedHeader m
    let release ← orderMargin header leaf.quantity leaf.priceOrOffset.val
    writeSeat seatIndex
      { counted with reservedMargin := saturatingSubI128 seat.reservedMargin release }
  else writeSeat seatIndex counted

/-- Who cancels: the trader of a seat, or a session that allows it. -/
def authorizeCancel (m : Market) (ctx : Context) (seatIndex requiredActions actionNonce : ℕ) :
    Except ProgramError (Option TradingSession × SessionKey) := do
  let header ← initializedHeader m
  let seat ← seatAt m seatIndex
  let session ← authorizeTradingActor m ctx seatIndex seat
    { requiredActions, notional := 0, resultingExposure := seat.basePosition.natAbs, actionNonce }
    header.lastVerifiedOracleTimestamp
  pure (session, ⟨seat.trader, seatIndex, ctx.signer⟩)

def cancelOrder (ctx : Context) (seatIndex : ℕ) (orderKey : Key) (actionNonce : ℕ) :
    MarketM Unit := do
  let m ← asking id
  let (session, key) ← authorizeCancel m ctx seatIndex sessionActionCancel actionNonce
  require (key.owner = ctx.signer ∨ session.isSome = true) (custom .invalidSeat)
  cancelOrderCore seatIndex orderKey
  logEvent .orderCancelled ctx.eventTimestamp (.orderKey seatIndex orderKey)
  settleSession ctx session key 0 actionNonce m.header.lastVerifiedOracleTimestamp

/-- Cancel up to `max` orders of a seat, bids first. -/
def cancelBothSides (seatIndex max : ℕ) : MarketM CancelSummary := do
  let first ← onArena .bid (cancelOwnerSummary seatIndex max)
  if first.count < max then
    let second ← onArena .ask (cancelOwnerSummary seatIndex (max - first.count))
    pure {
      count := min (first.count + second.count) 255
      bidQuantity := min (first.bidQuantity + second.bidQuantity) (2 ^ 64 - 1)
      askQuantity := min (first.askQuantity + second.askQuantity) (2 ^ 64 - 1)
      reservedNotional := min (first.reservedNotional + second.reservedNotional) (2 ^ 128 - 1) }
  else pure first

def releaseAll (header : MarketStateHeader) (total : CancelSummary) (seat : TraderSeat) :
    Except ProgramError TraderSeat := do
  let released ← checkRisk (initialMargin
    (min (total.reservedNotional : ℤ) (2 ^ 127 - 1)) header.initialMarginBps)
  pure { seat with
    openOrderCount := seat.openOrderCount - total.count
    openBidExposure := saturatingSubI128 seat.openBidExposure total.bidQuantity
    openAskExposure := saturatingSubI128 seat.openAskExposure total.askQuantity
    reservedMargin := saturatingSubI128 seat.reservedMargin released }

def cancelAll (ctx : Context) (seatIndex max actionNonce : ℕ) : MarketM Unit := do
  let m ← asking id
  let (session, key) ← authorizeCancel m ctx seatIndex sessionActionCancelAll actionNonce
  require (key.owner = ctx.signer ∨ session.isSome = true) (custom .invalidSeat)
  let total ← cancelBothSides seatIndex max
  let seat ← releaseAll m.header total (m.seats seatIndex)
  writeSeat seatIndex seat
  logEvent .cancelAllProgress ctx.eventTimestamp (.seatAmount seatIndex total.count 0)
  settleSession ctx session key 0 actionNonce m.header.lastVerifiedOracleTimestamp

/-! ## Replacing -/

/-- Cancel an order and place another. A failure of the second undoes the first. -/
def replaceOrder (ctx : Context) (oldOrderKey : Key) (order : PlaceOrderData) : MarketM Unit := do
  let m ← asking id
  let (session, key) ← authorizeOrder m ctx order sessionActionReplace
  require (m.header.mode = .open) (custom .invalidInstruction)
  require (key.owner = ctx.signer ∨ session.isSome = true) (custom .invalidSeat)
  cancelOrderCore order.seatIndex oldOrderKey
  let (notional, now) ← placeOrderCore ctx order key.owner session.isSome
  logEvent .orderReplaced ctx.eventTimestamp (.order order.seatIndex oldOrderKey
    (orderSide order) order.priceOrOffset.val order.quantity)
  settleSession ctx session key notional order.actionNonce now

end Equinox.V2
