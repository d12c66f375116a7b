import Equinox.Market.Order

/-! # Carrying an order out

The writes of an accepted order, in the order the program makes them: the
opposite book, the cancelled makers, the fills one after the other, the
remainder, the taker's funding, the core, the events and the session.
-/

namespace Equinox

open Foundation CritBit

/-- Release a maker's order that the taker's self-trade behavior cancels. -/
def releaseCancelled (config : V3RiskConfig) (cancel : V3SelfTradeCancellation) : MarketM Unit := do
  let m ← asking id
  let owner := cancel.makerOwner % 2 ^ 16
  let seat ← v3TradeSeat m owner
  let reserve ← reserveMargin config cancel.quantity cancel.reservePrice
  let updated ← seat.release reserve true cancel.side cancel.quantity
  writeV3Seat owner updated

/-- Trade between a maker and the taker at the maker's price. -/
def settleV3Fill (takerSeatIndex : ℕ) (takerSide : Side) (config : V3RiskConfig) (fill : V3Fill) :
    MarketM Unit := do
  let m ← asking id
  require (fill.makerOwner < v3SeatCount) (custom .invalidSeat)
  require (fill.makerOwner ≠ takerSeatIndex) (custom .selfTradeAborted)
  let makerBefore ← v3TradeSeat m fill.makerOwner
  let takerBefore ← v3TradeSeat m takerSeatIndex
  let (_, maker) ← riskOk (Risk.settleFunding makerBefore m.core.fundingAccumulator)
  let (_, taker) ← riskOk (Risk.settleFunding takerBefore m.core.fundingAccumulator)
  let (makerFee, maker) ← riskOk (Risk.applyFill maker
    (takerSide.opposite.signed fill.quantity) fill.price config.makerFeeBps)
  let (takerFee, taker) ← riskOk (Risk.applyFill taker
    (takerSide.signed fill.quantity) fill.price config.takerFeeBps)
  let margin ← reserveMargin config fill.quantity fill.reservePrice
  let maker ← maker.release margin (fill.makerRemaining = 0) takerSide.opposite fill.quantity
  let fees ← checkedI128 (custom .arithmeticOverflow) (makerFee + takerFee)
  let protocolBalance ← checkedI128 (custom .arithmeticOverflow) (m.core.protocolFeeBalance + fees)
  let vaultLiability ← checkedI128 (custom .riskViolation) (m.core.vaultLiability - fees)
  require (0 ≤ vaultLiability) (custom .riskViolation)
  modifyCore fun core =>
    { core with protocolFeeBalance := protocolBalance, vaultLiability := vaultLiability }
  writeV3Seat fill.makerOwner maker
  writeV3Seat takerSeatIndex taker

/-- Insert what is left of the order into the taker's own side. -/
def restRemainder (order : PlaceOrderData) (prepared : PreparedOrder) : MarketM Unit := do
  if order.rests prepared.plan then
    let m ← asking id
    let remaining := prepared.plan.takerRemaining
    let reserve ← reserveMargin prepared.config remaining prepared.effectivePrice.val
    let seat ← v3TradeSeat m order.seatIndex
    let updated ← seat.reserve reserve prepared.side remaining
    writeV3Seat order.seatIndex updated
    let _ ← onBook prepared.side (PagedBookV3.insertRestingOrder prepared.tree
      { prepared.leaf with quantity := remaining })
  else pure ()

/-- Charge the taker's pending funding if no fill has done so. -/
def settleTakerFunding (seatIndex : ℕ) (fundingAccumulator fundingPayment : ℤ) : MarketM Unit := do
  let m ← asking id
  let seat ← v3TradeSeat m seatIndex
  if seat.lastFundingAccumulator ≠ fundingAccumulator then
    let pnl ← checkedI128 (custom .arithmeticOverflow) (seat.realizedPnl - fundingPayment)
    writeV3Seat seatIndex
      { seat with realizedPnl := pnl, lastFundingAccumulator := fundingAccumulator }
  else pure ()

/-- Store the new open interest and the order's sequence. -/
def recordOrder (prepared : PreparedOrder) : MarketM Unit := do
  let m ← asking id
  let openInterest ← recomputeV3OpenInterest m
  require (0 < prepared.config.maximumOpenInterest →
    openInterest ≤ prepared.config.maximumOpenInterest) (custom .riskViolation)
  modifyCore fun core =>
    { core with currentOpenInterest := openInterest, globalOrderSequence := prepared.sequence }

def orderEvents (order : PlaceOrderData) (prepared : PreparedOrder) :
    List (EventKind × EventPayload) :=
  (.orderPlaced, .order order.seatIndex prepared.leaf.key prepared.side
    prepared.effectivePrice.val order.quantity) ::
  prepared.plan.cancellations.map (fun cancel => (.orderCancelled,
    .order (cancel.makerOwner % 2 ^ 16) cancel.key cancel.side cancel.price cancel.quantity)) ++
  prepared.plan.fills.map fun fill =>
    (if fill.makerRemaining = 0 then .orderFilled else .orderPartiallyFilled,
      .fill fill.makerOwner order.seatIndex fill.price fill.quantity prepared.sequence.val)

def executeOrder (ctx : Context) (order : PlaceOrderData) (prepared : PreparedOrder)
    (consume : Bool) : MarketM Unit := do
  let before ← asking id
  onBook prepared.side.opposite (PagedBookV3.applyMatchPlan prepared.plan)
  prepared.plan.cancellations.forM (releaseCancelled prepared.config)
  prepared.plan.fills.forM (settleV3Fill order.seatIndex prepared.side prepared.config)
  restRemainder order prepared
  settleTakerFunding order.seatIndex before.core.fundingAccumulator prepared.fundingPayment
  recordOrder prepared
  appendEventRecords (orderEvents order prepared) ctx.now
  consumeSession (if consume then prepared.session else none)
    ⟨(before.seats order.seatIndex).trader, order.seatIndex, ctx.signer⟩ prepared.notional
    order.actionNonce prepared.now

def placeOrderV3WithAction (ctx : Context) (order : PlaceOrderData) (requiredActions : ℕ)
    (consume : Bool) : MarketM Unit := do
  let m ← asking id
  let prepared ← prepareOrder m ctx order requiredActions
  executeOrder ctx order prepared consume

def placeOrderV3 (ctx : Context) (order : PlaceOrderData) : MarketM Unit :=
  placeOrderV3WithAction ctx order sessionActionPlace true

/-! ## Cancelling -/

/-- The first of some trees in which a seat holds an order under a key. -/
def findOwned (m : Market) (seatIndex : ℕ) (orderKey : Key) :
    List (Side × TreeKind) → Except ProgramError (Side × TreeKind × LeafNode)
  | [] => throw (custom .invalidInstruction)
  | (side, tree) :: rest =>
    match (m.books side).find tree orderKey with
    | .error _ => findOwned m seatIndex orderKey rest
    | .ok handle => do
      let leaf ← (m.books side).leaf handle
      if leaf.owner = seatIndex then pure (side, tree, leaf)
      else findOwned m seatIndex orderKey rest

/-- The order in which a single cancellation looks through the trees. -/
def cancelSearchOrder : List (Side × TreeKind) :=
  [(.bid, .fixed), (.ask, .fixed), (.ask, .oraclePegged), (.bid, .oraclePegged)]

/-- The order in which the handlers that go through a side at a time look through the trees. -/
def sideSearchOrder : List (Side × TreeKind) :=
  [(.bid, .fixed), (.bid, .oraclePegged), (.ask, .fixed), (.ask, .oraclePegged)]

/-- Remove one order of a seat and release what it holds. -/
def removeOrder (ctx : Context) (seatIndex : ℕ) (side : Side) (tree : TreeKind) (orderKey : Key)
    (leaf : LeafNode) (reserve : ℤ) : MarketM Unit := do
  let m ← asking id
  let seat ← v3TradeSeat m seatIndex
  let updated ← seat.release reserve true leaf.side leaf.quantity
  let _ ← onBook side (PagedBookV3.cancelOwnedOrder tree orderKey seatIndex)
  writeV3Seat seatIndex updated
  appendEventRecord .orderCancelled
    (.order seatIndex leaf.key leaf.side leaf.priceOrOffset.val leaf.quantity) ctx.now

def passiveDemand (seat : TraderSeat) (requiredActions actionNonce : ℕ) : SessionDemand where
  requiredActions := requiredActions
  notional := 0
  resultingExposure := seat.basePosition.natAbs
  resultingOpenOrders := seat.openOrderCount
  actionNonce := actionNonce

/-- The price an order would rest at now, which a cancellation checks. -/
def currentPrice (leaf : LeafNode) (tree : TreeKind) (oracle : Option I64) :
    Except ProgramError I64 :=
  match tree with
  | .fixed => pure leaf.priceOrOffset
  | .oraclePegged => do
    let oracle ← okOr oracle (custom .oracleUnavailable)
    okOr (oracle.checkedAdd leaf.priceOrOffset) (custom .arithmeticOverflow)

def cancelOrderV3WithAction (ctx : Context) (seatIndex : ℕ) (orderKey : Key) (actionNonce : ℕ)
    (requiredActions : ℕ) (consume : Bool) : MarketM Unit := do
  let m ← asking id
  let now := m.core.oracleTimestamp
  let seatSnapshot ← v3TradeSeat m seatIndex
  let session ← validateV3TradeAccounts m ctx seatIndex
    (passiveDemand seatSnapshot requiredActions actionNonce) now
  let (side, tree, leaf) ← findOwned m seatIndex orderKey cancelSearchOrder
  let oracle := v3ReserveOracle m.core
  let reservePrice ← currentPrice leaf tree oracle
  require (0 < reservePrice.val) (custom .invalidInstruction)
  let config ← readV3RiskConfig m.core
  let reserve ← v3OrderReserve leaf tree oracle config
  removeOrder ctx seatIndex side tree orderKey leaf reserve
  consumeSession (if consume then session else none)
    ⟨seatSnapshot.trader, seatIndex, ctx.signer⟩ 0 actionNonce now

def cancelOrderV3 (ctx : Context) (seatIndex : ℕ) (orderKey : Key) (actionNonce : ℕ) :
    MarketM Unit :=
  cancelOrderV3WithAction ctx seatIndex orderKey actionNonce sessionActionCancel true

/-- The first leaf of a seat in one tree, by handle. -/
def firstOwned (b : PagedBookV3) (tree : TreeKind) (seatIndex : ℕ) : Option LeafNode :=
  (List.range bookSlotsPerSide).findSome? fun handle =>
    match b.leaf handle with
    | .error _ => none
    | .ok leaf =>
      if leaf.owner = seatIndex ∧ b.find tree leaf.key = .ok handle then some leaf else none

/-- The next order that cancelling everything removes. -/
def nextOwned (m : Market) (seatIndex : ℕ) : Option (Side × TreeKind × LeafNode) :=
  sideSearchOrder.findSome? fun (side, tree) =>
    (firstOwned (m.books side) tree seatIndex).map fun leaf => (side, tree, leaf)

/-- Cancel the next order of a seat; returns whether there was one. -/
def cancelNext (ctx : Context) (seatIndex : ℕ) : MarketM Bool := do
  let m ← asking id
  match nextOwned m seatIndex with
  | none => pure false
  | some (side, tree, leaf) =>
    let config ← readV3RiskConfig m.core
    let reserve ← v3OrderReserve leaf tree (v3ReserveOracle m.core) config
    removeOrder ctx seatIndex side tree leaf.key leaf reserve
    pure true

/-- Cancel a seat's orders one by one, up to a number of them. -/
def cancelUpTo (ctx : Context) (seatIndex : ℕ) : (max : ℕ) → MarketM Unit
  | 0 => pure ()
  | max + 1 => do
    if ← cancelNext ctx seatIndex then cancelUpTo ctx seatIndex max else pure ()

def cancelAllV3 (ctx : Context) (seatIndex maxCancellations actionNonce : ℕ) : MarketM Unit := do
  let m ← asking id
  require (maxCancellations ≠ 0) (custom .invalidInstruction)
  let now := m.core.oracleTimestamp
  let seatSnapshot ← v3TradeSeat m seatIndex
  let session ← validateV3TradeAccounts m ctx seatIndex
    (passiveDemand seatSnapshot sessionActionCancelAll actionNonce) now
  cancelUpTo ctx seatIndex maxCancellations
  consumeSession session ⟨seatSnapshot.trader, seatIndex, ctx.signer⟩ 0 actionNonce now

/-! ## Replacing -/

/-- The checks of a replacement on the seat that the cancellation will leave. -/
def preflightReplaceOrderV3 (m : Market) (ctx : Context) (oldOrderKey : Key)
    (order : PlaceOrderData) : Except ProgramError Unit := do
  let now ← freshV3ExecutionTimeWithSnapshot ctx m.core
  let seat ← v3TradeSeat m order.seatIndex
  let config ← readV3RiskConfig m.core
  let oracle ← oraclePriceAfterFreshness ctx m.core
  let (_, oldTree, oldLeaf) ← findOwned m order.seatIndex oldOrderKey sideSearchOrder
  let reserve ← v3OrderReserve oldLeaf oldTree (v3ReserveOracle m.core) config
  let adjusted ← seat.release reserve true oldLeaf.side oldLeaf.quantity
  let (_, settled) ← riskOk (Risk.settleFunding adjusted m.core.fundingAccumulator)
  let (side, tree) ← order.shape now
  let effectivePrice ← order.effectivePrice tree oracle
  let demand ← admitOrder settled config side order oracle effectivePrice
  let behavior ← order.selfTradeBehavior
  let _ ← orderLeaf order side tree 1 oracle now
  let plan ← planOrder m order side config effectivePrice oracle behavior now
  let _ ← authorizeOrder m ctx order sessionActionReplace demand settled.openOrderCount plan now
  pure ()

def replaceOrderV3 (ctx : Context) (oldOrderKey : Key) (order : PlaceOrderData) :
    MarketM Unit := do
  let m ← asking id
  require (¬(ctx.hasSession = true ∧ ctx.snapshot.isSome = true)) (custom .invalidTradingSession)
  preflightReplaceOrderV3 m ctx oldOrderKey order
  if order.actionNonce = 0 then
    cancelOrderV3 ctx order.seatIndex oldOrderKey 0
    placeOrderV3 ctx order
  else
    require (ctx.hasSession = true ∨ ctx.snapshot.isSome = true) (custom .invalidTradingSession)
    cancelOrderV3WithAction ctx order.seatIndex oldOrderKey order.actionNonce
      sessionActionReplace false
    placeOrderV3WithAction ctx order sessionActionReplace true

end Equinox
