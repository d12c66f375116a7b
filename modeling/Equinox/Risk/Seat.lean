import Equinox.Foundation.Machine

/-! # Trader seats and margin

A seat holds a trader's collateral, position and order exposure. All amounts are
signed 128-bit integers; an operation whose result leaves that range is refused.
-/

namespace Equinox

open Foundation

abbrev Address := ℕ

inductive LiquidationState where
  | healthy | warning | liquidatable | bankrupt
  deriving DecidableEq, Repr

/-- A seat. The two counters live in its reserved bytes: what inbox claims have credited, and what
withdrawal requests have debited. -/
structure TraderSeat where
  occupancy : Bool
  trader : Address
  availableCollateral : ℤ
  reservedMargin : ℤ
  basePosition : ℤ
  quoteEntryValue : ℤ
  realizedPnl : ℤ
  lastFundingAccumulator : ℤ
  openBidExposure : ℤ
  openAskExposure : ℤ
  openOrderCount : ℕ
  liquidationState : LiquidationState
  sequence : ℕ
  inboxCredited : ℕ
  withdrawalRequested : ℕ
  deriving DecidableEq

namespace TraderSeat

def empty : TraderSeat where
  occupancy := false
  trader := 0
  availableCollateral := 0
  reservedMargin := 0
  basePosition := 0
  quoteEntryValue := 0
  realizedPnl := 0
  lastFundingAccumulator := 0
  openBidExposure := 0
  openAskExposure := 0
  openOrderCount := 0
  liquidationState := .healthy
  sequence := 0
  inboxCredited := 0
  withdrawalRequested := 0

def canClose (seat : TraderSeat) : Bool :=
  seat.occupancy && seat.openOrderCount = 0 && seat.basePosition = 0 && seat.reservedMargin = 0 &&
    0 ≤ seat.availableCollateral

end TraderSeat

inductive RiskError where
  | overflow | negativeCollateral | margin | invalidPrice
  deriving DecidableEq, Repr

namespace Risk

def bpsDenominator : ℤ := 10000

def fundingScale : ℤ := 1000000

def add (a b : ℤ) : Except RiskError ℤ := checkedI128 .overflow (a + b)

def sub (a b : ℤ) : Except RiskError ℤ := checkedI128 .overflow (a - b)

def mul (a b : ℤ) : Except RiskError ℤ := checkedI128 .overflow (a * b)

def abs (a : ℤ) : Except RiskError ℤ := checkedI128 .overflow |a|

def notional (quantity price : ℤ) : Except RiskError ℤ := do
  require (0 < price ∧ 0 ≤ quantity) .invalidPrice
  mul quantity price

def fee (notionalValue : ℤ) (feeBps : ℕ) : Except RiskError ℤ := do
  let product ← mul notionalValue feeBps
  pure (product.tdiv bpsDenominator)

def initialMargin (notionalValue : ℤ) (marginBps : ℕ) : Except RiskError ℤ :=
  fee notionalValue marginBps

def maintenanceMargin (notionalValue : ℤ) (marginBps : ℕ) : Except RiskError ℤ :=
  fee notionalValue marginBps

/-- Position, entry value and realized profit after opening or adding. -/
def increase (seat : TraderSeat) (signedQuantity price : ℤ) : Except RiskError (ℤ × ℤ × ℤ) := do
  let base ← add seat.basePosition signedQuantity
  let cost ← mul signedQuantity price
  let entry ← add seat.quoteEntryValue cost
  pure (base, entry, 0)

/-- Position, entry value and realized profit after closing, in part, wholly, or past zero. -/
def decrease (seat : TraderSeat) (signedQuantity oldAbs tradeAbs price : ℤ) :
    Except RiskError (ℤ × ℤ × ℤ) := do
  let old := seat.basePosition
  let closeQty := min oldAbs tradeAbs
  let product ← mul seat.quoteEntryValue closeQty
  let allocatedEntry := product.tdiv oldAbs
  let closeProceeds ← mul closeQty price
  let realized ← if 0 < old then sub closeProceeds allocatedEntry else do
    let negated ← checkedI128 .overflow (-allocatedEntry)
    sub negated closeProceeds
  let remaining ← sub tradeAbs closeQty
  if remaining = 0 then
    let base ← if 0 < old then sub old closeQty else add old closeQty
    let entry ← if base = 0 then pure 0 else sub seat.quoteEntryValue allocatedEntry
    pure (base, entry, realized)
  else
    let newDirection : ℤ := if 0 < signedQuantity then 1 else -1
    let base ← mul remaining newDirection
    let value ← mul remaining price
    let entry ← mul value newDirection
    pure (base, entry, realized)

def applyFill (seat : TraderSeat) (signedQuantity price : ℤ) (feeBps : ℕ) :
    Except RiskError (ℤ × TraderSeat) := do
  require (0 < price) .invalidPrice
  let old := seat.basePosition
  let oldAbs ← abs old
  let tradeAbs ← abs signedQuantity
  let tradeNotional ← notional tradeAbs price
  let chargedFee ← fee tradeNotional feeBps
  let (base, entry, realized) ←
    if old = 0 ∨ (0 < old ∧ 0 < signedQuantity) ∨ (old < 0 ∧ signedQuantity < 0) then
      increase seat signedQuantity price
    else decrease seat signedQuantity oldAbs tradeAbs price
  let charged ← sub seat.realizedPnl chargedFee
  let pnl ← add charged realized
  pure (chargedFee, { seat with
    basePosition := base, quoteEntryValue := entry, realizedPnl := pnl })

/-- Charge the funding since the seat was last settled; returns the payment. -/
def settleFunding (seat : TraderSeat) (accumulator : ℤ) : Except RiskError (ℤ × TraderSeat) := do
  let delta ← sub accumulator seat.lastFundingAccumulator
  let product ← mul seat.basePosition delta
  let payment := product.tdiv fundingScale
  let pnl ← sub seat.realizedPnl payment
  pure (payment, { seat with realizedPnl := pnl, lastFundingAccumulator := accumulator })

def unrealizedPnl (seat : TraderSeat) (markPrice : ℤ) : Except RiskError ℤ := do
  require (0 < markPrice) .invalidPrice
  let current ← mul seat.basePosition markPrice
  sub current (if seat.basePosition = 0 then 0 else seat.quoteEntryValue)

def equity (seat : TraderSeat) (markPrice : ℤ) : Except RiskError ℤ := do
  let cash ← add seat.availableCollateral seat.realizedPnl
  let unrealized ← unrealizedPnl seat markPrice
  add cash unrealized

def maintenanceRequirement (seat : TraderSeat) (markPrice : ℤ) (maintenanceBps : ℕ) :
    Except RiskError ℤ := do
  let size ← abs seat.basePosition
  let value ← notional size markPrice
  maintenanceMargin value maintenanceBps

/-- The seat after a withdrawal, if the rest still covers its requirements. -/
def prepareWithdrawal (seat : TraderSeat) (amount : ℕ) (fundingAccumulator markPrice : ℤ)
    (maintenanceBps : ℕ) (withdrawalBuffer : ℤ) : Except RiskError TraderSeat := do
  require (amount ≠ 0 ∧ 0 ≤ seat.reservedMargin ∧ 0 ≤ withdrawalBuffer) .margin
  let (_, settled) ← settleFunding seat fundingAccumulator
  let collateral ← sub settled.availableCollateral amount
  require (0 ≤ collateral) .negativeCollateral
  let result := { settled with availableCollateral := collateral }
  let requirement ← maintenanceRequirement result markPrice maintenanceBps
  let reserved ← add requirement result.reservedMargin
  let requiredTotal ← add reserved withdrawalBuffer
  let value ← equity result markPrice
  require (requiredTotal ≤ value) .margin
  pure result

def availableMargin (seat : TraderSeat) (markPrice : ℤ) (initialBps : ℕ) : Except RiskError ℤ := do
  let size ← abs seat.basePosition
  let value ← notional size markPrice
  let used ← initialMargin value initialBps
  let total ← equity seat markPrice
  let committed ← add used seat.reservedMargin
  sub total committed

def isLiquidatable (seat : TraderSeat) (markPrice : ℤ) (maintenanceBps : ℕ) :
    Except RiskError Bool := do
  let requirement ← maintenanceRequirement seat markPrice maintenanceBps
  let value ← equity seat markPrice
  pure (value < requirement)

def partialLiquidationQuantity (seat : TraderSeat) (markPrice : ℤ) (maintenanceBps : ℕ) :
    Except RiskError ℤ := do
  if ← isLiquidatable seat markPrice maintenanceBps then
    let size ← abs seat.basePosition
    pure (max (size.tdiv 2) 1)
  else pure 0

def setLiquidationState (seat : TraderSeat) (markPrice : ℤ) (maintenanceBps : ℕ) :
    Except RiskError TraderSeat := do
  let liquidatable ← isLiquidatable seat markPrice maintenanceBps
  pure { seat with
    liquidationState := if liquidatable then .liquidatable else .healthy }

end Risk

end Equinox
