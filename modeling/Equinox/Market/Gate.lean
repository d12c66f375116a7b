import Equinox.Market.Access

/-! # Who may act, when and at which price

An instruction comes with its signer, the clock, and optionally a session
account and an oracle snapshot. The snapshot is the sole price source when it is
there; otherwise the core's cached price is, under the same freshness bounds.
-/

namespace Equinox

open Foundation CritBit

/-! ## The oracle -/

structure OracleSnapshot where
  version : ℕ
  initialized : Bool
  core : Address
  feedId : ℕ
  channel : ℕ
  exponent : ℤ
  price : I64
  confidence : ℕ
  publishTimestamp : ℕ
  sequence : ℕ
  session : ℕ
  tradingStatus : ℕ
  authenticated : Bool
  revision : ℕ
  deriving DecidableEq

namespace OracleSnapshot

def snapshotVersion : ℕ := 3

def statusOpen : ℕ := 0

def validate (s : OracleSnapshot) (core : Address) (now : ℕ) : Except ProgramError Unit := do
  require (s.version = snapshotVersion ∧ s.initialized = true ∧ s.core = core ∧
    s.authenticated = true ∧ s.revision = 1 ∧ s.tradingStatus = statusOpen) .invalidAccountData
  require (s.sequence ≠ 0 ∧ 0 < s.price.val ∧ s.confidence ≤ s.price.val.natAbs / 5 ∧
    s.publishTimestamp ≤ now + 2 ∧ now ≤ s.publishTimestamp + 10) .invalidInstructionData

def validateForCore (s : OracleSnapshot) (core : MarketCore) (now : ℕ) :
    Except ProgramError Unit := do
  s.validate core.address now
  require (s.feedId = core.oracleFeedId ∧ s.channel = core.oracleChannel ∧
    s.exponent = core.oracleExponent) .invalidInstructionData

/-- The last authenticated price, however old and whatever the session. -/
def lastVerifiedPrice (s : OracleSnapshot) (core : MarketCore) : Except ProgramError I64 := do
  require (s.version = snapshotVersion ∧ s.initialized = true ∧ s.core = core.address ∧
    s.authenticated = true ∧ s.revision = 1 ∧ s.feedId = core.oracleFeedId ∧
    s.channel = core.oracleChannel ∧ s.exponent = core.oracleExponent ∧ s.sequence ≠ 0)
    .invalidAccountData
  require (0 < s.price.val) .invalidAccountData
  pure s.price

end OracleSnapshot

/-- What comes with an instruction besides its data. -/
structure Context where
  signer : Address
  now : ℕ
  hasSession : Bool
  snapshot : Option OracleSnapshot

def v3MaxOracleAgeSeconds : ℕ := 10

def validateV3OracleFreshness (core : MarketCore) (now : ℕ) : Except ProgramError Unit :=
  require (core.oracleValid = true ∧ core.mode = 1 ∧ core.oracleSession ≤ 2 ∧
    0 < core.oraclePrice.val ∧ core.oracleConfidence ≤ core.oraclePrice.val.natAbs / 5 ∧
    core.oracleTimestamp ≤ now + 2 ∧ now ≤ core.oracleTimestamp + v3MaxOracleAgeSeconds)
    (custom .oracleUnavailable)

def freshV3ExecutionTimeWithSnapshot (ctx : Context) (core : MarketCore) :
    Except ProgramError ℕ := do
  match ctx.snapshot with
  | some snapshot => snapshot.validateForCore core ctx.now
  | none => validateV3OracleFreshness core ctx.now
  pure ctx.now

variable {ctx : Context} {now : ℕ}

theorem freshV3ExecutionTime_eq {core : MarketCore}
    (h : freshV3ExecutionTimeWithSnapshot ctx core = .ok now) : now = ctx.now := by
  unfold freshV3ExecutionTimeWithSnapshot at h
  split at h <;>
    · simp only [bind_eq_ok, pure_eq_ok] at h
      obtain ⟨-, -, rfl⟩ := h
      rfl

def oraclePriceAfterFreshness (ctx : Context) (core : MarketCore) : Except ProgramError I64 := do
  let price := match ctx.snapshot with
    | some snapshot => snapshot.price
    | none => core.oraclePrice
  require (0 < price.val) (custom .oracleUnavailable)
  pure price

theorem oraclePriceAfterFreshness_pos {core : MarketCore} {price : I64}
    (h : oraclePriceAfterFreshness ctx core = .ok price) : 0 < price.val := by
  simp only [oraclePriceAfterFreshness, ok_rules, require_eq_ok] at h
  obtain ⟨⟨⟩, hp, rfl⟩ := h
  exact hp

/-- The cached price, for leaves that carry no reserve price. -/
def v3ReserveOracle (core : MarketCore) : Option I64 :=
  if 0 < core.oraclePrice.val then some core.oraclePrice else none

/-! ## Sessions -/

def sessionActionPlace : ℕ := 1

def sessionActionCancel : ℕ := 2

def sessionActionCancelAll : ℕ := 4

def sessionActionReplace : ℕ := 8

def sessionActionReduceOnlyClose : ℕ := 16

def TradingSession.isLive (s : TradingSession) (now : ℕ) : Bool :=
  s.initialized && !s.revoked && now < s.expiresAt

/-- What a trading action asks of a session's limits. -/
structure SessionDemand where
  requiredActions : ℕ
  notional : ℤ
  resultingExposure : ℕ
  resultingOpenOrders : ℕ
  actionNonce : ℕ

def validateV3SessionActor (m : Market) (ctx : Context) (seatIndex : ℕ) (demand : SessionDemand)
    (now : ℕ) : Except ProgramError TradingSession := do
  require (demand.requiredActions ≠ 0) (custom .invalidTradingSession)
  require (m.core.initialized = true ∧ m.core.mode = 1) (custom .invalidTradingSession)
  let seat ← v3TradeSeat m seatIndex
  require (seat.trader ≠ ctx.signer) (custom .invalidTradingSession)
  let session ← okOr (m.sessions ⟨seat.trader, seatIndex, ctx.signer⟩)
    (custom .invalidTradingSession)
  require (session.isLive now = true ∧ session.actions &&& demand.requiredActions ≠ 0)
    (custom .invalidTradingSession)
  require (demand.actionNonce = session.nextExpectedNonce) (custom .sessionNonceReplay)
  require (session.nextExpectedNonce ≠ 2 ^ 64 - 1) (custom .arithmeticOverflow)
  require (0 ≤ demand.notional ∧ demand.notional ≤ session.maxOrderNotional ∧
    demand.notional + session.consumedCumulativeNotional ≤ session.maxCumulativeNotional ∧
    (demand.resultingExposure : ℤ) ≤ session.maxExposure % 2 ^ 128 ∧
    demand.resultingOpenOrders ≤ session.maxOpenOrders) (custom .riskViolation)
  pure session

/-- The owner acts with nonce zero, anyone else through a session. -/
def validateV3TradeAccounts (m : Market) (ctx : Context) (seatIndex : ℕ) (demand : SessionDemand)
    (now : ℕ) : Except ProgramError (Option TradingSession) := do
  validateExecutionBundle m
  require (m.core.mode = 1 ∧ m.core.delegationStatus = .delegated) (custom .invalidInstruction)
  let seat ← v3TradeSeat m seatIndex
  if seat.trader = ctx.signer then
    require (demand.actionNonce = 0) (custom .invalidInstruction)
    pure none
  else
    require (ctx.hasSession = true) (custom .invalidTradingSession)
    let session ← validateV3SessionActor m ctx seatIndex demand now
    pure (some session)

theorem validateV3TradeAccounts_eq_ok {m : Market} {i : ℕ} {demand : SessionDemand}
    {session : Option TradingSession}
    (h : validateV3TradeAccounts m ctx i demand now = .ok session) :
    m.core.riskConfigVersion = v3RiskConfigVersion ∧ m.core.mode = 1 ∧
      m.core.delegationStatus = .delegated ∧ m.core.commitPhase = .idle := by
  simp only [validateV3TradeAccounts, bind_eq_ok, require_eq_ok] at h
  obtain ⟨⟨⟩, hb, ⟨⟩, ⟨hm, hd⟩, -⟩ := h
  obtain ⟨-, hv, -, hp⟩ := validateExecutionBundle_eq_ok hb
  exact ⟨hv, hm, hd, hp⟩

/-- Consume the nonce and the notional of an accepted session action. -/
def consumeSessionAction (key : SessionKey) (session : TradingSession) (notional : ℤ)
    (actionNonce now : ℕ) : MarketM Unit := do
  require (0 ≤ notional ∧ actionNonce = session.nextExpectedNonce)
    (custom .invalidTradingSession)
  let increment ← checkedU64 (custom .riskViolation) notional.toNat
  let nextConsumed ←
    checkedU64 (custom .riskViolation) (session.consumedCumulativeNotional + increment)
  require (nextConsumed ≤ session.maxCumulativeNotional) (custom .riskViolation)
  let nextNonce ← checkedU64 (custom .arithmeticOverflow) (session.nextExpectedNonce + 1)
  modify fun m => { m with sessions := Function.update m.sessions key (some { session with
    consumedCumulativeNotional := nextConsumed
    nextExpectedNonce := nextNonce
    lastActionTimestamp := now }) }

def consumeSession (session : Option TradingSession) (key : SessionKey) (notional : ℤ)
    (actionNonce now : ℕ) : MarketM Unit :=
  match session with
  | none => pure ()
  | some session => consumeSessionAction key session notional actionNonce now

theorem run_consumeSession {session : Option TradingSession} {key : SessionKey} {notional : ℤ}
    {nonce : ℕ} {m m' : Market} {u : Unit}
    (h : consumeSession session key notional nonce now m = .ok u m') :
    ∃ sessions, m' = { m with sessions := sessions } := by
  cases session with
  | none =>
    obtain ⟨-, rfl⟩ := run_pure_eq_ok.1 h
    exact ⟨m.sessions, rfl⟩
  | some session =>
    simp only [consumeSession, consumeSessionAction, run_lift_bind, exists_require,
      exists_checkedU64, run_modify_eq_ok] at h
    obtain ⟨-, -, -, -, -, rfl⟩ := h
    exact ⟨_, rfl⟩

end Equinox
