import Equinox.Market.Upkeep

/-! # Delegation, commits and sessions

How a core moves between L1 and the rollup, how its children are committed in
snapshots, and how a trader's sessions are opened and closed. None of these
touches a ledger, except for the rollback of an undelegation, which keeps only
the first bytes of the core.
-/

namespace Equinox

open Foundation CritBit Function Market

variable {m m' : Market}

/-! ## Delegation -/

/-- Never delegated, or fully returned from an earlier cycle. -/
def MarketCore.delegatable (core : MarketCore) : Bool :=
  core.delegationStatus = .notDelegated || (core.delegationStatus = .restored &&
    core.commitPhase = .idle && core.reconciliationStatus = 0)

def delegateV3Core (ctx : Context) (validator : Address) : MarketM Unit := do
  let m ← asking id
  require (validator ≠ 0) (custom .magicBlockInvalidAccount)
  require (m.core.initialized = true ∧ m.core.mode = 1 ∧ m.core.marketAuthority = ctx.signer ∧
    m.core.delegatable = true) (custom .magicBlockInvalidAccount)
  require (m.core.riskConfigVersion = v3RiskConfigVersion) (custom .magicBlockInvalidAccount)
  let _ ← readV3RiskConfig m.core
  let next ← checkedU64 ProgramError.invalidAccountData (m.core.lastCommittedSequence + 1)
  modifyCore fun core => { core with
    delegationStatus := .delegated, validator := validator, expectedCommitSequence := next }

/-! ## Commits -/

inductive CommitKind where
  | commitOnly | commitAndUndelegate
  deriving DecidableEq, Repr

/-- Operators may commit; undelegation stays with the market authority. -/
def commitSignerAllowed (core : MarketCore) (signer : Address) : CommitKind → Bool
  | .commitOnly => core.isV3Operator signer
  | .commitAndUndelegate => core.marketAuthority = signer

def v3ChildCount : ℕ := 26

/-- The next sequence, which stays at the largest value. -/
def saturatingSucc (sequence : ℕ) : ℕ := min (sequence + 1) (2 ^ 64 - 1)

def commitV3Bundle (ctx : Context) (sequence : ℕ) (kind : CommitKind) (digests : ℕ → ℕ) :
    MarketM Unit := do
  let m ← asking id
  require (sequence ≠ 0) (custom .magicBlockSequenceReplay)
  (validateExecutionBundle m).mapError fun _ => custom .magicBlockInvalidAccount
  require (m.core.marketAuthority = ctx.signer ∧ m.core.delegationStatus = .delegated ∧
    m.core.expectedCommitSequence = sequence) (custom .magicBlockSequenceReplay)
  modifyCore fun core => { core with
    lastCommittedSequence := sequence
    snapshotEpoch := sequence
    snapshotChildCount := v3ChildCount
    childRecords := fun child => { epoch := sequence, sequence, digest := digests child }
    expectedCommitSequence :=
      if kind = .commitOnly then saturatingSucc sequence else core.expectedCommitSequence
    commitPhase := if kind = .commitOnly then .idle else core.commitPhase
    delegationStatus := if kind = .commitOnly then core.delegationStatus else .undelegating }
  appendEventRecord (if kind = .commitOnly then .commitRequested else .undelegationRequested)
    (.delegation m.core.validator sequence) ctx.now
  modifyCore fun core => { core with
    commitPhase := if kind = .commitOnly then core.commitPhase else .undelegating }

/-- A core about to record a child: a new snapshot starts from an empty table. -/
def MarketCore.openSnapshot (core : MarketCore) (epoch : ℕ) : MarketCore :=
  if core.commitPhase = .idle then { core with
    childRecords := fun _ => .blank
    commitPhase := .snapshot
    snapshotEpoch := epoch
    snapshotChildCount := 0 }
  else core

/-- Commit one child and record its digest in the core. -/
def commitV3Member (ctx : Context) (sequence : ℕ) (kind : CommitKind) (child digest : ℕ) :
    MarketM Unit := do
  let m ← asking id
  require (sequence ≠ 0) (custom .magicBlockSequenceReplay)
  require (m.core.delegationStatus = .delegated ∧ m.core.expectedCommitSequence = sequence ∧
    commitSignerAllowed m.core ctx.signer kind = true) (custom .magicBlockSequenceReplay)
  require (child < v3ChildCount) (custom .magicBlockInvalidAccount)
  require (m.core.commitPhase ≠ .undelegating) (custom .magicBlockSequenceReplay)
  let epoch := if m.core.commitPhase = .idle then sequence else m.core.snapshotEpoch
  require (epoch ≠ 0) (custom .magicBlockSequenceReplay)
  require (m.core.commitPhase = .snapshot → m.core.snapshotChildCount < v3ChildCount ∧
    (m.core.childRecords child).epoch ≠ epoch) (custom .magicBlockSequenceReplay)
  modifyCore fun core =>
    let opened := core.openSnapshot epoch
    { opened with
      childRecords := update opened.childRecords child { epoch, sequence, digest }
      snapshotChildCount := opened.snapshotChildCount + 1
      lastCommittedSequence := sequence
      expectedCommitSequence := saturatingSucc sequence }

/-- The record of a child belongs to an epoch and is filled in. -/
def ChildRecord.completes (record : ChildRecord) (epoch : ℕ) : Bool :=
  record.epoch = epoch && record.sequence ≠ 0 && record.digest ≠ 0

/-- Commit the core once every child is recorded in its snapshot. -/
def commitV3Core (ctx : Context) (sequence : ℕ) (kind : CommitKind) : MarketM Unit := do
  let m ← asking id
  require (sequence ≠ 0) (custom .magicBlockSequenceReplay)
  require (m.core.delegationStatus = .delegated ∧ m.core.commitPhase = .snapshot ∧
    m.core.expectedCommitSequence = sequence) (custom .magicBlockSequenceReplay)
  require (m.core.snapshotEpoch ≠ 0 ∧ m.core.snapshotChildCount = v3ChildCount)
    (custom .magicBlockSequenceReplay)
  require ((List.range v3ChildCount).all (fun child =>
    (m.core.childRecords child).completes m.core.snapshotEpoch) = true)
    (custom .magicBlockSequenceReplay)
  require (commitSignerAllowed m.core ctx.signer kind = true) (custom .magicBlockSequenceReplay)
  modifyCore fun core => match kind with
    | .commitAndUndelegate => { core with
        lastCommittedSequence := sequence
        delegationStatus := .undelegating
        commitPhase := .undelegating }
    | .commitOnly => { core with
        lastCommittedSequence := sequence
        expectedCommitSequence := saturatingSucc sequence
        commitPhase := .idle
        snapshotChildCount := 0
        childRecords := fun _ => .blank }

def abortV3Snapshot (ctx : Context) : MarketM Unit := do
  let m ← asking id
  require (m.core.isV3Operator ctx.signer = true) ProgramError.missingRequiredSignature
  require (m.core.commitPhase = .snapshot) (custom .invalidInstruction)
  modifyCore fun core => { core with
    commitPhase := .idle, snapshotChildCount := 0, childRecords := fun _ => .blank }

/-- What the rollback of an undelegation leaves of a core: the fields up to the validator. -/
def MarketCore.rolledBack (core : MarketCore) : MarketCore :=
  { MarketCore.blank core.address core.instrument with
    initialized := core.initialized
    mode := core.mode
    marketAuthority := core.marketAuthority
    globalOrderSequence := core.globalOrderSequence
    globalEventSequence := core.globalEventSequence
    fundingAccumulator := core.fundingAccumulator
    lastFundingTimestamp := core.lastFundingTimestamp
    oracleValid := core.oracleValid
    oraclePrice := core.oraclePrice
    oracleTimestamp := core.oracleTimestamp
    delegationStatus := .restored
    expectedCommitSequence := core.expectedCommitSequence
    lastCommittedSequence := core.lastCommittedSequence
    validator := core.validator }

/-! ## Sessions -/

/-- The limits an owner sets for a session. -/
structure SessionPolicy where
  expiresAt : ℕ
  actions : ℕ
  maxOrderNotional : ℕ
  maxCumulativeNotional : ℕ
  maximumExposure : ℤ
  maximumOpenOrders : ℕ

/-- The limits are in use and consistent, and the session ends after a time. -/
def SessionPolicy.valid (policy : SessionPolicy) (time : ℕ) : Bool :=
  time < policy.expiresAt && policy.actions ≠ 0 && policy.maxOrderNotional ≠ 0 &&
    policy.maxOrderNotional ≤ policy.maxCumulativeNotional && 0 < policy.maximumExposure &&
    policy.maximumOpenOrders ≠ 0

def TradingSession.withPolicy (session : TradingSession) (policy : SessionPolicy) :
    TradingSession :=
  { session with
    expiresAt := policy.expiresAt
    actions := policy.actions
    maxOrderNotional := policy.maxOrderNotional
    maxCumulativeNotional := policy.maxCumulativeNotional
    maxExposure := policy.maximumExposure
    maxOpenOrders := policy.maximumOpenOrders }

def TradingSession.empty : TradingSession where
  initialized := false
  revoked := false
  createdAt := 0
  expiresAt := 0
  actions := 0
  maxOrderNotional := 0
  maxCumulativeNotional := 0
  consumedCumulativeNotional := 0
  maxExposure := 0
  maxOpenOrders := 0
  nextExpectedNonce := 1
  lastActionTimestamp := 0
  sessionGeneration := 0

def writeSession (key : SessionKey) (session : Option TradingSession) : MarketM Unit :=
  modify fun m => { m with sessions := update m.sessions key session }

def createV3TradingSession (ctx : Context) (seatIndex : ℕ) (sessionSigner : Address) :
    MarketM Unit := do
  let m ← asking id
  require (m.core.marketAuthority = ctx.signer ∧ m.core.delegationStatus.isOnL1 = true)
    (custom .invalidTradingSession)
  require (ctx.signer ≠ sessionSigner ∧ ctx.signer ≠ m.core.address)
    (custom .invalidTradingSession)
  require ((m.sessions ⟨ctx.signer, seatIndex, sessionSigner⟩).isNone = true)
    (custom .invalidTradingSession)
  writeSession ⟨ctx.signer, seatIndex, sessionSigner⟩ (some TradingSession.empty)

def authorizeTradingSessionV3 (ctx : Context) (seatIndex : ℕ) (sessionSigner : Address)
    (policy : SessionPolicy) : MarketM Unit := do
  let m ← asking id
  validateExecutionBundle m
  require (ctx.signer ≠ sessionSigner ∧ ctx.signer ≠ m.core.address)
    (custom .invalidTradingSession)
  let seat ← v3TradeSeat m seatIndex
  require (seat.trader = ctx.signer) (custom .invalidSeat)
  let now ← freshV3ExecutionTimeWithSnapshot ctx m.core
  require ((ctx.snapshot.isSome = true ∨ m.core.oracleValid = true) ∧ policy.valid now = true)
    (custom .invalidTradingSession)
  let session ← okOr (m.sessions ⟨ctx.signer, seatIndex, sessionSigner⟩)
    (custom .invalidTradingSession)
  require (session.initialized = false ∧ session.revoked = false) (custom .invalidTradingSession)
  writeSession ⟨ctx.signer, seatIndex, sessionSigner⟩
    (some { session.withPolicy policy with initialized := true, createdAt := now })
  appendEventRecord .tradingSessionAuthorized (.session seatIndex sessionSigner 0) ctx.now

def validateV3SessionControl (m : Market) (ctx : Context) (seatIndex : ℕ)
    (sessionSigner : Address) : Except ProgramError TradingSession := do
  validateExecutionBundle m
  okOr (m.sessions ⟨ctx.signer, seatIndex, sessionSigner⟩) (custom .invalidTradingSession)

def revokeTradingSessionV3 (ctx : Context) (seatIndex : ℕ) (sessionSigner : Address) :
    MarketM Unit := do
  let m ← asking id
  let session ← validateV3SessionControl m ctx seatIndex sessionSigner
  writeSession ⟨ctx.signer, seatIndex, sessionSigner⟩ (some { session with revoked := true })
  appendEventRecord .tradingSessionRevoked (.session seatIndex sessionSigner 0) ctx.now

def updateTradingSessionV3 (ctx : Context) (seatIndex : ℕ) (sessionSigner : Address)
    (policy : SessionPolicy) : MarketM Unit := do
  let m ← asking id
  let session ← validateV3SessionControl m ctx seatIndex sessionSigner
  require (session.revoked = false ∧ policy.valid session.createdAt = true ∧
    session.consumedCumulativeNotional ≤ policy.maxCumulativeNotional)
    (custom .invalidTradingSession)
  require (session.sessionGeneration + 1 < 2 ^ 32) (custom .arithmeticOverflow)
  writeSession ⟨ctx.signer, seatIndex, sessionSigner⟩
    (some { session.withPolicy policy with sessionGeneration := session.sessionGeneration + 1 })
  appendEventRecord .tradingSessionLimitsUpdated
    (.session seatIndex sessionSigner (session.sessionGeneration + 1)) ctx.now

def closeTradingSessionV3 (ctx : Context) (seatIndex : ℕ) (sessionSigner : Address) :
    MarketM Unit := do
  let m ← asking id
  let session ← validateV3SessionControl m ctx seatIndex sessionSigner
  require (session.revoked = true ∨ session.expiresAt ≤ m.core.oracleTimestamp)
    (custom .invalidTradingSession)
  writeSession ⟨ctx.signer, seatIndex, sessionSigner⟩ none
  appendEventRecord .tradingSessionClosed (.session seatIndex sessionSigner 0) ctx.now

theorem run_writeSession_bind {β : Type} {key : SessionKey} {session : Option TradingSession}
    {k : Unit → MarketM β} {b : β} : (writeSession key session >>= k) m = .ok b m' ↔
      k () { m with sessions := update m.sessions key session } = .ok b m' := run_modify_bind

instance sameAccounts_writeSession (key : SessionKey) (session : Option TradingSession) :
    Leads SameAccounts (writeSession key session) := .modify fun _ => by constructor <;> rfl

end Equinox
