import Equinox.V2.Market

/-! # Custody

The handlers that move tokens through the vault, those that move a claim from
one ledger to another, and the reconciliation of the ledgers with the vault. The
token accounts are given as the handlers read them.
-/

namespace Equinox.V2

open Foundation CritBit ProgramError

structure Mint where
  address : Address
  isInitialized : Bool
  decimals : ℕ
  deriving DecidableEq, Repr

structure TokenAccount where
  mint : Address
  owner : Address
  amount : ℕ
  deriving DecidableEq, Repr

/-- The accounts that come with every custody instruction besides the market. -/
structure CustodyAccounts where
  mint : Mint
  tokenProgram : Address
  vault : TokenAccount
  deriving DecidableEq, Repr

/-- The address of the token program, which is fixed. -/
def tokenProgramId : Address := 6

def custodyConfig (header : MarketStateHeader) (accounts : CustodyAccounts) :
    Except ProgramError Unit := do
  require (header.collateralMint = accounts.mint.address ∧
    header.collateralTokenProgram = accounts.tokenProgram) (custom .invalidInstruction)
  require (accounts.tokenProgram = tokenProgramId ∧ header.vaultConfigured = true)
    (custom .invalidInstruction)

def validateCustodyTokens (m : Market) (accounts : CustodyAccounts) :
    Except ProgramError Unit := do
  require (m.header.l1WithdrawalsAllowed = true) (custom .magicBlockUndelegationInProgress)
  require (accounts.mint.isInitialized = true ∧
    accounts.mint.decimals = m.header.collateralDecimals ∧
    accounts.vault.mint = accounts.mint.address ∧ accounts.vault.owner = m.vaultAuthority)
    .invalidAccountData

/-- What every custody handler checks of its accounts. -/
def checkCustody (m : Market) (accounts : CustodyAccounts) : Except ProgramError Unit := do
  custodyConfig m.header accounts
  validateCustodyTokens m accounts

/-- A balance as an unsigned 64-bit field of an event. -/
def asU64 (x : ℤ) : ℕ := x.toNat % 2 ^ 64

/-- Bind the collateral of a market, once, with empty ledgers. -/
def configureVaultHeader (ctx : Context) (mint : Mint) : MarketM Unit := do
  let m ← asking id
  require (mint.isInitialized = true) (custom .invalidInstruction)
  let header ← initializedHeader m
  require (header.marketAuthority = ctx.signer ∧ header.vaultConfigured = false)
    (custom .invalidInstruction)
  modifyHeader fun header => { header with
    collateralMint := mint.address
    collateralTokenProgram := tokenProgramId
    collateralDecimals := mint.decimals
    vaultConfigured := true
    protocolFeeBalance := 0
    insuranceFundBalance := 0
    recognizedBadDebt := 0
    reconciliationStatus := .reconciled
    vaultSurplus := 0 }
  logEvent .vaultInitialized ctx.eventTimestamp .empty

/-! ## Collateral -/

/-- A deposit. The token program refuses a balance that does not fit. -/
def depositCollateral (ctx : Context) (accounts : CustodyAccounts) (source : TokenAccount)
    (seatIndex amount : ℕ) : MarketM Unit := do
  let m ← asking id
  require (amount ≠ 0) notEnoughAccountKeys
  let _ ← initializedHeader m
  checkCustody m accounts
  let seat ← seatAt m seatIndex
  require (seat.trader = ctx.signer) (custom .invalidSeat)
  require (source.mint = accounts.mint.address ∧ source.owner = ctx.signer ∧
    amount ≤ source.amount) (custom .invalidInstruction)
  let collateral ← checkedI128 (custom .arithmeticOverflow) (seat.availableCollateral + amount)
  require (accounts.vault.amount + amount < 2 ^ 64) arithmeticOverflow
  writeSeat seatIndex { seat with availableCollateral := collateral }
  logEvent .collateralDeposited ctx.eventTimestamp
    (.seatAmount seatIndex amount (asU64 collateral))

def defaultWithdrawalBuffer : ℤ := 0

/-- A withdrawal. Every risk error is reported alike. -/
def withdrawCollateral (ctx : Context) (accounts : CustodyAccounts) (destination : TokenAccount)
    (seatIndex amount : ℕ) : MarketM Unit := do
  let m ← asking id
  require (amount ≠ 0) notEnoughAccountKeys
  let header ← initializedHeader m
  require (header.l1WithdrawalsAllowed = true) (custom .magicBlockUndelegationInProgress)
  require (header.withdrawalsBlockedByReconciliation = false) (custom .custodyViolation)
  checkCustody m accounts
  let seat ← seatAt m seatIndex
  require (seat.trader = ctx.signer ∧ seat.occupancy = true ∧ header.oracleValid = true)
    (custom .riskViolation)
  let seat ← (Risk.prepareWithdrawal seat amount header.fundingAccumulator
    header.lastVerifiedOraclePrice.val header.maintenanceMarginBps
    defaultWithdrawalBuffer).mapError fun _ => custom .riskViolation
  require (destination.mint = accounts.mint.address ∧ destination.owner = ctx.signer)
    (custom .invalidInstruction)
  require (amount ≤ accounts.vault.amount) (custom .custodyViolation)
  require (destination.amount + amount < 2 ^ 64) arithmeticOverflow
  writeSeat seatIndex seat
  logEvent .collateralWithdrawn ctx.eventTimestamp
    (.seatAmount seatIndex amount (accounts.vault.amount - amount))

/-! ## Ledgers -/

/-- Move fees to the insurance fund. Both are backed by the same vault. -/
def transferToInsuranceFund (ctx : Context) (amount : ℕ) : MarketM Unit := do
  let m ← asking id
  require (amount ≠ 0) notEnoughAccountKeys
  let header ← initializedHeader m
  require (header.marketAuthority = ctx.signer) (custom .custodyViolation)
  require (amount ≤ header.protocolFeeBalance) (custom .custodyViolation)
  let insurance ← checkedU64 (custom .arithmeticOverflow) (header.insuranceFundBalance + amount)
  modifyHeader fun header => { header with
    protocolFeeBalance := header.protocolFeeBalance - amount
    insuranceFundBalance := insurance }
  logEvent .insuranceFundChanged ctx.eventTimestamp (.seatAmount noSeat amount insurance)

def MarketStateHeader.ledgerBalance (header : MarketStateHeader) (fromInsurance : Bool) : ℕ :=
  if fromInsurance then header.insuranceFundBalance else header.protocolFeeBalance

def MarketStateHeader.withLedgerBalance (header : MarketStateHeader) (fromInsurance : Bool)
    (balance : ℕ) : MarketStateHeader :=
  if fromInsurance then { header with insuranceFundBalance := balance }
  else { header with protocolFeeBalance := balance }

/-- Pay out of a ledger: the emergency authority from the insurance fund, the market authority from
the fees. -/
def withdrawLedgerBalance (ctx : Context) (accounts : CustodyAccounts)
    (destination : TokenAccount) (amount : ℕ) (fromInsurance : Bool) : MarketM Unit := do
  let m ← asking id
  require (amount ≠ 0) notEnoughAccountKeys
  let header ← initializedHeader m
  require (ctx.signer = if fromInsurance then header.emergencyAuthority else header.marketAuthority)
    (custom .custodyViolation)
  checkCustody m accounts
  require (destination.mint = accounts.mint.address) (custom .invalidInstruction)
  require (amount ≤ header.ledgerBalance fromInsurance) (custom .custodyViolation)
  require (amount ≤ accounts.vault.amount ∧ destination.amount + amount < 2 ^ 64)
    (custom .custodyViolation)
  let balance := header.ledgerBalance fromInsurance - amount
  modifyHeader fun header => header.withLedgerBalance fromInsurance balance
  logEvent (if fromInsurance then .insuranceFundChanged else .protocolFeesChanged)
    ctx.eventTimestamp (.seatAmount noSeat amount balance)

/-! ## Bad debt -/

def recordBadDebt (ctx : Context) (seatIndex amount : ℕ) : MarketM Unit := do
  let m ← asking id
  require (amount ≠ 0) notEnoughAccountKeys
  let header ← initializedHeader m
  require (header.emergencyAuthority = ctx.signer) (custom .custodyViolation)
  require (header.oracleValid = true) (custom .oracleUnavailable)
  let seat ← seatAt m seatIndex
  let equity ← checkRisk (Risk.equity seat header.lastVerifiedOraclePrice.val)
  require (equity < 0 ∧ InI128 (-equity) ∧ (amount : ℤ) ≤ -equity) (custom .custodyViolation)
  let pnl ← checkedI128 (custom .arithmeticOverflow) (seat.realizedPnl + amount)
  let badDebt ← checkedU64 (custom .arithmeticOverflow) (header.recognizedBadDebt + amount)
  modifyHeader fun header => { header with recognizedBadDebt := badDebt }
  writeSeat seatIndex { seat with realizedPnl := pnl }
  logEvent .badDebtRecorded ctx.eventTimestamp (.seatAmount seatIndex amount badDebt)

/-- Pay recognized bad debt from the insurance fund. -/
def resolveBadDebt (ctx : Context) (amount : ℕ) : MarketM Unit := do
  let m ← asking id
  require (amount ≠ 0) notEnoughAccountKeys
  let header ← initializedHeader m
  require (header.emergencyAuthority = ctx.signer) (custom .custodyViolation)
  require (amount ≤ header.recognizedBadDebt ∧ amount ≤ header.insuranceFundBalance)
    (custom .custodyViolation)
  let badDebt := header.recognizedBadDebt - amount
  modifyHeader fun header => { header with
    recognizedBadDebt := badDebt
    insuranceFundBalance := header.insuranceFundBalance - amount }
  logEvent .badDebtResolved ctx.eventTimestamp (.seatAmount noSeat amount badDebt)

/-! ## Reconciliation -/

def totalTraderCollateral (m : Market) : Except ProgramError ℤ :=
  (List.range maxTraderSeats).foldlM (fun total index =>
    checkedI128 (custom .arithmeticOverflow) (total + (m.seats index).availableCollateral)) 0

def expectedBalance (m : Market) : Except ProgramError ℤ := do
  let collateral ← totalTraderCollateral m
  let withFees ← checkedI128 (custom .arithmeticOverflow)
    (collateral + m.header.protocolFeeBalance)
  let withInsurance ← checkedI128 (custom .arithmeticOverflow)
    (withFees + m.header.insuranceFundBalance)
  checkedI128 (custom .arithmeticOverflow) (withInsurance - m.header.recognizedBadDebt)

/-- What a reconciliation finds. A second deficit in a row needs governed recovery. -/
def reconciledHeader (header : MarketStateHeader) (actual expected : ℤ) :
    Except ProgramError (MarketStateHeader × EventKind) :=
  if actual = expected then
    pure ({ header with reconciliationStatus := .reconciled, vaultSurplus := 0 }, .vaultReconciled)
  else if expected < actual then do
    let surplus ← checkedU64 (custom .arithmeticOverflow) (actual - expected).toNat
    pure ({ header with reconciliationStatus := .surplusDetected, vaultSurplus := surplus },
      .vaultSurplusDetected)
  else
    pure ({ header with
      mode := .paused
      reconciliationStatus :=
        if header.withdrawalsBlockedByReconciliation then .recoveryRequired else .deficitDetected
      vaultSurplus := 0 }, .vaultDeficitDetected)

/-- Compare the ledgers with the vault. Anyone may ask for it. -/
def reconcileVault (ctx : Context) (accounts : CustodyAccounts) : MarketM Unit := do
  let m ← asking id
  let header ← initializedHeader m
  checkCustody m accounts
  let expected ← expectedBalance m
  let (updated, kind) ← reconciledHeader header accounts.vault.amount expected
  modifyHeader fun _ => updated
  logEvent kind ctx.eventTimestamp (.reconciliation accounts.vault.amount
    (if 0 ≤ expected then min expected.toNat (2 ^ 64 - 1) else 2 ^ 64 - 1)
    updated.reconciliationStatus.toByte)

end Equinox.V2
