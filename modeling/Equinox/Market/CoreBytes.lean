import Equinox.Foundation.Bytes
import Equinox.Market.Lifecycle

/-! # The risk configuration in the core's bytes

The core account is a buffer of 4096 bytes with hand-assigned offsets. The risk
configuration occupies eleven regions of it: initialization and updates overwrite
them field by field, and the reader puts defaults in the place of zeros.
-/

namespace Equinox

open Foundation List

/-! ## The layout -/

def v3MarketCoreSize : ℕ := 4096
def v3LayoutVersion : ℕ := 3

/-- The text `STKMK003`. -/
def v3MarketCoreDiscriminator : Bytes := [83, 84, 75, 77, 75, 48, 48, 51]

def v3CoreMarketAuthorityOffset : ℕ := 44
def v3CoreMaximumPositionOffset : ℕ := 256
def v3CoreMaximumOpenInterestOffset : ℕ := 272
def v3CoreCurrentOpenInterestOffset : ℕ := 288
def v3CoreMarkDeviationBpsOffset : ℕ := 304
def v3CoreProtocolFeeBalanceOffset : ℕ := 306
def v3CoreInsuranceBalanceOffset : ℕ := 322
def v3CoreBadDebtOffset : ℕ := 338
def v3CoreVaultLiabilityOffset : ℕ := 354
def v3CoreReconciliationStatusOffset : ℕ := 370
def v3CoreRiskConfigVersionOffset : ℕ := 371
def v3CoreChildRecordsOffset : ℕ := 392
def v3CoreChildRecordSize : ℕ := 48
def v3CoreVaultSurplusOffset : ℕ := v3CoreChildRecordsOffset + v3ChildCount * v3CoreChildRecordSize
def v3CoreWithdrawalBufferOffset : ℕ := v3CoreVaultSurplusOffset + 16
def v3CoreInitialMarginBpsOffset : ℕ := 1672
def v3CoreMaintenanceMarginBpsOffset : ℕ := 1674
def v3CoreLiquidationFeeBpsOffset : ℕ := 1676
def v3CoreMakerFeeBpsOffset : ℕ := 1678
def v3CoreTakerFeeBpsOffset : ℕ := 1680
def v3CoreMaximumLeverageOffset : ℕ := 1682

namespace CoreBytes

def coreUnsigned (bytes : Bytes) (offset width : ℕ) : ℕ := (bytes.slice offset width).toNat

def coreI128 (bytes : Bytes) (offset : ℕ) : Except ProgramError ℤ := do
  require (offset + 16 ≤ bytes.length) bundleError
  pure (bytes.slice offset 16).toInt

def setCoreI128 (bytes : Bytes) (offset : ℕ) (value : ℤ) : Except ProgramError Bytes := do
  require (offset + 16 ≤ bytes.length) bundleError
  pure (bytes.write offset (Bytes.ofInt 16 value))

def readOr (width : ℕ) (configured : Bool) (bytes : Bytes) (offset fallback : ℕ) : ℕ :=
  let value := coreUnsigned bytes offset width
  if configured = true ∧ value ≠ 0 then value else fallback

def readU16Or := readOr 2
def readU32Or := readOr 4

def readV3RiskConfig (bytes : Bytes) : Except ProgramError V3RiskConfig := do
  require (bytes.length = v3MarketCoreSize) bundleError
  require (coreUnsigned bytes v3CoreRiskConfigVersionOffset 1 = v3RiskConfigVersion) bundleError
  let configured := decide
    (coreUnsigned bytes v3CoreRiskConfigVersionOffset 1 = v3RiskConfigVersion)
  let defaults := V3RiskConfig.defaults
  let maximumPosition ←
    if configured then coreI128 bytes v3CoreMaximumPositionOffset else pure defaults.maximumPosition
  let maximumOpenInterest ←
    if configured then coreI128 bytes v3CoreMaximumOpenInterestOffset
    else pure defaults.maximumOpenInterest
  let vaultSurplus ← coreI128 bytes v3CoreVaultSurplusOffset
  let withdrawalBuffer ← coreI128 bytes v3CoreWithdrawalBufferOffset
  let config : V3RiskConfig :=
    { initialMarginBps :=
        readU16Or configured bytes v3CoreInitialMarginBpsOffset defaults.initialMarginBps
      maintenanceMarginBps :=
        readU16Or configured bytes v3CoreMaintenanceMarginBpsOffset defaults.maintenanceMarginBps
      liquidationFeeBps :=
        readU16Or configured bytes v3CoreLiquidationFeeBpsOffset defaults.liquidationFeeBps
      makerFeeBps := readU16Or configured bytes v3CoreMakerFeeBpsOffset defaults.makerFeeBps
      takerFeeBps := readU16Or configured bytes v3CoreTakerFeeBpsOffset defaults.takerFeeBps
      maximumLeverage :=
        readU32Or configured bytes v3CoreMaximumLeverageOffset defaults.maximumLeverage
      maximumPosition := maximumPosition
      maximumOpenInterest := maximumOpenInterest
      markDeviationBps :=
        if configured then
          readU16Or configured bytes v3CoreMarkDeviationBpsOffset defaults.markDeviationBps
        else defaults.markDeviationBps
      vaultSurplus := vaultSurplus
      withdrawalBuffer := withdrawalBuffer }
  let currentOpenInterest ← coreI128 bytes v3CoreCurrentOpenInterestOffset
  let protocolFeeBalance ← coreI128 bytes v3CoreProtocolFeeBalanceOffset
  let insuranceBalance ← coreI128 bytes v3CoreInsuranceBalanceOffset
  let badDebt ← coreI128 bytes v3CoreBadDebtOffset
  let vaultLiability ← coreI128 bytes v3CoreVaultLiabilityOffset
  require (config.InBounds ∧ (0 ≤ currentOpenInterest ∧ 0 ≤ protocolFeeBalance ∧
    0 ≤ insuranceBalance ∧ 0 ≤ badDebt ∧ 0 ≤ vaultLiability) ∧
    coreUnsigned bytes v3CoreReconciliationStatusOffset 1 ≤ 3) (.custom .riskViolation)
  pure config

/-- Write defaults over the configuration, zeros over the ledgers. -/
def initializeV3RiskConfig (bytes : Bytes) : Except ProgramError Bytes := do
  require (bytes.length = v3MarketCoreSize) bundleError
  let config := V3RiskConfig.defaults
  let bytes := bytes.write v3CoreInitialMarginBpsOffset (.ofNat 2 config.initialMarginBps)
  let bytes := bytes.write v3CoreMaintenanceMarginBpsOffset (.ofNat 2 config.maintenanceMarginBps)
  let bytes := bytes.write v3CoreLiquidationFeeBpsOffset (.ofNat 2 config.liquidationFeeBps)
  let bytes := bytes.write v3CoreMakerFeeBpsOffset (.ofNat 2 config.makerFeeBps)
  let bytes := bytes.write v3CoreTakerFeeBpsOffset (.ofNat 2 config.takerFeeBps)
  let bytes := bytes.write v3CoreMaximumLeverageOffset (.ofNat 4 config.maximumLeverage)
  let bytes ← setCoreI128 bytes v3CoreMaximumPositionOffset config.maximumPosition
  let bytes ← setCoreI128 bytes v3CoreMaximumOpenInterestOffset config.maximumOpenInterest
  let bytes ← setCoreI128 bytes v3CoreCurrentOpenInterestOffset 0
  let bytes := bytes.write v3CoreMarkDeviationBpsOffset (.ofNat 2 config.markDeviationBps)
  let bytes ← setCoreI128 bytes v3CoreProtocolFeeBalanceOffset 0
  let bytes ← setCoreI128 bytes v3CoreInsuranceBalanceOffset 0
  let bytes ← setCoreI128 bytes v3CoreBadDebtOffset 0
  let bytes ← setCoreI128 bytes v3CoreVaultLiabilityOffset 0
  let bytes ← setCoreI128 bytes v3CoreVaultSurplusOffset 0
  let bytes ← setCoreI128 bytes v3CoreWithdrawalBufferOffset 0
  let bytes := bytes.write v3CoreReconciliationStatusOffset (.ofNat 1 0)
  pure (bytes.write v3CoreRiskConfigVersionOffset (.ofNat 1 v3RiskConfigVersion))

/-- What an update sees of the accounts it is given: how many there are, whether the program
owns the core and may write it, and the second account's address and signature. -/
structure UpdateAccounts where
  count : ℕ
  signs : Bool
  owned : Bool
  writable : Bool
  authority : Address

def updateV3RiskConfig (accounts : UpdateAccounts) (config : V3RiskConfig) (core : Bytes) :
    Except ProgramError Bytes := do
  require (2 ≤ accounts.count ∧ accounts.signs = true) .missingRequiredSignature
  require (accounts.owned = true ∧ accounts.writable = true) bundleError
  require (core.length = v3MarketCoreSize) (.custom .invalidMarketLayout)
  let _ ← readV3RiskConfig core
  let currentOpenInterest ← coreI128 core v3CoreCurrentOpenInterestOffset
  require ((core.length = v3MarketCoreSize ∧ core.slice 0 8 = v3MarketCoreDiscriminator ∧
    core.slice 8 2 = .ofNat 2 v3LayoutVersion ∧ coreUnsigned core 10 1 = 1 ∧
    coreUnsigned core v3CoreMarketAuthorityOffset 32 = accounts.authority) ∧ config.InBounds ∧
    0 ≤ currentOpenInterest ∧ (0 < config.maximumOpenInterest →
      currentOpenInterest ≤ config.maximumOpenInterest)) (.custom .riskViolation)
  let core := core.write v3CoreInitialMarginBpsOffset (.ofNat 2 config.initialMarginBps)
  let core := core.write v3CoreMaintenanceMarginBpsOffset (.ofNat 2 config.maintenanceMarginBps)
  let core := core.write v3CoreLiquidationFeeBpsOffset (.ofNat 2 config.liquidationFeeBps)
  let core := core.write v3CoreMakerFeeBpsOffset (.ofNat 2 config.makerFeeBps)
  let core := core.write v3CoreTakerFeeBpsOffset (.ofNat 2 config.takerFeeBps)
  let core := core.write v3CoreMaximumLeverageOffset (.ofNat 4 config.maximumLeverage)
  let core ← setCoreI128 core v3CoreMaximumPositionOffset config.maximumPosition
  let core ← setCoreI128 core v3CoreMaximumOpenInterestOffset config.maximumOpenInterest
  let core := core.write v3CoreMarkDeviationBpsOffset (.ofNat 2 config.markDeviationBps)
  let core ← setCoreI128 core v3CoreVaultSurplusOffset config.vaultSurplus
  let core ← setCoreI128 core v3CoreWithdrawalBufferOffset config.withdrawalBuffer
  pure (core.write v3CoreRiskConfigVersionOffset (.ofNat 1 v3RiskConfigVersion))

/-! ## What the instructions do to the bytes -/

variable {bytes bytes' : Bytes} {offset : ℕ}

theorem coreI128_eq_ok {value : ℤ} : coreI128 bytes offset = .ok value ↔
    offset + 16 ≤ bytes.length ∧ (bytes.slice offset 16).toInt = value := by
  simp only [coreI128, ok_rules]

theorem exists_coreI128 {q : ℤ → Prop} : (∃ value, coreI128 bytes offset = .ok value ∧ q value) ↔
    offset + 16 ≤ bytes.length ∧ q (bytes.slice offset 16).toInt := by
  simp only [coreI128_eq_ok, and_assoc, exists_and_left, exists_eq_left']

theorem exists_setCoreI128 {value : ℤ} {q : Bytes → Prop} :
    (∃ written, setCoreI128 bytes offset value = .ok written ∧ q written) ↔
      offset + 16 ≤ bytes.length ∧ q (bytes.write offset (.ofInt 16 value)) := by
  simp only [setCoreI128, ok_rules, and_assoc, exists_and_left, exists_eq_left']

/-- The configuration as it is stored, before defaults take the place of zeros. -/
def stored (bytes : Bytes) : V3RiskConfig where
  initialMarginBps := coreUnsigned bytes v3CoreInitialMarginBpsOffset 2
  maintenanceMarginBps := coreUnsigned bytes v3CoreMaintenanceMarginBpsOffset 2
  liquidationFeeBps := coreUnsigned bytes v3CoreLiquidationFeeBpsOffset 2
  makerFeeBps := coreUnsigned bytes v3CoreMakerFeeBpsOffset 2
  takerFeeBps := coreUnsigned bytes v3CoreTakerFeeBpsOffset 2
  maximumLeverage := coreUnsigned bytes v3CoreMaximumLeverageOffset 4
  maximumPosition := (bytes.slice v3CoreMaximumPositionOffset 16).toInt
  maximumOpenInterest := (bytes.slice v3CoreMaximumOpenInterestOffset 16).toInt
  markDeviationBps := coreUnsigned bytes v3CoreMarkDeviationBpsOffset 2
  vaultSurplus := (bytes.slice v3CoreVaultSurplusOffset 16).toInt
  withdrawalBuffer := (bytes.slice v3CoreWithdrawalBufferOffset 16).toInt

/-- The ledgers outside the configuration that the reader requires not to be negative. -/
def ledgerOffsets : List ℕ :=
  [v3CoreCurrentOpenInterestOffset, v3CoreProtocolFeeBalanceOffset, v3CoreInsuranceBalanceOffset,
    v3CoreBadDebtOffset, v3CoreVaultLiabilityOffset]

theorem readOr_eq {width fallback : ℕ} :
    readOr width true bytes offset fallback =
      orDefault (coreUnsigned bytes offset width) fallback := by
  simp only [readOr, orDefault, true_and, ite_not]

theorem readV3RiskConfig_eq_ok {config : V3RiskConfig} :
    readV3RiskConfig bytes = .ok config ↔
      bytes.length = v3MarketCoreSize ∧
      coreUnsigned bytes v3CoreRiskConfigVersionOffset 1 = v3RiskConfigVersion ∧
      config.InBounds ∧ (∀ o ∈ ledgerOffsets, 0 ≤ (bytes.slice o 16).toInt) ∧
      coreUnsigned bytes v3CoreReconciliationStatusOffset 1 ≤ 3 ∧
      (stored bytes).effective = config := by
  by_cases hsi : bytes.length = v3MarketCoreSize
  swap
  · simp only [readV3RiskConfig, ok_rules, hsi, false_and]
  by_cases hv : coreUnsigned bytes v3CoreRiskConfigVersionOffset 1 = v3RiskConfigVersion
  swap
  · simp only [readV3RiskConfig, ok_rules, hv, false_and, and_false, exists_const]
  simp only [readV3RiskConfig, ok_rules, hsi, hv, decide_true, if_true, exists_coreI128, true_and,
    readU16Or, readU32Or, readOr_eq]
  have hr : ∀ o ∈ [v3CoreMaximumPositionOffset, v3CoreMaximumOpenInterestOffset,
      v3CoreVaultSurplusOffset, v3CoreWithdrawalBufferOffset, v3CoreCurrentOpenInterestOffset,
      v3CoreProtocolFeeBalanceOffset, v3CoreInsuranceBalanceOffset, v3CoreBadDebtOffset,
      v3CoreVaultLiabilityOffset], o + 16 ≤ v3MarketCoreSize := by decide
  simp only [forall_mem_cons, not_mem_nil, false_imp_iff, implies_true] at hr
  simp only [hr, true_and, ledgerOffsets, forall_mem_cons, not_mem_nil,
    false_imp_iff, implies_true, and_true]
  constructor
  · rintro ⟨⟨hb, hl, hs⟩, rfl⟩
    exact ⟨hb, hl, hs, rfl⟩
  · rintro ⟨hb, hl, hs, rfl⟩
    exact ⟨⟨hb, hl, hs⟩, rfl⟩

def configPatches (config : V3RiskConfig) : List Bytes.Patch :=
  [⟨v3CoreInitialMarginBpsOffset, .ofNat 2 config.initialMarginBps⟩,
    ⟨v3CoreMaintenanceMarginBpsOffset, .ofNat 2 config.maintenanceMarginBps⟩,
    ⟨v3CoreLiquidationFeeBpsOffset, .ofNat 2 config.liquidationFeeBps⟩,
    ⟨v3CoreMakerFeeBpsOffset, .ofNat 2 config.makerFeeBps⟩,
    ⟨v3CoreTakerFeeBpsOffset, .ofNat 2 config.takerFeeBps⟩,
    ⟨v3CoreMaximumLeverageOffset, .ofNat 4 config.maximumLeverage⟩,
    ⟨v3CoreMaximumPositionOffset, .ofInt 16 config.maximumPosition⟩,
    ⟨v3CoreMaximumOpenInterestOffset, .ofInt 16 config.maximumOpenInterest⟩,
    ⟨v3CoreMarkDeviationBpsOffset, .ofNat 2 config.markDeviationBps⟩,
    ⟨v3CoreVaultSurplusOffset, .ofInt 16 config.vaultSurplus⟩,
    ⟨v3CoreWithdrawalBufferOffset, .ofInt 16 config.withdrawalBuffer⟩]

def versionPatch : Bytes.Patch :=
  ⟨v3CoreRiskConfigVersionOffset, .ofNat 1 v3RiskConfigVersion⟩

/-- The header and the authority that an update checks. -/
def Headed (authority : Address) (core : Bytes) : Prop :=
  core.slice 0 8 = v3MarketCoreDiscriminator ∧ core.slice 8 2 = .ofNat 2 v3LayoutVersion ∧
    coreUnsigned core 10 1 = 1 ∧ coreUnsigned core v3CoreMarketAuthorityOffset 32 = authority

def UpdateAccounts.Usable (accounts : UpdateAccounts) : Prop :=
  2 ≤ accounts.count ∧ accounts.signs = true ∧ accounts.owned = true ∧ accounts.writable = true

theorem updateV3RiskConfig_eq_ok {accounts : UpdateAccounts} {config : V3RiskConfig} :
    updateV3RiskConfig accounts config bytes = .ok bytes' ↔
      accounts.Usable ∧ Headed accounts.authority bytes ∧
      (∃ old, readV3RiskConfig bytes = .ok old) ∧ config.InBounds ∧
      (0 < config.maximumOpenInterest →
        (bytes.slice v3CoreCurrentOpenInterestOffset 16).toInt ≤ config.maximumOpenInterest) ∧
      bytes.apply (configPatches config ++ [versionPatch]) = bytes' := by
  simp only [updateV3RiskConfig, ok_rules, exists_coreI128, exists_setCoreI128, Bytes.length_write,
    configPatches, versionPatch, cons_append, nil_append, Bytes.apply_cons, Bytes.apply_nil]
  constructor
  · rintro ⟨⟨hc, hsi⟩, ⟨ho, hw⟩, hs, old, hr, -, ⟨⟨-, hh⟩, hb, -, hro⟩, -, -, -, -, rfl⟩
    exact ⟨⟨hc, hsi, ho, hw⟩, hh, ⟨old, hr⟩, hb, hro, rfl⟩
  · rintro ⟨⟨hc, hsi, ho, hw⟩, hh, ⟨old, hr⟩, hb, hro, rfl⟩
    obtain ⟨hs, -, -, hl, -⟩ := readV3RiskConfig_eq_ok.1 hr
    have hi := hl _ (mem_cons_self ..)
    have hin : ∀ o, o + 16 ≤ v3MarketCoreSize → o + 16 ≤ bytes.length := fun o h => hs ▸ h
    exact ⟨⟨hc, hsi⟩, ⟨ho, hw⟩, hs, old, hr, hin _ (by decide),
      ⟨⟨hs, hh⟩, hb, hi, hro⟩, hin _ (by decide), hin _ (by decide),
      hin _ (by decide), hin _ (by decide), rfl⟩

end CoreBytes

end Equinox
