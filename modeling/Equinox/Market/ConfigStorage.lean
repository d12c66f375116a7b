import Equinox.Market.CoreBytes
import Equinox.Market.World

/-! # Storing a risk configuration

What an accepted update leaves in the core's bytes: the eleven fields hold the new
configuration, every other byte is as before, and the reader returns the
configuration with zero fees replaced. The record model of the core follows the
bytes.
-/

namespace Equinox

open Foundation List Bytes V3RiskConfig CoreBytes

/-- The fields fit the integer types that hold them. -/
def V3RiskConfig.Typed (config : V3RiskConfig) : Prop :=
  (config.initialMarginBps < 2 ^ 16 ∧ config.maintenanceMarginBps < 2 ^ 16 ∧
    config.liquidationFeeBps < 2 ^ 16 ∧ config.makerFeeBps < 2 ^ 16 ∧
    config.takerFeeBps < 2 ^ 16 ∧ config.maximumLeverage < 2 ^ 32 ∧
    config.markDeviationBps < 2 ^ 16) ∧
  InI128 config.maximumPosition ∧ InI128 config.maximumOpenInterest ∧
  InI128 config.vaultSurplus ∧ InI128 config.withdrawalBuffer

instance (config : V3RiskConfig) : Decidable config.Typed := by
  unfold Typed; infer_instance

theorem V3RiskConfig.effective_eq_self_iff {config : V3RiskConfig} (h : config.InBounds) :
    config.effective = config ↔ config.liquidationFeeBps ≠ 0 ∧ config.takerFeeBps ≠ 0 := by
  obtain ⟨initial, maintenance, liquidation, maker, taker, leverage, position, interest, mark,
    surplus, buffer⟩ := config
  obtain ⟨hi, hm, -, hle, -⟩ := h
  simp only [effective, defaults, orDefault, mk.injEq]
  simp only [hi, hm, hle, if_false, true_and, and_true]
  constructor
  · rintro ⟨hl, -, ht, -⟩
    constructor <;> rintro rfl <;> simp at hl ht
  · rintro ⟨hl, ht⟩
    simp only [hl, ht, if_false, true_and]
    constructor <;> split <;> omega

namespace CoreBytes

variable {bytes bytes' : Bytes}

/-! ## What was written reads back -/

/-- The bytes of the eleven fields of a configuration. -/
def configRegions : List Region :=
  [⟨v3CoreInitialMarginBpsOffset, 2⟩, ⟨v3CoreMaintenanceMarginBpsOffset, 2⟩,
    ⟨v3CoreLiquidationFeeBpsOffset, 2⟩, ⟨v3CoreMakerFeeBpsOffset, 2⟩,
    ⟨v3CoreTakerFeeBpsOffset, 2⟩, ⟨v3CoreMaximumLeverageOffset, 4⟩,
    ⟨v3CoreMaximumPositionOffset, 16⟩, ⟨v3CoreMaximumOpenInterestOffset, 16⟩,
    ⟨v3CoreMarkDeviationBpsOffset, 2⟩, ⟨v3CoreVaultSurplusOffset, 16⟩,
    ⟨v3CoreWithdrawalBufferOffset, 16⟩]

def versionRegion : Region := ⟨v3CoreRiskConfigVersionOffset, 1⟩

theorem region_patches (config : V3RiskConfig) :
    (configPatches config ++ [versionPatch]).map Patch.region =
      configRegions ++ [versionRegion] := by
  simp only [configPatches, versionPatch, configRegions, versionRegion, Patch.region,
    cons_append, nil_append, map_cons, map_nil, length_ofNat, length_ofInt]

theorem stored_eq_of_slices {config : V3RiskConfig} (ht : config.Typed)
    (hr : ∀ p ∈ configPatches config, bytes.slice p.offset p.data.length = p.data) :
    stored bytes = config := by
  obtain ⟨⟨hin, hm, hli, hma, hta, hl, hmark⟩, hp, hint, hs, hb⟩ := ht
  have hi : ∀ x : ℤ, InI128 x → (ofInt 16 x).toInt = x :=
    fun x hx => toInt_ofInt (by have := hx.1; norm_num; omega) (by have := hx.2; norm_num; omega)
  have hu : ∀ x, x < 2 ^ 16 → (ofNat 2 x).toNat = x :=
    fun x hx => toNat_ofNat_of_lt hx
  have hu32 : ∀ x, x < 2 ^ 32 → (ofNat 4 x).toNat = x :=
    fun x hx => toNat_ofNat_of_lt hx
  simp only [configPatches, forall_mem_cons, length_ofNat, length_ofInt] at hr
  obtain ⟨h₁, h₂, h₃, h₄, h₅, h₆, h₇, h₈, h₉, h₁₀, h₁₁, -⟩ := hr
  simp only [stored, coreUnsigned, h₁, h₂, h₃, h₄, h₅, h₆, h₇, h₈, h₉, h₁₀, h₁₁,
    hi _ hp, hi _ hint, hi _ hs, hi _ hb]
  simp only [hu _ hin, hu _ hm, hu _ hli, hu _ hma, hu _ hta, hu _ hmark, hu32 _ hl]

section Written

variable {config : V3RiskConfig} (hsize : bytes.length = v3MarketCoreSize)

include hsize

theorem patches_within : ∀ r ∈ (configPatches config ++ [versionPatch]).map Patch.region,
    r.Within bytes.length := by
  rw [region_patches, hsize]
  decide

theorem slice_patched (offset width : ℕ)
    (h : ∀ r ∈ configRegions ++ [versionRegion], r.Apart ⟨offset, width⟩) :
    (bytes.apply (configPatches config ++ [versionPatch])).slice offset width =
      bytes.slice offset width :=
  slice_apply_of_apart (patches_within hsize) (by rwa [region_patches])

theorem slice_patch : ∀ p ∈ configPatches config ++ [versionPatch],
    (bytes.apply (configPatches config ++ [versionPatch])).slice p.offset p.data.length =
      p.data := by
  intro p hp
  refine slice_apply_of_mem (patches_within hsize) ?_ hp
  rw [region_patches]
  decide

theorem stored_patched (ht : config.Typed) :
    stored (bytes.apply (configPatches config ++ [versionPatch])) = config :=
  stored_eq_of_slices ht fun p hp => slice_patch hsize p (mem_append_left _ hp)

theorem version_patched :
    (bytes.apply (configPatches config ++ [versionPatch])).slice v3CoreRiskConfigVersionOffset 1 =
      .ofNat 1 v3RiskConfigVersion :=
  slice_patch hsize versionPatch (mem_append_right _ (mem_singleton_self _))

end Written

variable {accounts : UpdateAccounts} {config : V3RiskConfig}

theorem readV3RiskConfig_updated (ht : config.Typed)
    (h : updateV3RiskConfig accounts config bytes = .ok bytes') :
    readV3RiskConfig bytes' = .ok config.effective := by
  obtain ⟨-, -, ⟨old, hr⟩, hb, -, rfl⟩ := updateV3RiskConfig_eq_ok.1 h
  obtain ⟨hsize, -, -, hl, hs, -⟩ := readV3RiskConfig_eq_ok.1 hr
  refine readV3RiskConfig_eq_ok.2 ⟨length_apply.trans hsize, ?_, hb.effective, ?_, ?_,
    by rw [stored_patched hsize ht]⟩
  · rw [coreUnsigned, version_patched hsize]
    decide
  · have ha : ∀ o ∈ ledgerOffsets, ∀ r ∈ configRegions ++ [versionRegion],
        r.Apart ⟨o, 16⟩ := by decide
    intro o ho
    rw [slice_patched hsize o 16 (ha o ho)]
    exact hl o ho
  · rw [coreUnsigned, slice_patched hsize _ 1 (by decide)]
    exact hs

/-- Outside the eleven fields nothing changes: the version byte is rewritten with the value that
the update has read there. -/
theorem getElem?_updated (h : updateV3RiskConfig accounts config bytes = .ok bytes') (i : ℕ)
    (hi : ∀ r ∈ configRegions, r.Apart ⟨i, 1⟩) : bytes'[i]? = bytes[i]? := by
  obtain ⟨-, -, ⟨old, hre⟩, -, -, rfl⟩ := updateV3RiskConfig_eq_ok.1 h
  obtain ⟨hsize, hv, -⟩ := readV3RiskConfig_eq_ok.1 hre
  apply getElem?_eq_of_slice
  by_cases hat : i = v3CoreRiskConfigVersionOffset
  · subst hat
    have hl : (bytes.slice v3CoreRiskConfigVersionOffset 1).length = 1 :=
      length_slice (by rw [hsize]; decide)
    have hold := ofNat_toNat (bytes.slice v3CoreRiskConfigVersionOffset 1)
    rw [hl] at hold
    rw [version_patched hsize, ← hold]
    exact congrArg _ hv.symm
  · refine slice_patched hsize i 1 fun r hr => ?_
    rcases mem_append.1 hr with hr | hr
    · exact hi r hr
    · rw [mem_singleton.1 hr]
      simp only [versionRegion, Region.Apart]
      omega

/-- An accepted configuration reads back as it was given, with no other byte changed, exactly if
neither its liquidation fee nor its taker fee is zero. -/
theorem riskConfig_reads_back_iff (ht : config.Typed)
    (h : updateV3RiskConfig accounts config bytes = .ok bytes') :
    ((readV3RiskConfig bytes' = .ok config ∧ bytes'.length = bytes.length ∧
        ∀ i, (∀ r ∈ configRegions, r.Apart ⟨i, 1⟩) → bytes'[i]? = bytes[i]?) ↔
      config.liquidationFeeBps ≠ 0 ∧ config.takerFeeBps ≠ 0) ∧
    readV3RiskConfig bytes' = .ok config.effective := by
  have hr := readV3RiskConfig_updated ht h
  have hl : bytes'.length = bytes.length := by
    obtain ⟨-, -, -, -, -, rfl⟩ := updateV3RiskConfig_eq_ok.1 h
    exact length_apply
  have hb := (updateV3RiskConfig_eq_ok.1 h).2.2.2.1
  rw [← effective_eq_self_iff hb]
  refine ⟨⟨?_, fun heq => ⟨hr.trans (congrArg _ heq), hl, getElem?_updated h⟩⟩, hr⟩
  rintro ⟨hs, -, -⟩
  exact Except.ok.inj (hr.symm.trans hs)

/-! ## Freshly initialized cores -/

/-- The writes of an initialization, in their order. -/
def initialPatches : List Patch :=
  [⟨v3CoreInitialMarginBpsOffset, .ofNat 2 defaults.initialMarginBps⟩,
    ⟨v3CoreMaintenanceMarginBpsOffset, .ofNat 2 defaults.maintenanceMarginBps⟩,
    ⟨v3CoreLiquidationFeeBpsOffset, .ofNat 2 defaults.liquidationFeeBps⟩,
    ⟨v3CoreMakerFeeBpsOffset, .ofNat 2 defaults.makerFeeBps⟩,
    ⟨v3CoreTakerFeeBpsOffset, .ofNat 2 defaults.takerFeeBps⟩,
    ⟨v3CoreMaximumLeverageOffset, .ofNat 4 defaults.maximumLeverage⟩,
    ⟨v3CoreMaximumPositionOffset, .ofInt 16 defaults.maximumPosition⟩,
    ⟨v3CoreMaximumOpenInterestOffset, .ofInt 16 defaults.maximumOpenInterest⟩,
    ⟨v3CoreCurrentOpenInterestOffset, .ofInt 16 0⟩,
    ⟨v3CoreMarkDeviationBpsOffset, .ofNat 2 defaults.markDeviationBps⟩,
    ⟨v3CoreProtocolFeeBalanceOffset, .ofInt 16 0⟩,
    ⟨v3CoreInsuranceBalanceOffset, .ofInt 16 0⟩,
    ⟨v3CoreBadDebtOffset, .ofInt 16 0⟩,
    ⟨v3CoreVaultLiabilityOffset, .ofInt 16 0⟩,
    ⟨v3CoreVaultSurplusOffset, .ofInt 16 0⟩,
    ⟨v3CoreWithdrawalBufferOffset, .ofInt 16 0⟩,
    ⟨v3CoreReconciliationStatusOffset, .ofNat 1 0⟩,
    ⟨v3CoreRiskConfigVersionOffset, .ofNat 1 v3RiskConfigVersion⟩]

theorem initializeV3RiskConfig_eq_ok : initializeV3RiskConfig bytes = .ok bytes' ↔
    bytes.length = v3MarketCoreSize ∧ bytes.apply initialPatches = bytes' := by
  simp only [initializeV3RiskConfig, ok_rules, exists_setCoreI128, length_write,
    initialPatches, apply_cons, apply_nil]
  constructor
  · rintro ⟨hsize, -, -, -, -, -, -, -, -, -, rfl⟩
    exact ⟨hsize, rfl⟩
  · rintro ⟨hsize, rfl⟩
    have hin : ∀ o, o + 16 ≤ v3MarketCoreSize → o + 16 ≤ bytes.length := fun o h => hsize ▸ h
    exact ⟨hsize, hin _ (by decide), hin _ (by decide), hin _ (by decide), hin _ (by decide),
      hin _ (by decide), hin _ (by decide), hin _ (by decide), hin _ (by decide),
      hin _ (by decide), rfl⟩

section

variable (h : initializeV3RiskConfig bytes = .ok bytes')

include h

theorem slice_initialized :
    (∀ p ∈ initialPatches, bytes'.slice p.offset p.data.length = p.data) ∧
      ∀ offset width, offset + width ≤ v3CoreMaximumPositionOffset →
        bytes'.slice offset width = bytes.slice offset width := by
  obtain ⟨hsize, rfl⟩ := initializeV3RiskConfig_eq_ok.1 h
  have hin : ∀ r ∈ initialPatches.map Patch.region, r.Within bytes.length := by
    rw [hsize]
    decide
  have hl : ∀ r ∈ initialPatches.map Patch.region,
      v3CoreMaximumPositionOffset ≤ r.offset := by decide
  refine ⟨fun p hp => slice_apply_of_mem hin (by decide) hp, fun offset width hle => ?_⟩
  exact slice_apply_of_apart hin fun r hr => .inr (hle.trans (hl r hr))

/-- An initialized core reads as the defaults, with nothing owed. -/
theorem readV3RiskConfig_initialized :
    readV3RiskConfig bytes' = .ok defaults ∧
      (bytes'.slice v3CoreCurrentOpenInterestOffset 16).toInt = 0 := by
  obtain ⟨hw, -⟩ := slice_initialized h
  have hsize : bytes'.length = v3MarketCoreSize := by
    obtain ⟨hsize, rfl⟩ := initializeV3RiskConfig_eq_ok.1 h
    exact length_apply.trans hsize
  have hsto : stored bytes' = defaults := stored_eq_of_slices (by decide) fun p hp =>
      hw p ((by decide : ∀ p ∈ configPatches defaults, p ∈ initialPatches) p hp)
  have hz : ∀ o ∈ ledgerOffsets, (bytes'.slice o 16).toInt = 0 := by
    intro o ho
    have hmem : ∀ o ∈ ledgerOffsets, (⟨o, .ofInt 16 0⟩ : Patch) ∈ initialPatches := by
      decide
    have hs : bytes'.slice o 16 = .ofInt 16 0 := hw _ (hmem o ho)
    rw [hs]
    decide
  have hst : bytes'.slice v3CoreReconciliationStatusOffset 1 = .ofNat 1 0 :=
    hw ⟨v3CoreReconciliationStatusOffset, .ofNat 1 0⟩ (by decide)
  have hv : bytes'.slice v3CoreRiskConfigVersionOffset 1 = .ofNat 1 v3RiskConfigVersion :=
    hw ⟨v3CoreRiskConfigVersionOffset, .ofNat 1 v3RiskConfigVersion⟩ (by decide)
  refine ⟨readV3RiskConfig_eq_ok.2 ⟨hsize, ?_, by decide, fun o ho => (hz o ho).ge, ?_, ?_⟩,
    hz _ (mem_cons_self ..)⟩
  · rw [coreUnsigned, hv]
    decide
  · rw [coreUnsigned, hst]
    decide
  · rw [hsto]
    decide

theorem initialized_accepts (hu : accounts.Usable) (hh : Headed accounts.authority bytes)
    (hb : config.InBounds) : ∃ core, updateV3RiskConfig accounts config bytes' = .ok core := by
  obtain ⟨hr, hz⟩ := readV3RiskConfig_initialized h
  have hl := (slice_initialized h).2
  refine ⟨_, updateV3RiskConfig_eq_ok.2 ⟨hu, ?_, ⟨_, hr⟩, hb, fun hpos => ?_, rfl⟩⟩
  · rw [Headed, coreUnsigned, coreUnsigned, hl 0 8 (by decide), hl 8 2 (by decide),
      hl 10 1 (by decide), hl _ 32 (by decide)]
    exact hh
  · rw [hz]
    exact hpos.le

end

def createdCore : Bytes :=
  apply (replicate v3MarketCoreSize 0)
    [⟨0, v3MarketCoreDiscriminator⟩, ⟨8, .ofNat 2 v3LayoutVersion⟩, ⟨10, [1]⟩,
      ⟨v3CoreMarketAuthorityOffset, .ofNat 32 3⟩]

def governance : UpdateAccounts where
  count := 2
  signs := true
  owned := true
  writable := true
  authority := 3

def withFees (liquidation taker : ℕ) : V3RiskConfig :=
  { defaults with liquidationFeeBps := liquidation, takerFeeBps := taker }

theorem createdCore_accepts (hb : config.InBounds) :
    ∃ core, initializeV3RiskConfig createdCore = .ok core ∧
      ∃ core', updateV3RiskConfig governance config core = .ok core' := by
  have hi : initializeV3RiskConfig createdCore = .ok (createdCore.apply initialPatches) :=
    initializeV3RiskConfig_eq_ok.2 ⟨length_apply.trans (length_replicate ..), rfl⟩
  have hh : Headed governance.authority createdCore := by
    unfold Headed
    decide +kernel
  exact ⟨_, hi, initialized_accepts hi ⟨le_rfl, rfl, rfl, rfl⟩ hh hb⟩

theorem riskConfig_reads_back_of_fees :
    ∃ core core', initializeV3RiskConfig createdCore = .ok core ∧
      updateV3RiskConfig governance (withFees 40 7) core = .ok core' ∧
      readV3RiskConfig core' = .ok (withFees 40 7) := by
  obtain ⟨core, hi, core', hu⟩ := @createdCore_accepts (withFees 40 7) (by decide)
  have hb := (riskConfig_reads_back_iff (by decide) hu).1.2 ⟨by decide, by decide⟩
  exact ⟨core, core', hi, hu, hb.1⟩

/-- A taker fee of zero is accepted and reads back as the default. -/
theorem riskConfig_zero_fee_reads_default :
    ∃ core core', initializeV3RiskConfig createdCore = .ok core ∧
      updateV3RiskConfig governance (withFees 50 0) core = .ok core' ∧
      readV3RiskConfig core' = .ok (withFees 50 5) := by
  obtain ⟨core, hi, core', hu⟩ := @createdCore_accepts (withFees 50 0) (by decide)
  have hr := readV3RiskConfig_updated (by decide) hu
  exact ⟨core, core', hi, hu, hr⟩

/-! ## The record model -/

/-- The bytes of a core that the record stands for, as far as the configuration goes. -/
structure Represents (bytes : Bytes) (core : MarketCore) : Prop where
  size : bytes.length = v3MarketCoreSize
  discriminator : bytes.slice 0 8 = v3MarketCoreDiscriminator
  layoutVersion : bytes.slice 8 2 = .ofNat 2 v3LayoutVersion
  initialized : coreUnsigned bytes 10 1 = 1 ↔ core.initialized = true
  authority : coreUnsigned bytes v3CoreMarketAuthorityOffset 32 = core.marketAuthority
  config : stored bytes = core.config
  ledgers : ledgerOffsets.map (fun o => (bytes.slice o 16).toInt) =
    [core.currentOpenInterest, core.protocolFeeBalance, core.insuranceBalance, core.badDebt,
      core.vaultLiability]
  status : coreUnsigned bytes v3CoreReconciliationStatusOffset 1 = core.reconciliationStatus
  version : coreUnsigned bytes v3CoreRiskConfigVersionOffset 1 = core.riskConfigVersion

namespace Represents

variable {core : MarketCore} {m m' : Market} {ctx : Context}

theorem ledgersNonneg_iff (hr : Represents bytes core) :
    (∀ o ∈ ledgerOffsets, 0 ≤ (bytes.slice o 16).toInt) ↔ core.LedgersNonneg := by
  rw [← forall_mem_map (P := fun x => 0 ≤ x), hr.ledgers]
  simp only [forall_mem_cons, not_mem_nil, false_imp_iff, implies_true, and_true,
    MarketCore.LedgersNonneg]

theorem readV3RiskConfig_iff (hr : Represents bytes core) :
    readV3RiskConfig bytes = .ok config ↔ Equinox.readV3RiskConfig core = .ok config := by
  rw [readV3RiskConfig_eq_ok, Equinox.readV3RiskConfig_eq_ok, hr.ledgersNonneg_iff,
    hr.status, hr.version, hr.config]
  simp only [hr.size, true_and]

theorem updated (hr : Represents bytes core) (ht : config.Typed)
    (h : updateV3RiskConfig accounts config bytes = .ok bytes') :
    Represents bytes' { core with config := config, riskConfigVersion := v3RiskConfigVersion } := by
  obtain ⟨-, -, -, -, -, rfl⟩ := updateV3RiskConfig_eq_ok.1 h
  have hk := @slice_patched bytes config hr.size
  have ha : ∀ o ∈ ledgerOffsets, ∀ r ∈ configRegions ++ [versionRegion],
      r.Apart ⟨o, 16⟩ := by decide
  exact {
    size := length_apply.trans hr.size
    discriminator := (hk 0 8 (by decide)).trans hr.discriminator
    layoutVersion := (hk 8 2 (by decide)).trans hr.layoutVersion
    initialized := by
      rw [coreUnsigned, hk 10 1 (by decide)]
      exact hr.initialized
    authority := by
      rw [coreUnsigned, hk _ 32 (by decide)]
      exact hr.authority
    config := stored_patched hr.size ht
    ledgers := by
      rw [← hr.ledgers]
      refine map_congr_left fun o ho => ?_
      rw [hk o 16 (ha o ho)]
    status := by
      rw [coreUnsigned, hk _ 1 (by decide)]
      exact hr.status
    version := by
      rw [coreUnsigned, version_patched hr.size]
      rfl }

theorem updateV3RiskConfig_iff (hr : Represents bytes m.core) (hu : accounts.Usable)
    (hs : accounts.authority = ctx.signer) :
    (∃ bytes', updateV3RiskConfig accounts config bytes = .ok bytes') ↔
      Equinox.updateV3RiskConfig ctx config m = .ok () { m with
        core := { m.core with config := config, riskConfigVersion := v3RiskConfigVersion } } := by
  have hin : (bytes.slice v3CoreCurrentOpenInterestOffset 16).toInt =
      m.core.currentOpenInterest := (cons.inj hr.ledgers).1
  simp only [updateV3RiskConfig_eq_ok, Equinox.updateV3RiskConfig, run_rules,
    run_modifyCore, hr.readV3RiskConfig_iff, Headed, hr.discriminator, hr.layoutVersion,
    hr.initialized, hr.authority, hin, hs]
  constructor
  · rintro ⟨-, -, ⟨-, -, hi, ha⟩, ⟨old, hre⟩, hb, hro, -⟩
    have hl := (Equinox.readV3RiskConfig_eq_ok.1 hre).2.2.1
    exact ⟨old, hre, ⟨hi, ha, hb, hl.1, hro⟩, trivial⟩
  · rintro ⟨old, hre, ⟨hi, ha, hb, -, hro⟩, -⟩
    exact ⟨_, hu, ⟨trivial, trivial, hi, ha⟩, ⟨old, hre⟩, hb, hro, rfl⟩

/-- The update of the bytes is the update of the record, which they still represent. -/
theorem simulates (hr : Represents bytes m.core) (ht : config.Typed) (hu : accounts.Usable)
    (hs : accounts.authority = ctx.signer)
    (h : updateV3RiskConfig accounts config bytes = .ok bytes') :
    ∃ m', Equinox.updateV3RiskConfig ctx config m = .ok () m' ∧ Represents bytes' m'.core :=
  ⟨_, (hr.updateV3RiskConfig_iff hu hs).1 ⟨_, h⟩, hr.updated ht h⟩

theorem simulates_genesis : ∃ bytes m', Equinox.updateV3RiskConfig (World.call 3 1) (withFees 40 7)
    World.genesis.live = .ok () m' ∧ Represents bytes m'.core := by
  obtain ⟨_, hi, bytes, h⟩ := @createdCore_accepts (withFees 40 7) (by decide)
  obtain ⟨-, rfl⟩ := initializeV3RiskConfig_eq_ok.1 hi
  have hr : Represents (createdCore.apply initialPatches) World.genesis.live.core := by
    constructor <;> decide +kernel
  exact ⟨bytes, hr.simulates (by decide) ⟨le_rfl, rfl, rfl, rfl⟩ rfl h⟩

end Represents

end CoreBytes

end Equinox
