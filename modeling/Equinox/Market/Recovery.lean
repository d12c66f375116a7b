import Equinox.Market.Snapshots

/-! # Recovery

Two ways back to L1: the rollback of an undelegation that timed out, which keeps
the first bytes of the core only, and the reconciliation of the vault, which
restores a core that was handed back.
-/

namespace Equinox

open Foundation CritBit World MarketCore Equinox Market

variable {w w' : World} {m m' : Market} {ctx : Context} {core : MarketCore} {vault : ℕ}

/-! ## Rollback -/

/-- Nothing is stored behind the validator, except for the commit phase. -/
structure MarketCore.TailBlank (core : MarketCore) : Prop where
  oracleFeedId : core.oracleFeedId = 0
  oracleChannel : core.oracleChannel = 0
  oracleExponent : core.oracleExponent = 0
  config : core.config = (blank core.address core.instrument).config
  currentOpenInterest : core.currentOpenInterest = 0
  protocolFeeBalance : core.protocolFeeBalance = 0
  insuranceBalance : core.insuranceBalance = 0
  badDebt : core.badDebt = 0
  vaultLiability : core.vaultLiability = 0
  reconciliationStatus : core.reconciliationStatus = 0
  riskConfigVersion : core.riskConfigVersion = 0
  snapshotEpoch : core.snapshotEpoch = 0
  snapshotChildCount : core.snapshotChildCount = 0
  childRecords : core.childRecords = fun _ => .blank
  oracleSession : core.oracleSession = 0
  oracleConfidence : core.oracleConfidence = 0
  keeper : core.keeper = 0
  priceReporter : core.priceReporter = 0

theorem MarketCore.rolledBack_eq_iff : (∃ status phase, core.rolledBack =
    { core with delegationStatus := status, commitPhase := phase }) ↔ core.TailBlank := by
  constructor
  · rintro ⟨status, phase, heq⟩
    have hf {α : Type} (f : MarketCore → α) : f core.rolledBack =
        f { core with delegationStatus := status, commitPhase := phase } := by rw [heq]
    constructor
    · exact (hf oracleFeedId).symm
    · exact (hf oracleChannel).symm
    · exact (hf oracleExponent).symm
    · exact (hf config).symm
    · exact (hf currentOpenInterest).symm
    · exact (hf protocolFeeBalance).symm
    · exact (hf insuranceBalance).symm
    · exact (hf badDebt).symm
    · exact (hf vaultLiability).symm
    · exact (hf reconciliationStatus).symm
    · exact (hf riskConfigVersion).symm
    · exact (hf snapshotEpoch).symm
    · exact (hf snapshotChildCount).symm
    · exact (hf childRecords).symm
    · exact (hf oracleSession).symm
    · exact (hf oracleConfidence).symm
    · exact (hf keeper).symm
    · exact (hf priceReporter).symm
  · intro h
    refine ⟨.restored, .idle, ?_⟩
    simp only [h.oracleFeedId, h.oracleChannel, h.oracleExponent, h.config, h.currentOpenInterest,
      h.protocolFeeBalance, h.insuranceBalance, h.badDebt, h.vaultLiability,
      h.reconciliationStatus, h.riskConfigVersion, h.snapshotEpoch, h.snapshotChildCount,
      h.childRecords, h.oracleSession, h.oracleConfidence, h.keeper, h.priceReporter]
    rfl

theorem MarketCore.readV3RiskConfig_rolledBack (core : MarketCore) :
    readV3RiskConfig core.rolledBack = .error bundleError := rfl

/-- A rollback changes only the delegation status and the commit phase exactly if the core held
nothing behind its validator; its risk configuration can not be read afterwards in any case. -/
theorem rollback_keeps_iff (h : Action.rollbackV3Undelegation.Accepted w w') :
    ((∃ status phase, w'.l1.core =
      { w.l1.core with delegationStatus := status, commitPhase := phase }) ↔
        w.l1.core.TailBlank) ∧ readV3RiskConfig w'.l1.core = .error bundleError := by
  obtain rfl := Except.ok.inj h
  exact ⟨rolledBack_eq_iff, w.l1.core.readV3RiskConfig_rolledBack⟩

/-- A core that was created and never configured is kept, but for its status and phase. -/
theorem rollback_keeps_of_blank : ∃ w w' : World, w.l1.core = blank 1 2 ∧
    Action.rollbackV3Undelegation.Accepted w w' ∧ ∃ status phase, w'.l1.core =
      { w.l1.core with delegationStatus := status, commitPhase := phase } := by
  let w : World := { genesis with l1 := { genesis.l1 with core := blank 1 2 } }
  have hb : w.l1.core.TailBlank := by constructor <;> rfl
  exact ⟨w, _, rfl, rfl, (rollback_keeps_iff (w := w) rfl).1.2 hb⟩

/-- Two traders have deposited, and the market is delegated. The rollback forgets what the vault
owes them and the risk configuration. -/
theorem rollback_forgets : ∃ (w₀ w w' : World) (as : List Action), w₀.Initial ∧
    Run Action.Accepted w₀ as w ∧ Action.rollbackV3Undelegation.Accepted w w' ∧
    w.l1.core.vaultLiability = 20000 ∧ w'.l1.core.vaultLiability = 0 ∧
    readV3RiskConfig w.l1.core = .ok V3RiskConfig.defaults ∧
    readV3RiskConfig w'.l1.core = .error bundleError :=
  ⟨genesis, _, _, fundRun 10000 1000, genesis_initial,
    run_accepted (by decide +kernel), rfl, by decide +kernel, rfl, by decide +kernel, rfl⟩

/-! ## Reconciliation -/

/-- What reconciling a vault is for: the outcome of the comparison and the exact surplus are stored,
one event tells of it, and a core that was handed back is restored and idle. -/
structure Market.Reconciled (ctx : Context) (vault : ℕ) (m m' : Market) : Prop where
  status : m'.core.reconciliationStatus =
    (reconciliationStatus vault m.core.expectedVault).toByte
  surplus : m'.core.config.vaultSurplus = max (vault - m.core.expectedVault) 0
  event : m'.events = (m.appended
    (reconciliationStatus vault m.core.expectedVault).eventKind
    (.reconciliation vault m.core.expectedVault.toNat
      (reconciliationStatus vault m.core.expectedVault).toByte) ctx.now).events
  sequence : m'.core.globalEventSequence = m.core.globalEventSequence + 1
  restored : m'.core.delegationStatus =
    if m.core.isReturned = true then .restored else m.core.delegationStatus
  idle : m'.core.commitPhase = .idle
  books : m'.books = m.books
  seats : m'.seats = m.seats
  sessions : m'.sessions = m.sessions

def MarketCore.reconciled (core : MarketCore) (vault : ℕ) : MarketCore :=
  { core with
    reconciliationStatus := (Equinox.reconciliationStatus vault core.expectedVault).toByte
    config := { core.config with
      vaultSurplus :=
        if Equinox.reconciliationStatus vault core.expectedVault = .surplusDetected then
          vault - core.expectedVault else 0 }
    delegationStatus := if core.isReturned = true then .restored else core.delegationStatus
    commitPhase := if core.isReturned = true then .idle else core.commitPhase
    mode :=
      if Equinox.reconciliationStatus vault core.expectedVault = .reconciled then core.mode
      else 0 }

theorem reconciliationStatus_eq_reconciled {actual expected : ℤ} :
    reconciliationStatus actual expected = .reconciled ↔ actual = expected := by
  unfold reconciliationStatus
  split_ifs <;> simp_all

theorem surplus_eq (actual expected : ℤ) :
    (if reconciliationStatus actual expected = .surplusDetected then actual - expected else 0) =
      max (actual - expected) 0 := by
  unfold reconciliationStatus
  split_ifs <;> simp_all
  omega

theorem validateEventCore_reconciled (hin : core.initialized = true)
    (hl1 : core.isReturned = true ∨
      (core.delegationStatus.isOnL1 = true ∧ core.commitPhase = .idle)) :
    validateEventCore (core.reconciled vault) = .ok () ↔
      (vault : ℤ) = core.expectedVault ∧ core.mode = 1 := by
  have hs : (core.reconciled vault).delegationStatus ≠ .undelegating ∧
      (core.reconciled vault).commitPhase = .idle := by
    by_cases hr : core.isReturned = true
    · simp [reconciled, hr]
    · obtain ⟨hon, hi⟩ := hl1.resolve_left hr
      simp only [reconciled, if_neg hr, hi, and_true]
      intro hu
      simp [hu, DelegationStatus.isOnL1] at hon
  simp only [validateEventCore, require_eq_ok, hs.2, ne_eq, hs.1, not_false_eq_true,
    reduceCtorEq, and_true]
  by_cases heq : (vault : ℤ) = core.expectedVault
  · have he := reconciliationStatus_eq_reconciled.2 heq
    simp only [reconciled, hin, he, if_true, true_and]
    exact ⟨fun hm => ⟨heq, hm⟩, And.right⟩
  · simp [reconciled, mt reconciliationStatus_eq_reconciled.1 heq, heq]

theorem reconcileVaultV3_run (hb : validateExecutionBundleInner true m = .ok ())
    (hl1 : m.core.isReturned = true ∨
      (m.core.delegationStatus.isOnL1 = true ∧ m.core.commitPhase = .idle))
    (h0 : 0 ≤ m.core.expectedVault) (hlt : m.core.expectedVault < 2 ^ 64) :
    reconcileVaultV3 ctx vault m = .ok () m' ↔
      InI128 (m.core.vaultLiability + m.core.protocolFeeBalance) ∧
      InI128 (m.core.vaultLiability + m.core.protocolFeeBalance + m.core.insuranceBalance) ∧
      appendEventRecord (reconciliationStatus vault m.core.expectedVault).eventKind
        (.reconciliation vault m.core.expectedVault.toNat
          (reconciliationStatus vault m.core.expectedVault).toByte) ctx.now
        { m with core := m.core.reconciled vault } = .ok () m' := by
  have hr : InI128 (m.core.vaultLiability + m.core.protocolFeeBalance +
      m.core.insuranceBalance - m.core.badDebt) := by
    change InI128 m.core.expectedVault
    exact ⟨by omega, by omega⟩
  have hu : m.core.expectedVault.toNat < 2 ^ 64 := by omega
  have h0' : 0 ≤ m.core.vaultLiability + m.core.protocolFeeBalance +
    m.core.insuranceBalance - m.core.badDebt := h0
  simp only [reconcileVaultV3, run_rules, exists_checkedI128, exists_checkedU64,
    run_modifyCore_bind, hb, hl1, hr, true_and, exists_const, h0']
  constructor
  · rintro ⟨hg, ht, _, h⟩
    exact ⟨hg, ht, h⟩
  · rintro ⟨hg, ht, h⟩
    exact ⟨hg, ht, hu, h⟩

theorem Market.reconciled_of_appended (hl1 : m.core.isReturned = true ∨
      (m.core.delegationStatus.isOnL1 = true ∧ m.core.commitPhase = .idle)) :
    Reconciled ctx vault m (appended { m with core := m.core.reconciled vault }
      (reconciliationStatus vault m.core.expectedVault).eventKind
      (.reconciliation vault m.core.expectedVault.toNat
        (reconciliationStatus vault m.core.expectedVault).toByte) ctx.now) where
  status := rfl
  surplus := surplus_eq vault m.core.expectedVault
  event := rfl
  sequence := rfl
  restored := rfl
  idle := by
    change (if m.core.isReturned = true then CommitPhase.idle else m.core.commitPhase) = .idle
    split
    · rfl
    · exact (hl1.resolve_left ‹_›).2
  books := rfl
  seats := rfl
  sessions := rfl

/-- On L1, and with ledgers that a vault could cover, a reconciliation succeeds exactly if the vault
holds what it should, the market is open and no counter overflows. -/
theorem reconcileVaultV3_reconciles_iff (hbundle : validateExecutionBundleInner true m = .ok ())
    (hl1 : m.core.isReturned = true ∨
      (m.core.delegationStatus.isOnL1 = true ∧ m.core.commitPhase = .idle))
    (h0 : 0 ≤ m.core.expectedVault) (hlt : m.core.expectedVault < 2 ^ 64) (ctx : Context)
    (vault : ℕ) :
    (∃ m', reconcileVaultV3 ctx vault m = .ok () m' ∧ Reconciled ctx vault m m') ↔
      (vault : ℤ) = m.core.expectedVault ∧ m.core.mode = 1 ∧
        m.core.globalEventSequence + 1 < 2 ^ 64 ∧
        InI128 (m.core.vaultLiability + m.core.protocolFeeBalance) ∧
        InI128 (m.core.vaultLiability + m.core.protocolFeeBalance + m.core.insuranceBalance) := by
  have hi : m.core.initialized = true := by
    simp only [validateExecutionBundleInner, ok_rules] at hbundle
    exact hbundle.1.1
  simp only [reconcileVaultV3_run hbundle hl1 h0 hlt, appendEventRecord_eq_ok]
  rw [validateEventCore_reconciled hi hl1]
  constructor
  · rintro ⟨_, ⟨hg, ht, ⟨he, hm⟩, hs, -⟩, -⟩
    exact ⟨he, hm, hs, hg, ht⟩
  · rintro ⟨he, hm, hs, hg, ht⟩
    exact ⟨_, ⟨hg, ht, ⟨he, hm⟩, hs, rfl⟩, reconciled_of_appended hl1⟩

/-- All children are committed in one snapshot, and then the core. -/
def World.snapshotRun (kind : CommitKind) : List Action :=
  memberRun kind ++ [.commitV3Core (call 3 1000) (v3ChildCount + 1) kind]

/-- Two traders deposit 10 each, and the market is delegated and handed back. -/
def undelegateRun : List Action :=
  fundRun 10 1000 ++ snapshotRun .commitAndUndelegate

theorem reconcileVaultV3_reconciles_of_undelegateRun : ∃ m',
    reconcileVaultV3 (call 3 1000) 20 (genesis.after undelegateRun).live = .ok () m' ∧
    Reconciled (call 3 1000) 20
      (genesis.after undelegateRun).live m' :=
  (reconcileVaultV3_reconciles_iff (by decide +kernel) (by decide +kernel) (by decide +kernel)
    (by decide +kernel) _ _).2 (by decide +kernel)

/-- Someone sends one token to the vault of a market that was handed back. -/
def donatedRun : List Action := undelegateRun ++ [.donate 1]

/-- The vault holds more than it should, and the market can not be restored. -/
theorem reconcileVaultV3_blocked : ∃ (w₀ w : World) (as : List Action), w₀.Initial ∧
    Run Action.Accepted w₀ as w ∧ validateExecutionBundleInner true w.live = .ok () ∧
    w.live.core.isReturned = true ∧ w.live.core.expectedVault = 20 ∧ w.vault = 21 ∧
    ∀ ctx m', reconcileVaultV3 ctx w.vault w.live ≠ .ok () m' := by
  have hr : Run Action.Accepted genesis donatedRun (genesis.after donatedRun) :=
    run_accepted (by decide +kernel)
  have hv : (genesis.after donatedRun).vault = 21 := by decide +kernel
  have hex : (genesis.after donatedRun).live.core.expectedVault = 20 := by
    decide +kernel
  refine ⟨genesis, genesis.after donatedRun, donatedRun, genesis_initial, hr,
    by decide +kernel, by decide +kernel, hex, hv, fun ctx m' h => ?_⟩
  have he := (reconcileVaultV3_eq_ok h).1
  rw [hv, hex] at he
  simp at he

end Equinox
