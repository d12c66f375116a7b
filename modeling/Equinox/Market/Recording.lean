import Equinox.Market.World

/-! # Steps that record themselves

A price update and an undelegating commit write the mode or the delegation status
first and append their event afterwards. The append validates what was just
written: a close-only mode and an undelegating status both stop it, and with it
the whole instruction.
-/

namespace Equinox

open Foundation World

variable {ctx : Context} {m m' : Market} {u : Unit} {verified : VerifiedOracle}

theorem validateEventCore_eq_ok {core : MarketCore} : validateEventCore core = .ok u ↔
    core.initialized = true ∧ core.mode = 1 ∧ core.delegationStatus ≠ .undelegating ∧
      core.commitPhase ≠ .undelegating := require_eq_ok

/-! ## Price updates -/

/-- The checks of a price update up to its first event. -/
structure VerifiedOracle.Passes (verified : VerifiedOracle) (ctx : Context) (core : MarketCore) :
    Prop where
  envelope : verified.feedUpdateTimestampUs ≤ verified.envelopeTimestampUs
  core : core.initialized = true ∧ core.riskConfigVersion = v3RiskConfigVersion ∧
    core.oracleFeedId = verified.feedId ∧ core.oracleChannel = verified.channel ∧
    verified.exponent = core.oracleExponent ∧ 0 < verified.price.val ∧ 0 ≤ verified.confidence ∧
    verified.confidence.toNat ≤ verified.price.val.natAbs / 5 ∧
    verified.feedUpdateTimestampUs / 1000000 ≤ ctx.now + 2 ∧
    ctx.now ≤ verified.feedUpdateTimestampUs / 1000000 + 10 ∧
    core.oracleTimestamp < verified.feedUpdateTimestampUs / 1000000
  session : verified.session ≤ 4

/-- The core with a verified price and the mode of its session. -/
def MarketCore.priced (core : MarketCore) (verified : VerifiedOracle) (mode : ℕ) : MarketCore :=
  { core with
    oraclePrice := verified.price
    oracleTimestamp := verified.feedUpdateTimestampUs / 1000000
    oracleValid := true
    oracleSession := verified.session
    oracleConfidence := verified.confidence.toNat
    mode := mode }

theorem sessionMode_of_le {session : ℕ} (h : session ≤ 4) :
    sessionMode session = some (if session ≤ 3 then 1 else 2) := by
  unfold sessionMode
  split_ifs with h₁ h₂
  · rfl
  · rfl
  · omega

/-- The events of a price update: the price, and the session if it changes the mode. -/
def VerifiedOracle.events (verified : VerifiedOracle) (changed : Bool) :
    List (EventKind × EventPayload) :=
  let payload := EventPayload.oracle verified.price.val verified.exponent
    verified.confidence.toNat verified.session
  if changed then [(.oracleUpdated, payload), (.marketSessionChanged, payload)]
  else [(.oracleUpdated, payload)]

/-- Records are appended if and only if the core may take events and its sequence has room. -/
theorem exists_appendEventRecords {record : EventKind × EventPayload}
    {records : List (EventKind × EventPayload)} {t : ℕ} :
    (∃ m', appendEventRecords (record :: records) t m = .ok () m') ↔
      validateEventCore m.core = .ok () ∧
        m.core.globalEventSequence + (record :: records).length < 2 ^ 64 := by
  induction records generalizing m record with
  | nil =>
    constructor
    · rintro ⟨m', h⟩
      obtain ⟨m₁, h₁, -⟩ := run_forM_cons.1 h
      obtain ⟨hv, hr, -⟩ := appendEventRecord_eq_ok.1 h₁
      exact ⟨hv, hr⟩
    · rintro ⟨hv, hr⟩
      exact ⟨_, run_forM_cons.2 ⟨_, appendEventRecord_eq_ok.2 ⟨hv, hr, rfl⟩, rfl⟩⟩
  | cons next records ih =>
    constructor
    · rintro ⟨m', h⟩
      obtain ⟨m₁, h₁, h⟩ := run_forM_cons.1 h
      obtain ⟨hv, -, rfl⟩ := appendEventRecord_eq_ok.1 h₁
      obtain ⟨-, hr⟩ := ih.1 ⟨m', h⟩
      refine ⟨hv, ?_⟩
      simp only [Market.appended, List.length_cons] at hr ⊢
      omega
    · rintro ⟨hv, hr⟩
      simp only [List.length_cons] at hr
      have hre : (m.appended record.1 record.2 t).core.globalEventSequence +
          (next :: records).length < 2 ^ 64 := by
        simp only [Market.appended, List.length_cons]
        omega
      have hn : ∃ m', appendEventRecords (next :: records) t
          (m.appended record.1 record.2 t) = .ok () m' := ih.2 ⟨hv, hre⟩
      obtain ⟨m', h⟩ := hn
      exact ⟨m', run_forM_cons.2 ⟨_, appendEventRecord_eq_ok.2 ⟨hv, by omega, rfl⟩, h⟩⟩

theorem consumeOracleUpdateV3_iff (h : verified.Passes ctx m.core) :
    consumeOracleUpdateV3 ctx verified m = .ok () m' ↔
      appendEventRecords
        (verified.events (m.core.mode ≠ if verified.session ≤ 3 then 1 else 2))
        (verified.feedUpdateTimestampUs / 1000000)
        { m with core := m.core.priced verified (if verified.session ≤ 3 then 1 else 2) } =
          .ok () m' := by
  simp only [consumeOracleUpdateV3, run_rules, run_modifyCore_bind, okOr_eq_ok,
    sessionMode_of_le h.session, Option.some.injEq, exists_eq_left', and_iff_right h.envelope,
    and_iff_right h.core]
  generalize (if verified.session ≤ 3 then 1 else 2) = mode
  by_cases hm : m.core.mode = mode
  · rw [if_neg (not_not.2 hm), decide_eq_false (not_not.2 hm)]
    rfl
  · rw [if_pos hm, decide_eq_true hm, run_bind_eq_ok]
    refine Iff.trans ?_ run_forM_cons.symm
    constructor
    · rintro ⟨⟨⟩, m₁, h₁, h₂⟩
      exact ⟨m₁, h₁, run_forM_cons.2 ⟨m', h₂, rfl⟩⟩
    · rintro ⟨m₁, h₁, h₂⟩
      obtain ⟨m₂, hs, he⟩ := run_forM_cons.1 h₂
      obtain ⟨-, rfl⟩ := run_pure_eq_ok.1 he
      exact ⟨(), m₁, h₁, hs⟩

theorem VerifiedOracle.events_cons (verified : VerifiedOracle) (changed : Bool) :
    ∃ record records, verified.events changed = record :: records ∧
      (record :: records).length = if changed then 2 else 1 := by
  cases changed <;> exact ⟨_, _, rfl, rfl⟩

/-- A price update that passes its checks gets through if and only if its session is an open one,
the market is not being undelegated, and the event sequence has room. -/
theorem consumeOracleUpdateV3_records_iff (h : verified.Passes ctx m.core) :
    (∃ m', consumeOracleUpdateV3 ctx verified m = .ok () m') ↔
      verified.session ≤ 3 ∧ m.core.delegationStatus ≠ .undelegating ∧
        m.core.commitPhase ≠ .undelegating ∧
        m.core.globalEventSequence + (if m.core.mode = 1 then 1 else 2) < 2 ^ 64 := by
  obtain ⟨record, records, he, hl⟩ :=
    verified.events_cons (m.core.mode ≠ if verified.session ≤ 3 then 1 else 2)
  simp only [consumeOracleUpdateV3_iff h, he, exists_appendEventRecords,
    validateEventCore_eq_ok, hl]
  by_cases hs : verified.session ≤ 3
  · simp only [MarketCore.priced, h.core.1, hs, if_true, true_and, decide_eq_true_eq,
      and_assoc, ite_not]
  · simp [MarketCore.priced, hs]

theorem priced_of_consumeOracleUpdateV3 (hp : verified.Passes ctx m.core)
    (h : consumeOracleUpdateV3 ctx verified m = .ok () m') :
    m'.core.oraclePrice = verified.price ∧
      m'.core.mode = if verified.session ≤ 3 then 1 else 2 := by
  obtain ⟨⟨sequence, hc⟩, -⟩ := logged_of_appendEventRecords ((consumeOracleUpdateV3_iff hp).1 h)
  rw [hc]
  exact ⟨rfl, rfl⟩

/-! ## Undelegating commits -/

theorem commitV3Bundle_undelegate_ne_ok {sequence : ℕ} {digests : ℕ → ℕ} :
    commitV3Bundle ctx sequence .commitAndUndelegate digests m ≠ .ok u m' := by
  intro h
  simp only [commitV3Bundle, run_rules, run_modifyCore_bind] at h
  obtain ⟨-, ⟨⟩, -, -, h⟩ := h
  obtain ⟨⟨⟩, m₁, he, -⟩ := run_bind_eq_ok.1 h
  obtain ⟨hv, -⟩ := appendEventRecord_eq_ok.1 he
  obtain ⟨-, -, hs, -⟩ := validateEventCore_eq_ok.1 hv
  exact hs rfl

/-! ## Both -/

/-- The instructions that write what the validation of their own event reads. -/
inductive LifecycleStep where
  | priceUpdate (ctx : Context) (verified : VerifiedOracle)
  | undelegatingCommit (ctx : Context) (sequence : ℕ) (digests : ℕ → ℕ)

namespace LifecycleStep

def run : LifecycleStep → MarketM Unit
  | priceUpdate ctx verified => consumeOracleUpdateV3 ctx verified
  | undelegatingCommit ctx sequence digests =>
    commitV3Bundle ctx sequence .commitAndUndelegate digests

def Passes : LifecycleStep → Market → Prop
  | priceUpdate ctx verified, m => verified.Passes ctx m.core
  | undelegatingCommit ctx sequence _, m => sequence ≠ 0 ∧ validateExecutionBundle m = .ok () ∧
    m.core.marketAuthority = ctx.signer ∧ m.core.delegationStatus = .delegated ∧
    m.core.expectedCommitSequence = sequence

def Leaves : LifecycleStep → Market → Prop
  | priceUpdate _ verified, m' => m'.core.oraclePrice = verified.price ∧
    m'.core.mode = if verified.session ≤ 3 then 1 else 2
  | undelegatingCommit _ _ _, m' =>
    m'.core.delegationStatus = .undelegating ∧ m'.core.commitPhase = .undelegating

/-- The states whose next event a step does not stop itself. -/
def Recordable : LifecycleStep → Market → Prop
  | priceUpdate _ verified, m => verified.session ≤ 3 ∧
    m.core.delegationStatus ≠ .undelegating ∧ m.core.commitPhase ≠ .undelegating ∧
    m.core.globalEventSequence + (if m.core.mode = 1 then 1 else 2) < 2 ^ 64
  | undelegatingCommit _ _ _, _ => False

/-- A step that passes its checks records itself and leaves what it is to leave if and only if it is
an update of an open session, in a market that is not being undelegated and whose event sequence has
room. -/
theorem records_itself_iff (step : LifecycleStep) (m : Market) (h : step.Passes m) :
    (∃ m', step.run m = .ok () m' ∧ step.Leaves m') ↔ step.Recordable m := by
  cases step with
  | priceUpdate ctx verified =>
    refine Iff.trans ?_ (consumeOracleUpdateV3_records_iff h)
    exact ⟨fun ⟨m', hr, _⟩ => ⟨m', hr⟩,
      fun ⟨m', hr⟩ => ⟨m', hr, priced_of_consumeOracleUpdateV3 h hr⟩⟩
  | undelegatingCommit ctx sequence digests =>
    exact ⟨fun ⟨_, hr, _⟩ => commitV3Bundle_undelegate_ne_ok hr, False.elim⟩

/-- A verified price of one thousand in a session of the listed market. -/
def pricedIn (session : ℕ) : LifecycleStep :=
  .priceUpdate (call 5 1000)
    { feedId := 4, channel := 1, exponent := 0, price := 1000, confidence := 0
      session, envelopeTimestampUs := 1000000, feedUpdateTimestampUs := 1000000 }

theorem records_itself_of_open : ∃ m', (pricedIn 0).run genesis.live = .ok () m' ∧
    (pricedIn 0).Leaves m' :=
  (records_itself_iff (pricedIn 0) genesis.live
    ⟨by decide, by decide +kernel, by decide⟩).2
    ⟨by decide, by decide +kernel, by decide +kernel, by decide +kernel⟩

/-- A closed session passes every check of a price update and an undelegating commit every check of
its own, and neither gets through. -/
theorem stopped_by_own_event :
    ((pricedIn 4).Passes genesis.live ∧ ∀ m', (pricedIn 4).run genesis.live ≠ .ok () m') ∧
    ∃ w, Run Action.Accepted genesis (fundRun 1000 1000) w ∧
      (undelegatingCommit (call 3 1000) 1 fun _ => 0).Passes w.live ∧
      ∀ m', (undelegatingCommit (call 3 1000) 1 fun _ => 0).run w.live ≠ .ok () m' := by
  refine ⟨⟨⟨by decide, by decide +kernel, by decide⟩, fun m' hr => ?_⟩, _,
    run_accepted (by decide +kernel), ⟨by decide, by decide +kernel, by decide +kernel,
      by decide +kernel, by decide +kernel⟩, fun m' => commitV3Bundle_undelegate_ne_ok⟩
  have hs : isOk ((pricedIn 4).run genesis.live) = false := by decide +kernel
  rw [hr] at hs
  exact Bool.noConfusion hs

end LifecycleStep

end Equinox
