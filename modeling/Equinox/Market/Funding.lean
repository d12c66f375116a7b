import Equinox.Market.World

/-! # Funding and the basis

A funding update moves the accumulator up, by at most the elapsed seconds and the
size of the basis between mark and index. The sign of the basis is not looked at,
so that a mark below the index raises the accumulator as one above it does.
-/

namespace Equinox

open Foundation World V3RiskConfig Except

variable {ctx : Context} {m m' : Market} {u : Unit} {index mark accumulator : ℤ} {timestamp : ℕ}

/-- The mark a funding update computes from the books. -/
def Market.fundingMark (m : Market) (config : V3RiskConfig) (oracle : I64) (now : ℕ) :
    Except ProgramError ℤ := do
  let bestBid ← bestFor (m.books .bid) .bid oracle now
  let bestAsk ← bestFor (m.books .ask) .ask oracle now
  pure (clampMark (bookMark bestBid bestAsk oracle) oracle.val config.markDeviationBps)

/-- The distance of a mark from the index, in basis points of the index. -/
def basisBps (mark index : ℤ) : ℤ := ((mark - index) * 10000).tdiv index

theorem basisBps_nonneg (hi : 0 < index) (h : index ≤ mark) : 0 ≤ basisBps mark index :=
  Int.tdiv_nonneg (by omega) hi.le

theorem basisBps_self (index : ℤ) : basisBps index index = 0 := by
  simp [basisBps]

/-- What an accepted funding update has checked and written. -/
structure Market.Funded (accumulator : ℤ) (timestamp : ℕ) (mark index : ℤ) (m m' : Market) :
    Prop where
  fundingAccumulator : m'.core.fundingAccumulator = accumulator
  lastFundingTimestamp : m'.core.lastFundingTimestamp = timestamp
  forward : m.core.lastFundingTimestamp ≤ timestamp
  upward : m.core.fundingAccumulator ≤ accumulator
  capped : |accumulator - m.core.fundingAccumulator| ≤
    min ((timestamp - m.core.lastFundingTimestamp : ℕ) : ℤ) |basisBps mark index|

theorem funded_of_updateFundingV3 (h : updateFundingV3 ctx accumulator timestamp m = .ok u m') :
    ∃ index now config mark, oraclePriceAfterFreshness ctx m.core = .ok index ∧
      freshV3ExecutionTimeWithSnapshot ctx m.core = .ok now ∧
      readV3RiskConfig m.core = .ok config ∧ m.fundingMark config index now = .ok mark ∧
      m.Funded accumulator timestamp mark index.val m' := by
  simp only [updateFundingV3, run_rules, exists_checkedI128, run_modifyCore_bind] at h
  obtain ⟨⟨⟩, -, -, now, hn, index, hi, config, hco, -, bid, hb, ask, ha,
    ⟨hf, hu⟩, -, -, hc, h⟩ := h
  obtain ⟨⟨s, hs⟩, -⟩ := (logged_of_appendEventRecord h).2
  refine ⟨index, now, config, _, hi, hn, hco, ?_, ?_, ?_, hf, hu, hc⟩
  · rw [Market.fundingMark, hb, ok_bind, ha, ok_bind]
    rfl
  · rw [hs]
  · rw [hs]

/-- The accumulator moves at most by the elapsed seconds and the basis as far as it is positive,
and not at all while the mark is at or below the index, if and only if it is left alone or the mark
is not below the index. -/
theorem Market.Funded.follows_basis_iff (h : m.Funded accumulator timestamp mark index m')
    (hi : 0 < index) :
    (0 ≤ m'.core.fundingAccumulator - m.core.fundingAccumulator ∧
      m'.core.fundingAccumulator - m.core.fundingAccumulator ≤
        min ((timestamp - m.core.lastFundingTimestamp : ℕ) : ℤ) (max 0 (basisBps mark index)) ∧
      (mark ≤ index → m'.core.fundingAccumulator = m.core.fundingAccumulator)) ↔
      accumulator = m.core.fundingAccumulator ∨ index ≤ mark := by
  obtain ⟨rfl, -, -, hu, hc⟩ := h
  rw [abs_of_nonneg (sub_nonneg.2 hu), le_min_iff] at hc
  obtain ⟨he, hb⟩ := hc
  constructor
  · rintro ⟨-, -, hbe⟩
    rcases le_total mark index with hle | hle
    · exact .inl (hbe hle)
    · exact .inr hle
  · rintro (heq | ha)
    · rw [heq, sub_self, le_min_iff]
      exact ⟨le_rfl, ⟨by omega, le_max_left _ _⟩, fun _ => rfl⟩
    · rw [abs_of_nonneg (basisBps_nonneg hi ha)] at hb
      refine ⟨by omega, le_min he (hb.trans (le_max_right _ _)), fun hle => ?_⟩
      rw [le_antisymm hle ha, basisBps_self] at hb
      omega

/-- Funding follows the basis in an accepted update if and only if the update leaves the accumulator
alone or the mark is not below the index. -/
theorem funding_follows_basis_iff (h : updateFundingV3 ctx accumulator timestamp m = .ok u m') :
    ∃ index now config mark, oraclePriceAfterFreshness ctx m.core = .ok index ∧
      freshV3ExecutionTimeWithSnapshot ctx m.core = .ok now ∧
      readV3RiskConfig m.core = .ok config ∧ m.fundingMark config index now = .ok mark ∧
      (0 ≤ m'.core.fundingAccumulator - m.core.fundingAccumulator ∧
        m'.core.fundingAccumulator - m.core.fundingAccumulator ≤
          min ((timestamp - m.core.lastFundingTimestamp : ℕ) : ℤ)
            (max 0 (basisBps mark index.val)) ∧
        (mark ≤ index.val → m'.core.fundingAccumulator = m.core.fundingAccumulator) ↔
        accumulator = m.core.fundingAccumulator ∨ index.val ≤ mark) := by
  obtain ⟨index, now, config, mark, hi, hn, hc, hm, hf⟩ :=
    funded_of_updateFundingV3 h
  exact ⟨index, now, config, mark, hi, hn, hc, hm,
    hf.follows_basis_iff (oraclePriceAfterFreshness_pos hi)⟩

def askRun (price : I64) : List Action :=
  fundRun 10000 1000 ++
    [.placeOrderV3 (call 8 1000) (limitOrder .ask 1 1 price)]

theorem funding_follows_basis_of_askRun : ∃ m',
    updateFundingV3 (call 3 1000) 1 2
        (genesis.after (askRun 1040)).live = .ok () m' ∧
      m'.core.fundingAccumulator -
          (genesis.after (askRun 1040)).live.core.fundingAccumulator ≤
        min 2 (max 0 (basisBps 1040 1000)) := by
  have hu : updateFundingV3 (call 3 1000) 1 2
      (genesis.after (askRun 1040)).live = .ok () (finalState _) :=
    eq_ok_of_isOk (by decide +kernel)
  obtain ⟨index, now, config, mark, hin, hn, hco, hm, hi⟩ :=
    funding_follows_basis_iff hu
  have hc : oraclePriceAfterFreshness (call 3 1000)
      (genesis.after (askRun 1040)).live.core = .ok 1000 := by
    decide +kernel
  have ht : freshV3ExecutionTimeWithSnapshot (call 3 1000)
      (genesis.after (askRun 1040)).live.core = .ok 0 := by
    decide +kernel
  have hd : readV3RiskConfig (genesis.after (askRun 1040)).live.core = .ok defaults := by
    decide +kernel
  have hq : (genesis.after (askRun 1040)).live.fundingMark
      defaults 1000 0 = .ok 1040 := by
    decide +kernel
  have hs : (genesis.after (askRun 1040)).live.core.lastFundingTimestamp = 0 := by
    decide +kernel
  obtain rfl := ok.inj (hc.symm.trans hin)
  obtain rfl := ok.inj (ht.symm.trans hn)
  obtain rfl := ok.inj (hd.symm.trans hco)
  obtain rfl := ok.inj (hq.symm.trans hm)
  have hb := (hi.2 (.inr (by decide))).2.1
  rw [hs] at hb
  exact ⟨_, hu, hb⟩

/-- With a lone ask below the index, the accumulator moves up although the mark is below it. -/
theorem funding_rises_below_index : ∃ m',
    Run Action.Accepted genesis (askRun 960)
        (genesis.after (askRun 960)) ∧
      updateFundingV3 (call 3 1000) 1 2
        (genesis.after (askRun 960)).live = .ok () m' ∧
      (genesis.after (askRun 960)).live.fundingMark defaults
        1000 0 = .ok 960 ∧
      (genesis.after (askRun 960)).live.core.fundingAccumulator = 0 ∧
      m'.core.fundingAccumulator = 1 := by
  have hu : updateFundingV3 (call 3 1000) 1 2
      (genesis.after (askRun 960)).live = .ok () (finalState _) := eq_ok_of_isOk (by decide +kernel)
  exact ⟨_, run_accepted (by decide +kernel), hu, by decide +kernel⟩

end Equinox
