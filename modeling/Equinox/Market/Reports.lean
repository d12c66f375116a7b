import Equinox.Market.CoreBytes
import Equinox.Market.SnapshotHistory

/-! # Reported prices

A market without a feed has a reporter, who posts prices through the snapshot's
writer. A report may move the last price by half a percent and a tenth of a
percent for each second since, by a tenth at most. Publish times ascend, so
however a move is split into reports it never exceeds 0.6 percent a second.
-/

namespace Equinox

open Foundation SnapshotBytes List

def v3CoreOracleFeedIdOffset : ℕ := 246
def v3CoreOracleChannelOffset : ℕ := 250
def v3CoreOracleExponentOffset : ℕ := 251
def v3CorePriceReporterOffset : ℕ := 1760

/-- What a report sees of its three accounts: whether the snapshot may be written and is the one
derived from the core's address, whether the program or the delegation program owns the core, and
who signs. -/
structure ReportAccounts where
  count : ℕ
  snapshotWritable : Bool
  snapshotOwned : Bool
  snapshotDerived : Bool
  coreAddress : Address
  coreWritable : Bool
  coreOwned : Bool
  core : Bytes
  reporter : Address
  signs : Bool

structure PriceReport where
  accounts : ReportAccounts
  price : I64
  confidence : U64
  publishTimestamp : U64
  clock : I64

def coreIdentity (address : Address) (core : Bytes) : SnapshotIdentity where
  core := address
  feedId := ⟨unsigned core v3CoreOracleFeedIdOffset 4, Bytes.toNat_slice_lt _ _ _⟩
  channel := ⟨unsigned core v3CoreOracleChannelOffset 1, Bytes.toNat_slice_lt _ _ _⟩
  exponent := ⟨(unsigned core v3CoreOracleExponentOffset 4 : ℤ).bmod (2 ^ 32), by
    have hlow := Int.le_bmod (x := unsigned core v3CoreOracleExponentOffset 4)
      (m := 2 ^ 32) (by decide)
    have hhigh := Int.bmod_lt (x := unsigned core v3CoreOracleExponentOffset 4)
      (m := 2 ^ 32) (by decide)
    omega⟩

/-- What a report hands to the snapshot's writer: a price of a regular session. -/
def PriceReport.verified (r : PriceReport) (now : U64) : VerifiedPrice where
  identity := coreIdentity r.accounts.coreAddress r.accounts.core
  price := r.price
  confidence := r.confidence
  publishTimestamp := r.publishTimestamp
  session := 0
  now := now

namespace Reports

def saturatingMul (a b : ℕ) : ℕ := min (a * b) (2 ^ 64 - 1)

/-- Half a percent, a tenth for each second, ten percent at most; in basis points. -/
def maxReportMoveBps (elapsed : ℕ) : ℕ := min (saturatingAdd (saturatingMul elapsed 10) 50) 1000

def toU64 (x : I64) : Option U64 :=
  if h : 0 ≤ x.val then some ⟨x.val.toNat, by have := x.property; omega⟩ else none

/-- The authority of a report: the reporter whose key is in the core signs it. -/
def checkReporter (accounts : ReportAccounts) : Except ProgramError Unit := do
  require (accounts.count = 3 ∧ accounts.snapshotWritable = true ∧
    accounts.snapshotOwned = true ∧ accounts.snapshotDerived = true ∧
    accounts.coreWritable = false ∧ accounts.signs = true) (.custom .oracleUnavailable)
  let reporter := accounts.core.slice v3CorePriceReporterOffset 32
  require (accounts.coreOwned = true ∧ accounts.core.length = v3MarketCoreSize ∧
    accounts.core.slice 0 8 = v3MarketCoreDiscriminator ∧ reporter ≠ replicate 32 0 ∧
    reporter = .ofNat 32 accounts.reporter) (.custom .oracleUnavailable)

/-- A report moves an authenticated price within its limit. -/
def checkMove (r : PriceReport) (bytes : Bytes) : Except ProgramError Unit :=
  let previousPrice := price bytes
  if 0 < previousPrice ∧ unsigned bytes offsetAuthenticated 1 = 1 then
    let limit := maxReportMoveBps (r.publishTimestamp - publishTimestamp bytes)
    let moved := min ((r.price.val - previousPrice).natAbs * 10000) (2 ^ 128 - 1)
    require (moved ≤ min (limit * previousPrice.natAbs) (2 ^ 128 - 1)) (.custom .riskViolation)
  else pure ()

def reportPriceV3 (r : PriceReport) : SnapshotM Unit := do
  checkReporter r.accounts
  let now ← okOr (toU64 r.clock) (ProgramError.custom .oracleUnavailable)
  reading (checkMove r)
  writeVerified (r.verified now)

/-! ## The bound on a move -/

/-- From a price and its time to another: no more than 0.6 percent a second either way. -/
structure Paced (p : ℤ) (t : ℕ) (q : ℤ) (u : ℕ) : Prop where
  later : t ≤ u
  rise : q * 1000 ^ (u - t) ≤ p * 1006 ^ (u - t)
  fall : p * 994 ^ (u - t) ≤ q * 1000 ^ (u - t)

variable {p q r : ℤ} {t u v : ℕ}

theorem Paced.refl (p : ℤ) (t : ℕ) : Paced p t p t := by
  refine ⟨le_rfl, ?_, ?_⟩ <;> simp only [Nat.sub_self, pow_zero, le_refl]

theorem Paced.trans (h : Paced p t q u) (h' : Paced q u r v) : Paced p t r v := by
  obtain ⟨a, rfl⟩ := Nat.exists_eq_add_of_le h.later
  obtain ⟨b, rfl⟩ := Nat.exists_eq_add_of_le h'.later
  have hr := h.rise
  have hr' := h'.rise
  have hf := h.fall
  have hf' := h'.fall
  simp only [Nat.add_sub_cancel_left] at hr hr' hf hf'
  refine ⟨by omega, ?_, ?_⟩ <;> rw [add_assoc, Nat.add_sub_cancel_left, pow_add, pow_add]
  · calc r * (1000 ^ a * 1000 ^ b) = r * 1000 ^ b * 1000 ^ a := by ring
      _ ≤ q * 1006 ^ b * 1000 ^ a := by gcongr
      _ = q * 1000 ^ a * 1006 ^ b := by ring
      _ ≤ p * 1006 ^ a * 1006 ^ b := by gcongr
      _ = p * (1006 ^ a * 1006 ^ b) := by ring
  · calc p * (994 ^ a * 994 ^ b) = p * 994 ^ a * 994 ^ b := by ring
      _ ≤ q * 1000 ^ a * 994 ^ b := by gcongr
      _ = q * 994 ^ b * 1000 ^ a := by ring
      _ ≤ r * 1000 ^ b * 1000 ^ a := by gcongr
      _ = r * (1000 ^ a * 1000 ^ b) := by ring

theorem maxReportMoveBps_eq (e : ℕ) : maxReportMoveBps e = min (10 * e + 50) 1000 := by
  simp only [maxReportMoveBps, saturatingAdd, saturatingMul]
  omega

theorem bernoulli_rise (e : ℕ) : ((1000 : ℤ) + 6 * e) * 1000 ^ e ≤ 1000 * 1006 ^ e := by
  induction e with
  | zero => simp
  | succ e ih =>
    have hs : ((1000 : ℤ) + 6 * (e + 1)) * 1000 ≤ (1000 + 6 * e) * 1006 := by
      have : (0 : ℤ) ≤ e := Int.natCast_nonneg e
      linarith
    push_cast
    calc ((1000 : ℤ) + 6 * (e + 1)) * 1000 ^ (e + 1)
        = (1000 + 6 * (e + 1)) * 1000 * 1000 ^ e := by ring
      _ ≤ (1000 + 6 * e) * 1006 * 1000 ^ e := by gcongr
      _ = (1000 + 6 * e) * 1000 ^ e * 1006 := by ring
      _ ≤ 1000 * 1006 ^ e * 1006 := by gcongr
      _ = 1000 * 1006 ^ (e + 1) := by ring

theorem maxReportMoveBps_rise {e : ℕ} (he : 0 < e) :
    ((10000 : ℤ) + maxReportMoveBps e) * 1000 ^ e ≤ 10000 * 1006 ^ e := by
  have hl : (maxReportMoveBps e : ℤ) ≤ 60 * e := by
    rw [maxReportMoveBps_eq]
    omega
  calc ((10000 : ℤ) + maxReportMoveBps e) * 1000 ^ e
      ≤ (10000 + 60 * e) * 1000 ^ e := by gcongr
    _ = 10 * ((1000 + 6 * e) * 1000 ^ e) := by ring
    _ ≤ 10 * (1000 * 1006 ^ e) := mul_le_mul_of_nonneg_left (bernoulli_rise e) (by norm_num)
    _ = 10000 * 1006 ^ e := by ring

theorem maxReportMoveBps_fall {e : ℕ} (he : 0 < e) :
    (10000 : ℤ) * 994 ^ e ≤ (10000 - maxReportMoveBps e) * 1000 ^ e := by
  induction e, he using Nat.le_induction with
  | base => norm_num [maxReportMoveBps_eq]
  | succ e he ih =>
    -- a step lowers the left by 0.6 percent and the right by ten basis points at most
    have hs : (10000 - (maxReportMoveBps e : ℤ)) * 994 ≤
        (10000 - maxReportMoveBps (e + 1)) * 1000 := by
      simp only [maxReportMoveBps_eq]
      omega
    calc (10000 : ℤ) * 994 ^ (e + 1) = 10000 * 994 ^ e * 994 := by ring
      _ ≤ (10000 - maxReportMoveBps e) * 1000 ^ e * 994 := by gcongr
      _ = (10000 - maxReportMoveBps e) * 994 * 1000 ^ e := by ring
      _ ≤ (10000 - maxReportMoveBps (e + 1)) * 1000 * 1000 ^ e := by gcongr
      _ = (10000 - maxReportMoveBps (e + 1)) * 1000 ^ (e + 1) := by ring

/-- A move within the limit is paced. -/
theorem paced_of_move (hp : 0 < p) (ht : t < u)
    (hm : |q - p| * 10000 ≤ maxReportMoveBps (u - t) * p) : Paced p t q u := by
  have he : 0 < u - t := Nat.sub_pos_of_lt ht
  have hr := maxReportMoveBps_rise he
  have hf := maxReportMoveBps_fall he
  generalize maxReportMoveBps (u - t) = limit at hm hr hf
  have hup : q * 10000 ≤ p * (10000 + limit) := by
    have := le_abs_self (q - p)
    linarith
  have hd : p * (10000 - limit) ≤ q * 10000 := by
    have := neg_abs_le (q - p)
    linarith
  refine ⟨ht.le, ?_, ?_⟩
  · have hs : 10000 * (q * 1000 ^ (u - t)) ≤ 10000 * (p * 1006 ^ (u - t)) := by
      calc (10000 : ℤ) * (q * 1000 ^ (u - t)) = q * 10000 * 1000 ^ (u - t) := by ring
        _ ≤ p * (10000 + limit) * 1000 ^ (u - t) := by gcongr
        _ = p * ((10000 + limit) * 1000 ^ (u - t)) := by ring
        _ ≤ p * (10000 * 1006 ^ (u - t)) := mul_le_mul_of_nonneg_left hr hp.le
        _ = 10000 * (p * 1006 ^ (u - t)) := by ring
    exact le_of_mul_le_mul_left hs (by norm_num)
  · have hs : 10000 * (p * 994 ^ (u - t)) ≤ 10000 * (q * 1000 ^ (u - t)) := by
      calc (10000 : ℤ) * (p * 994 ^ (u - t)) = p * (10000 * 994 ^ (u - t)) := by ring
        _ ≤ p * ((10000 - limit) * 1000 ^ (u - t)) := mul_le_mul_of_nonneg_left hf hp.le
        _ = p * (10000 - limit) * 1000 ^ (u - t) := by ring
        _ ≤ q * 10000 * 1000 ^ (u - t) := by gcongr
        _ = 10000 * (q * 1000 ^ (u - t)) := by ring
    exact le_of_mul_le_mul_left hs (by norm_num)

/-! ## Runs of reports -/

variable {report first : PriceReport} {rest : List PriceReport} {bytes bytes' bytes'' : Bytes}

/-- The snapshot holds an authenticated price. -/
structure Holds (bytes : Bytes) (p : ℤ) (t : ℕ) : Prop where
  initialized : Initialized bytes
  authenticated : unsigned bytes offsetAuthenticated 1 = 1
  price : price bytes = p
  time : publishTimestamp bytes = t
  pos : 0 < p
  lt : p < 2 ^ 63

theorem holds_of_writeVerified {w : VerifiedPrice} (h : writeVerified w bytes = .ok () bytes') :
    Holds bytes' w.price.val w.publishTimestamp := by
  obtain ⟨hp, -, -, next, hn, rfl⟩ := writeVerified_eq_ok.1 h
  have hlt : next < 2 ^ 64 := by
    unfold nextSequence at hn
    split at hn
    · simp only [ok_rules, checkedU64_eq_ok] at hn
      omega
    · obtain rfl := pure_eq_ok.1 hn
      decide
  have hr := reads_written (w := w) hlt
  exact ⟨hr.toInitialized, hr.authenticated, hr.price, hr.publishTimestamp,
    hp.1, w.price.property.2⟩

theorem reportPriceV3_eq_ok {u : Unit} (h : reportPriceV3 report bytes = .ok u bytes') :
    checkMove report bytes = .ok () ∧
      ∃ now, writeVerified (report.verified now) bytes = .ok () bytes' := by
  simp only [reportPriceV3, run_lift_bind, run_reading_bind] at h
  obtain ⟨-, -, now, -, ⟨⟩, hm, hw⟩ := h
  exact ⟨hm, now, hw⟩

theorem holds_of_report (h : reportPriceV3 report bytes = .ok () bytes') :
    Holds bytes' report.price.val report.publishTimestamp := by
  obtain ⟨-, now, hw⟩ := reportPriceV3_eq_ok h
  exact holds_of_writeVerified hw

theorem move_of_checkMove {p : ℤ} {t : ℕ} (hb : Holds bytes p t)
    (h : checkMove report bytes = .ok ()) :
    |report.price.val - p| * 10000 ≤ maxReportMoveBps (report.publishTimestamp - t) * p := by
  have hpos := hb.pos
  have hlt := hb.lt
  have hpr := report.price.property
  simp only [checkMove, hb.price, hb.authenticated, hb.time, hpos, and_self, if_true,
    require_eq_ok] at h
  have hl : maxReportMoveBps (report.publishTimestamp - t) ≤ 1000 := by
    rw [maxReportMoveBps_eq]
    exact Nat.min_le_right _ _
  have hp : maxReportMoveBps (report.publishTimestamp - t) * p.natAbs ≤ 1000 * 2 ^ 63 :=
    Nat.mul_le_mul hl (by omega)
  have hm : (report.price.val - p).natAbs * 10000 ≤
      maxReportMoveBps (report.publishTimestamp - t) * p.natAbs := by
    generalize maxReportMoveBps (report.publishTimestamp - t) * p.natAbs = product at h hp ⊢
    omega
  have hc : ((report.price.val - p).natAbs * 10000 : ℤ) ≤
      maxReportMoveBps (report.publishTimestamp - t) * p.natAbs := by
    exact_mod_cast hm
  rwa [Int.natCast_natAbs, Int.natCast_natAbs, abs_of_pos hpos] at hc

theorem paced_of_report {p : ℤ} {t : ℕ} (hb : Holds bytes p t)
    (h : reportPriceV3 report bytes = .ok () bytes') :
    Paced p t report.price.val report.publishTimestamp := by
  obtain ⟨hm, now, hw⟩ := reportPriceV3_eq_ok h
  have hn := (reads_of_writeVerified hb.initialized hw).2.1
  rw [hb.time] at hn
  exact paced_of_move hb.pos hn (move_of_checkMove hb hm)

theorem paced_of_reports (hf : reportPriceV3 first bytes = .ok () bytes')
    (hr : rest.forM reportPriceV3 bytes' = .ok () bytes'') :
    Paced first.price.val first.publishTimestamp
      ((first :: rest).getLast (cons_ne_nil _ _)).price.val
      ((first :: rest).getLast (cons_ne_nil _ _)).publishTimestamp := by
  induction rest generalizing first bytes bytes' with
  | nil => exact .refl _ _
  | cons report rest ih =>
    obtain ⟨bytes₁, hre, hr⟩ := run_forM_cons.1 hr
    have hp := paced_of_report (holds_of_report hf) hre
    rw [getLast_cons (cons_ne_nil _ _)]
    exact hp.trans (ih hre hr)

/-- The price of the last of any accepted reports, against the first's. -/
theorem report_speed_limit (hfirst : reportPriceV3 first bytes = .ok () bytes')
    (hrest : rest.forM reportPriceV3 bytes' = .ok () bytes'') :
    let last := (first :: rest).getLast (cons_ne_nil _ _)
    let k := last.publishTimestamp.val - first.publishTimestamp
    first.publishTimestamp.val ≤ last.publishTimestamp ∧
      last.price.val * 1000 ^ k ≤ first.price.val * 1006 ^ k ∧
      first.price.val * 994 ^ k ≤ last.price.val * 1000 ^ k := by
  have h := paced_of_reports hfirst hrest
  exact ⟨h.later, h.rise, h.fall⟩

def reportedCore : Bytes :=
  v3MarketCoreDiscriminator ++ replicate 238 0 ++ .ofNat 4 1435 ++ .ofNat 1 2 ++
    .ofInt 4 (-5) ++ replicate 1505 0 ++ .ofNat 32 9 ++ replicate 2304 0

def reportAt (price : I64) (time : U64) : PriceReport where
  accounts :=
    { count := 3, snapshotWritable := true, snapshotOwned := true, snapshotDerived := true
      coreAddress := 7, coreWritable := false, coreOwned := true, core := reportedCore
      reporter := 9, signs := true }
  price := price
  confidence := 1
  publishTimestamp := time
  clock := 1000

/-- The largest move of one second. -/
theorem report_speed_limit_second :
    (∃ bytes bytes', reportPriceV3 (reportAt 1000 1000) (replicate 128 0) = .ok () bytes ∧
      [reportAt 1006 1001].forM reportPriceV3 bytes = .ok () bytes') ∧
    (1006 : ℤ) * 1000 ^ 1 ≤ 1000 * 1006 ^ 1 ∧ (1000 : ℤ) * 994 ^ 1 ≤ 1006 * 1000 ^ 1 := by
  have hr : isOk (reportPriceV3 (reportAt 1000 1000)
        (replicate 128 0)) = true ∧
      isOk ([reportAt 1006 1001].forM reportPriceV3 (finalState
        (reportPriceV3 (reportAt 1000 1000) (replicate 128 0)))) = true := by
    decide +kernel
  have hf := eq_ok_of_isOk hr.1
  have hs := eq_ok_of_isOk hr.2
  exact ⟨⟨_, _, hf, hs⟩, (report_speed_limit hf hs).2⟩

end Reports

end Equinox
