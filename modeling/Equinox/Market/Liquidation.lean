import Equinox.Market.Ledgers
import Equinox.Risk.Room

/-! # Liquidations, one after the other

A call closes half of a position, so a position that is not flat shrinks with
every call and keeps its sign. A flat seat with negative equity is closed by one
contract too, which opens a position. While a position is open and unhealthy, a
further call succeeds as long as its arithmetic fits.
-/

namespace Equinox

open Foundation World Risk TraderSeat

variable {m m' : Market} {ctx : Context} {i maxQuantity : ℕ} {mark : ℤ}

/-- A position moved towards zero and did not cross it. -/
structure Shrunk (b b' : ℤ) : Prop where
  smaller : |b'| < |b|
  long : 0 ≤ b → 0 ≤ b'
  short : b ≤ 0 → b' ≤ 0

/-! ## One call -/

variable {seat : TraderSeat}

theorem liquidationQuantity_le (h : seat.basePosition ≠ 0) :
    liquidationQuantity seat maxQuantity ≤ |seat.basePosition| := by
  have hpos := abs_pos.2 h
  refine (min_le_left _ _).trans (max_le ?_ hpos)
  rw [Int.tdiv_eq_ediv_of_nonneg (abs_nonneg _)]
  omega

theorem liquidationQuantity_pos (h : maxQuantity ≠ 0) :
    0 < liquidationQuantity seat maxQuantity := by
  refine lt_min (lt_max_of_lt_right one_pos) ?_
  omega

theorem TraderSeat.shrunk_closing {q : ℤ} (hq : 0 < q)
    (hle : q ≤ |seat.basePosition|) : Shrunk seat.basePosition (seat.closingPosition q) := by
  unfold closingPosition
  split
  · rename_i hl
    rw [abs_of_pos hl] at hle
    constructor
    · rw [abs_of_pos hl, abs_of_nonneg (by omega)]
      omega
    · omega
    · omega
  · rename_i hs
    rw [abs_of_nonpos (not_lt.1 hs)] at hle
    constructor
    · rw [abs_of_nonpos (not_lt.1 hs), abs_of_nonpos (by omega)]
      omega
    · omega
    · omega

section Liquidated

variable {fee : ℤ} {config : V3RiskConfig} {settled filled : TraderSeat}
  (h : Market.Liquidated i maxQuantity mark config settled filled fee m m')

include h

theorem Market.Liquidated.quantity_eq :
    liquidationQuantity settled maxQuantity = liquidationQuantity (m.seats i) maxQuantity := by
  obtain ⟨_, hs⟩ := h.settled_eq
  rw [(settleFunding_eq_ok hs).2]
  rfl

theorem Market.Liquidated.position_eq : (m'.seats i).basePosition =
    (m.seats i).closingPosition (liquidationQuantity (m.seats i) maxQuantity) := by
  obtain ⟨state, hs⟩ := h.seats_self
  rw [hs, ← h.quantity_eq]
  change filled.basePosition = _
  rw [h.dealt.position, closingPosition]
  split
  · ring
  · rfl

/-- A flat seat is made to buy one. -/
theorem Market.Liquidated.position_of_flat (hz : (m.seats i).basePosition = 0) :
    (m'.seats i).basePosition = 1 := by
  have hpos := h.quantity_pos
  rw [h.quantity_eq] at hpos
  rw [h.position_eq]
  simp only [closingPosition, liquidationQuantity, hz] at hpos ⊢
  simp at hpos ⊢
  omega

theorem Market.Liquidated.shrunk_iff :
    Shrunk (m.seats i).basePosition (m'.seats i).basePosition ↔ (m.seats i).basePosition ≠ 0 := by
  constructor
  · rintro ⟨hlt, -, -⟩ h0
    rw [h0, abs_zero] at hlt
    exact absurd hlt (not_lt.2 (abs_nonneg _))
  · intro hne
    rw [h.position_eq]
    exact shrunk_closing (h.quantity_eq ▸ h.quantity_pos) (liquidationQuantity_le hne)

end Liquidated

/-! ## A sequence of calls -/

def liquidatesOpen (i : ℕ) (call : Context × ℕ) (m m' : Market) : Prop :=
  liquidateV3 call.1 i call.2 m = .ok () m' ∧ (m.seats i).basePosition ≠ 0

theorem length_le_of_liquidations {calls : List (Context × ℕ)}
    (h : Run (liquidatesOpen i) m calls m') :
    calls.length + |(m'.seats i).basePosition| ≤ |(m.seats i).basePosition| ∧
      (0 ≤ (m.seats i).basePosition → 0 ≤ (m'.seats i).basePosition) ∧
      ((m.seats i).basePosition ≤ 0 → (m'.seats i).basePosition ≤ 0) := by
  induction h with
  | nil => simp
  | snoc _ hc ih =>
    obtain ⟨hlen, hlo, hsh⟩ := ih
    obtain ⟨hr, ho⟩ := hc
    obtain ⟨_, _, _, _, _, -, hl⟩ := liquidateV3_eq_ok hr
    have hs := hl.shrunk_iff.2 ho
    have hlt := hs.smaller
    rw [List.length_append, List.length_singleton]
    push_cast
    exact ⟨by omega, fun h0 => hs.long (hlo h0), fun h0 => hs.short (hsh h0)⟩

/-! ## When a call succeeds -/

/-- An operator may call with a fresh price for a seat in use. -/
structure Market.KeptAt (ctx : Context) (i : ℕ) (mark : I64) (m : Market) : Prop where
  bundle : validateExecutionBundle m = .ok ()
  fresh : ∃ now, freshV3ExecutionTimeWithSnapshot ctx m.core = .ok now
  operator : m.core.isV3Operator ctx.signer = true
  priced : ctx.snapshot.isSome = true ∨ m.core.oracleValid = true
  mark : oraclePriceAfterFreshness ctx m.core = .ok mark
  readable : readV3RiskConfig m.core = .ok m.core.config.effective
  index : i < v3SeatCount
  occupied : (m.seats i).occupancy = true
  trader : (m.seats i).trader ≠ 0
  logs : validateEventCore m.core = .ok ()

/-- The equity of a seat, with its funding settled, covers its maintenance margin. -/
def Market.Healthy (m : Market) (i : ℕ) (mark : ℤ) : Prop :=
  (m.seats i).maintenance mark m.core.config.effective.maintenanceMarginBps ≤ m.settledValue i mark

/-- The seat that a call finds, with its funding settled. -/
def Market.settledSeat (m : Market) (i : ℕ) : TraderSeat :=
  (m.seats i).settledAt m.core.fundingAccumulator

def Market.closedSeat (m : Market) (i maxQuantity : ℕ) (mark : ℤ) : TraderSeat :=
  (m.settledSeat i).closing (liquidationQuantity (m.seats i) maxQuantity) mark
    (m.liquidationFee i maxQuantity mark)

/-- What the seat owes beyond its equity after a call. -/
def Market.shortfall (m : Market) (i maxQuantity : ℕ) (mark : ℤ) : ℤ :=
  if (m.closedSeat i maxQuantity mark).value mark < 0 then
    -(m.closedSeat i maxQuantity mark).value mark
  else 0

/-- The arithmetic of a call fits, and the ledger holds the open interest that it closes. -/
structure Market.LiquidationRoom (m : Market) (i maxQuantity : ℕ) (mark : ℤ) : Prop where
  settles : Settles (m.seats i) m.core.fundingAccumulator
  before : Assessable (m.settledSeat i) mark m.core.config.effective.maintenanceMarginBps
  closes : Closes (m.settledSeat i) (liquidationQuantity (m.seats i) maxQuantity) mark
    m.core.config.effective.liquidationFeeBps
  after : Assessable (m.closedSeat i maxQuantity mark) mark
    m.core.config.effective.maintenanceMarginBps
  insurance : InI128 (m.core.insuranceBalance + m.liquidationFee i maxQuantity mark)
  openInterest : InI128 (m.core.currentOpenInterest -
    liquidationQuantity (m.seats i) maxQuantity)
  covered : liquidationQuantity (m.seats i) maxQuantity ≤ m.core.currentOpenInterest
  shortfall : InI128 (m.shortfall i maxQuantity mark)
  badDebt : InI128 (m.core.badDebt + m.shortfall i maxQuantity mark)
  events : m.core.globalEventSequence + 2 < 2 ^ 64

theorem Market.value_settledSeat (m : Market) (i : ℕ) (mark : ℤ) :
    (m.settledSeat i).value mark = m.settledValue i mark := by
  change (m.seats i).availableCollateral + ((m.seats i).realizedPnl -
    (m.seats i).fundingOwed m.core.fundingAccumulator) + ((m.seats i).basePosition * mark -
      if (m.seats i).basePosition = 0 then 0 else (m.seats i).quoteEntryValue) = _
  unfold settledValue value fundingOwed
  ring

theorem abs_sub_abs_closing {q : ℤ} (hle : q ≤ |seat.basePosition|) :
    |seat.basePosition| - |seat.closingPosition q| = q := by
  unfold closingPosition
  split
  · rename_i hl
    rw [abs_of_pos hl] at hle ⊢
    rw [abs_of_nonneg (by omega)]
    omega
  · rename_i hs
    rw [abs_of_nonpos (not_lt.1 hs)] at hle ⊢
    rw [abs_of_nonpos (by omega)]
    omega

/-- A position is liquidated exactly while it is unhealthy, as far as the arithmetic fits. -/
theorem liquidateV3_iff {mark : I64} (hk : m.KeptAt ctx i mark) (hmax : maxQuantity ≠ 0)
    (hop : (m.seats i).basePosition ≠ 0) :
    (∃ m', liquidateV3 ctx i maxQuantity m = .ok () m') ↔
      ¬m.Healthy i mark.val ∧ m.LiquidationRoom i maxQuantity mark.val := by
  obtain ⟨hbu, ⟨now, hfr⟩, hope, hp, hm, hco, hi, ho, ht, hlo⟩ := hk
  have hpos := oraclePriceAfterFreshness_pos hm
  have hq : 0 < liquidationQuantity (m.settledSeat i) maxQuantity := liquidationQuantity_pos hmax
  have hle : liquidationQuantity (m.settledSeat i) maxQuantity ≤ |(m.settledSeat i).basePosition| :=
    liquidationQuantity_le hop
  have hre : |(m.seats i).basePosition| - |(m.settledSeat i).closingPosition
      (liquidationQuantity (m.settledSeat i) maxQuantity)| =
        liquidationQuantity (m.seats i) maxQuantity := abs_sub_abs_closing hle
  simp only [liquidateV3, run_rules, exists_checkedI128, riskOk_eq_ok, v3TradeSeat_eq_ok,
    run_writeV3Seat_bind, run_modifyCore_bind, hmax, ne_eq, not_false_eq_true, hbu, hfr, hope, hp,
    hm, hco, true_and, Except.ok.injEq, exists_eq_left']
  constructor
  · rintro ⟨m', ⟨⟩, seat, ⟨-, -, -, rfl⟩, ⟨payment, settled⟩, hse, liquidatable, hl, rfl,
      quantity, hqu, -, ⟨fee, filled⟩, hf, after, hst, -, -, -, value, hv,
      hin, hoi, hc, hsh, hb, hlog⟩
    obtain ⟨⟨⟩, m₁, hs, hend⟩ := run_bind_eq_ok.1 hlog
    obtain ⟨-, -, rfl⟩ := appendEventRecord_eq_ok.1 hs
    have he : m.core.globalEventSequence + 2 < 2 ^ 64 := (appendEventRecord_eq_ok.1 hend).2.1
    clear hlog hs hend
    obtain ⟨hset, -, rfl⟩ := settleFunding_iff.1 hse
    obtain ⟨hbe, hu⟩ := (isLiquidatable_iff hpos).1 hl
    obtain rfl := (partialLiquidationQuantity_iff hpos hl).1 hqu
    obtain ⟨hcl, rfl, rfl⟩ := (applyFill_close_iff hq hle hpos).1 hf
    obtain ⟨ha, rfl⟩ := (setLiquidationState_iff hpos).1 hst
    obtain ⟨-, -, -, -, rfl⟩ := (equity_iff hpos).1 hv
    have hoi' := hre ▸ hoi
    have hc' := hre ▸ hc
    refine ⟨?_, hset, hbe, hcl, ha, hin, hoi', by omega, hsh, hb, he⟩
    rw [Market.Healthy, ← m.value_settledSeat, not_le]
    exact of_decide_eq_true hu
  · rintro ⟨hu, hr⟩
    rw [Market.Healthy, ← m.value_settledSeat, not_le] at hu
    have hl : isLiquidatable (m.settledSeat i) mark.val
        m.core.config.effective.maintenanceMarginBps = .ok true :=
      (isLiquidatable_iff hpos).2 ⟨hr.before, decide_eq_true hu⟩
    have hqu := (partialLiquidationQuantity_iff hpos hl).2 rfl
    have hf := (applyFill_close_iff hq hle hpos).2 ⟨hr.closes, rfl, rfl⟩
    have hst := (setLiquidationState_iff hpos).2 ⟨hr.after, rfl⟩
    have hv := (equity_iff hpos).2
      ⟨hr.after.cash, hr.after.current, hr.after.unrealized, hr.after.value, rfl⟩
    have hoi := hr.openInterest
    have hc := Int.sub_nonneg_of_le hr.covered
    have hq' : 0 < liquidationQuantity (m.seats i) maxQuantity := hq
    have hsm : InI128 (liquidationQuantity (m.seats i) maxQuantity) :=
      ⟨by omega, hle.trans_lt hr.before.size.2⟩
    rw [← hre] at hoi hc hsm
    have he := hr.events
    have hs : m.core.globalEventSequence + 1 < 2 ^ 64 := by omega
    exact ⟨_, (), _, ⟨hi, ho, ht, rfl⟩, _,
      settleFunding_iff.2 ⟨hr.settles, rfl, rfl⟩, _, hl, rfl, _, hqu, hq, _, hf,
      _, hst, hr.before.size, hr.after.size, hsm, _, hv, hr.insurance, hoi,
      hc, hr.shortfall, hr.badDebt, run_bind_eq_ok.2 ⟨(), _,
        appendEventRecord_eq_ok.2 ⟨hlo, hs, rfl⟩, appendEventRecord_eq_ok.2 ⟨hlo, he, rfl⟩⟩⟩

/-! ## Progress -/

/-- Where there is a position, a call brings it closer to zero on its own side; a sequence of such
calls is no longer than the position, and it can go on until the position is flat or healthy, as
long as the arithmetic fits. -/
theorem liquidation_progress (i : ℕ) :
    (∀ ctx maxQuantity m m', liquidateV3 ctx i maxQuantity m = .ok () m' →
      (Shrunk (m.seats i).basePosition (m'.seats i).basePosition ↔ (m.seats i).basePosition ≠ 0)) ∧
    (∀ calls m m', Run (liquidatesOpen i) m calls m' →
      calls.length + |(m'.seats i).basePosition| ≤ |(m.seats i).basePosition| ∧
        (0 ≤ (m.seats i).basePosition → 0 ≤ (m'.seats i).basePosition) ∧
        ((m.seats i).basePosition ≤ 0 → (m'.seats i).basePosition ≤ 0)) ∧
    ∀ ctx maxQuantity m mark, Market.KeptAt ctx i mark m → maxQuantity ≠ 0 →
      (m.seats i).basePosition ≠ 0 → ((∃ m', liquidateV3 ctx i maxQuantity m = .ok () m') ↔
        ¬m.Healthy i mark.val ∧ m.LiquidationRoom i maxQuantity mark.val) := by
  constructor
  · intro ctx maxQuantity m m' h
    obtain ⟨_, _, _, _, _, -, hl⟩ := liquidateV3_eq_ok h
    exact hl.shrunk_iff
  constructor
  · intro calls m m' h
    exact length_le_of_liquidations h
  · intro ctx maxQuantity m mark hk hmax ho
    exact liquidateV3_iff hk hmax ho

/-- Trader 7 buys one contract at 1000 from trader 8, and is liquidated at 500 several times. -/
def churnRun (times : ℕ) : List Action :=
  tradeRun 300 1 1000 ++
    List.replicate times (.liquidateV3 (call 3 500) 0 1)

theorem liquidation_progress_of_churnRun : ∃ m',
    liquidateV3 (call 3 500) 0 1 (genesis.after (churnRun 0)).live = .ok () m' ∧
    Shrunk ((genesis.after (churnRun 0)).live.seats 0).basePosition (m'.seats 0).basePosition := by
  have hr : liquidateV3 (call 3 500) 0 1
      (genesis.after (churnRun 0)).live = .ok () (finalState _) := eq_ok_of_isOk (by decide +kernel)
  exact ⟨_, hr, ((liquidation_progress 0).1 _ _ _ _ hr).2 (by decide +kernel)⟩

/-- The first liquidation closes the contract, the second one opens another, and the third one
closes it again. -/
theorem liquidation_goes_around : ∃ w₀, w₀.Initial ∧
    Run Action.Accepted w₀ (churnRun 3) (w₀.after (churnRun 3)) ∧
    ((w₀.after (churnRun 0)).live.seats 0).basePosition = 1 ∧
    ((w₀.after (churnRun 1)).live.seats 0).basePosition = 0 ∧
    ((w₀.after (churnRun 2)).live.seats 0).basePosition = 1 ∧
    ((w₀.after (churnRun 3)).live.seats 0).basePosition = 0 := by
  have hr : Run Action.Accepted genesis (churnRun 3) (genesis.after (churnRun 3)) :=
    run_accepted (by decide +kernel)
  exact ⟨genesis, genesis_initial, hr, by decide +kernel⟩

end Equinox
