import Equinox.Foundation.Sums
import Equinox.Market.Liquidation

/-! # Bad debt

A liquidation adds to the bad debt all that the seat then owes beyond its equity,
and leaves the seat as it is. What a run of liquidations of one seat has added is
therefore the greatest deficit of the seat only if one of them found it short.
-/

namespace Equinox

open Foundation List World

variable {m m' : Market} {w w₀ : World} {a : Action} {as : List Action} {i maxQuantity : ℕ}
  {mark : ℤ}

/-! ## One liquidation -/

/-- What a seat is worth at a mark with its funding settled, its entry value counted also when it is
flat. -/
def Market.bookValue (m : Market) (i : ℕ) (mark : ℤ) : ℤ :=
  (m.seats i).availableCollateral + (m.seats i).realizedPnl -
    (m.seats i).fundingOwed m.core.fundingAccumulator +
    ((m.seats i).basePosition * mark - (m.seats i).quoteEntryValue)

def Market.ShortAt (m : Market) (i maxQuantity : ℕ) (mark : ℤ) : Prop :=
  m.bookValue i mark < m.liquidationFee i maxQuantity mark

instance (m : Market) (i maxQuantity : ℕ) (mark : ℤ) : Decidable (m.ShortAt i maxQuantity mark) :=
  inferInstanceAs (Decidable (_ < _))

section Liquidated

variable {fee : ℤ} {config : V3RiskConfig} {settled filled : TraderSeat}
  (h : Market.Liquidated i maxQuantity mark config settled filled fee m m')

include h

theorem Market.Liquidated.value_seat :
    (m'.seats i).value mark = m.bookValue i mark - m.liquidationFee i maxQuantity mark := by
  obtain ⟨payment, hs⟩ := h.settled_eq
  obtain ⟨hp, hse⟩ := Risk.settleFunding_eq_ok hs
  obtain ⟨-, -, e, r, moved, hf⟩ := Risk.applyFill_eq_ok h.filled_eq
  obtain ⟨state, hseat⟩ := h.seats_self
  have hpo : settled.basePosition = (m.seats i).basePosition := by rw [hse]
  have hfl : filled.Consistent := by
    intro h0
    rw [hf] at h0 ⊢
    by_cases ho : settled.basePosition = 0
    · -- a flat seat does not stay flat
      have hpos := h.quantity_pos
      have hn : ¬0 < (m.seats i).basePosition := by rw [← hpo, ho]; exact lt_irrefl 0
      simp only [ho, hn, if_false, zero_add] at h0
      omega
    · exact moved.flat (fun h => absurd h ho) h0
  have hv : (m'.seats i).value mark = filled.value mark := by rw [hseat]; rfl
  rw [hv, hfl.value_eq, ← h.fee_eq, hf, moved.entry, hse]
  simp only [bookValue, TraderSeat.fundingOwed, ← hp]
  ring

theorem Market.Liquidated.badDebt_eq :
    m'.core.badDebt - m.core.badDebt = max 0 (-(m'.seats i).value mark) := by
  obtain ⟨state, hs⟩ := h.seats_self
  obtain ⟨_, ⟨_, hc⟩, -⟩ := h.result
  have hv : (m'.seats i).value mark = filled.value mark := by rw [hs]; rfl
  rw [hv, hc]
  dsimp only
  split <;> omega

end Liquidated

/-! ## All liquidations of a seat -/

/-- What one liquidation of a seat did: how much bad debt it added, the equity it left at its mark,
and whether it found the seat short. -/
structure LiquidationRecord where
  increase : ℤ
  equity : ℤ
  short : Bool
  deriving DecidableEq

def Action.liquidations (i : ℕ) (a : Action) (w w' : World) (log : List LiquidationRecord) :
    List LiquidationRecord :=
  match a with
  | liquidateV3 ctx j maxQuantity =>
    match oraclePriceAfterFreshness ctx w.live.core with
    | .ok mark =>
      if j = i then log ++ [{
        increase := w'.live.core.badDebt - w.live.core.badDebt
        equity := (w'.live.seats i).value mark.val
        short := decide (w.live.ShortAt i maxQuantity mark.val) }]
      else log
    | .error _ => log
  | _ => log

/-- The greatest deficit among equities: the lowest of them below zero, or nothing. -/
def deficit (equities : List ℤ) : ℤ := equities.foldr (fun equity worst => max (-equity) worst) 0

/-- A record is that of an accepted call. -/
structure LiquidationRecord.Accounted (r : LiquidationRecord) : Prop where
  increase : r.increase = max 0 (-r.equity)
  short : r.short = true ↔ r.equity < 0

variable {log : List LiquidationRecord}

theorem Action.accounted_liquidations {w' : World}
    (hl : ∀ r ∈ log, r.Accounted) (h : a.Accepted w w') :
    ∀ r ∈ a.liquidations i w w' log, r.Accounted := by
  cases a
  case liquidateV3 ctx j maxQuantity =>
    obtain ⟨m, hm, rfl⟩ := h.of_handler rfl
    obtain ⟨mark, _, _, _, _, hma, hliq⟩ := liquidateV3_eq_ok hm
    simp only [liquidations, hma]
    split
    · rename_i hj
      subst hj
      intro r hr
      rcases mem_append.1 hr with hr | hr
      · exact hl r hr
      · obtain rfl := mem_singleton.1 hr
        constructor
        · exact hliq.badDebt_eq
        · change decide _ = true ↔ (m.seats j).value mark.val < 0
          rw [decide_eq_true_iff, hliq.value_seat, Market.ShortAt, sub_neg]
    · exact hl
  all_goals exact hl

theorem deficit_eq (h : ∀ r ∈ log, r.Accounted) :
    deficit (log.map (·.equity)) = (log.map (·.increase)).foldr max 0 := by
  induction log with
  | nil => rfl
  | cons r log ih =>
    have hr := (h r mem_cons_self).increase
    have hl := ih fun r' hr' => h r' (mem_cons_of_mem r hr')
    have hn := foldr_max_nonneg (log.map (·.increase))
    rw [deficit, map_cons, map_cons, foldr_cons, foldr_cons, ← deficit, hl, hr]
    omega

theorem length_filter_short (h : ∀ r ∈ log, r.Accounted) :
    ((log.map (·.increase)).filter (0 < ·)).length = (log.filter (·.short)).length := by
  rw [filter_map, length_map]
  congr 1
  apply filter_congr
  intro r hr
  obtain ⟨hi, hs⟩ := h r hr
  rw [Bool.eq_iff_iff, hs, Function.comp_apply, decide_eq_true_iff, hi]
  omega

/-- The liquidations of a seat in a run add no more bad debt than its greatest deficit exactly when
at most one of them found the seat short. -/
theorem badDebt_counted_once_iff {log : List LiquidationRecord} (i : ℕ)
    (hrun : Run (noting Action.Accepted (Action.liquidations i)) (w₀, []) as (w, log)) :
    (log.map (·.increase)).sum ≤ deficit (log.map (·.equity)) ↔
      (log.filter (·.short)).length ≤ 1 := by
  have hl : ∀ r ∈ log, r.Accounted := by
    apply hrun.invariant (P := fun s : World × List LiquidationRecord => ∀ r ∈ s.2, r.Accounted)
    · simp
    · rintro a ⟨w, log⟩ ⟨w', log'⟩ hl ⟨ha, hn⟩
      rw [← show a.liquidations i w w' log = log' from hn]
      exact Action.accounted_liquidations hl ha
  rw [deficit_eq hl, ← length_filter_short hl]
  apply sum_le_foldr_max_iff
  intro increase hmem
  obtain ⟨r, hr, rfl⟩ := mem_map.1 hmem
  rw [(hl r hr).increase]
  exact le_max_left _ _

/-- Trader 7 buys ten contracts at 1000, and is liquidated at a lower mark several times. -/
def crashRun (mark : I64) (times : ℕ) : List Action :=
  tradeRun 2500 10 1000 ++
    replicate times (.liquidateV3 (call 3 mark) 0 10)

/-- The first of two calls at 752 leaves the seat solvent. -/
theorem badDebt_counted_once_of_crashRun :
    genesis.noted (Action.liquidations 0) [] (crashRun 752 2) =
      [{ increase := 0, equity := 2, short := false },
        { increase := 5, equity := -5, short := true }] ∧
    ((genesis.noted (Action.liquidations 0) [] (crashRun 752 2)).map
        (·.increase)).sum ≤
      deficit ((genesis.noted (Action.liquidations 0) [] (crashRun 752 2)).map (·.equity)) := by
  have hr : Run (noting Action.Accepted (Action.liquidations 0)) (genesis, [])
      (crashRun 752 2) (genesis.after (crashRun 752 2),
        genesis.noted (Action.liquidations 0) [] (crashRun 752 2)) :=
    run_noted_accepted (by decide +kernel)
  exact ⟨by decide +kernel, (badDebt_counted_once_iff 0 hr).2 (by decide +kernel)⟩

/-- Two calls at 500 add the whole deficit each. -/
theorem badDebt_counted_twice : ∃ w₀ log, w₀.Initial ∧
    Run (noting Action.Accepted (Action.liquidations 0)) (w₀, []) (crashRun 500 2)
      (w₀.after (crashRun 500 2), log) ∧
    log.map (·.increase) = [2512, 2517] ∧ deficit (log.map (·.equity)) = 2517 := by
  have hr : Run (noting Action.Accepted (Action.liquidations 0)) (genesis, [])
      (crashRun 500 2) (genesis.after (crashRun 500 2),
        genesis.noted (Action.liquidations 0) [] (crashRun 500 2)) :=
    run_noted_accepted (by decide +kernel)
  exact ⟨genesis, _, genesis_initial, hr, by decide +kernel⟩

end Equinox
