import Equinox.Custody.Runs
import Equinox.Market.Margin
import Equinox.Market.Replacing

/-! # Reachable markets

What holds of the seats and the orders of a market after any accepted instructions,
and how such a run looks to a custodian.
-/

namespace Equinox

open Foundation CritBit World Market

variable {w₀ w : World} {as : List Action}

/-- Every run is a run of the abstract custodian. Nobody holds two seats, and nobody is paid more
than they requested. -/
theorem run_refines_custody (hi : w₀.Initial) (hr : Run Action.Accepted w₀ as w) :
    Run (fun a => Custody.Step v3SeatCount (Action.event a)) w₀.custody as w.custody ∧
    (∀ i j, (w.live.seats i).occupancy = true → (w.live.seats j).occupancy = true →
      (w.live.seats i).trader = (w.live.seats j).trader → i = j) ∧
    ∀ trader, w.total .withdrawalPaid trader ≤ w.total .withdrawalRequested trader := by
  obtain ⟨t, hrun, rfl, hw⟩ := hr.simulate (R := fun w s => w.custody = s ∧ w.Custodial)
    ⟨rfl, hi.custodial⟩ fun a w w' s ⟨hs, hw⟩ ha =>
      ⟨w'.custody, hs ▸ ha.step.custody hw.accounted, rfl, hw.step ha.step⟩
  refine ⟨hrun, fun i j ho ho' ht => ?_, hw.covered.paid⟩
  refine hw.held.unique i j (w.live.seats i).trader (TraderSeat.holder_of_occupied ho) ?_
  rw [ht]
  exact TraderSeat.holder_of_occupied ho'

theorem run_refines_custody_of_withdrawal :
    let as := requestRun (call 7 1) (call 3 1) 100 ++ [.claimWithdrawalV3 (call 7 1) 0]
    Run (fun a => Custody.Step v3SeatCount (Action.event a)) genesis.custody as
      (genesis.after as).custody ∧
    (genesis.after as).total .withdrawalPaid 7 = 100 ∧
    100 ≤ (genesis.after as).total .withdrawalRequested 7 := by
  intro as
  obtain ⟨hr, -, hp⟩ := run_refines_custody genesis_initial
    (w := genesis.after as) (run_accepted (by decide +kernel))
  have ht : (genesis.after as).total .withdrawalPaid 7 = 100 := by decide +kernel
  exact ⟨hr, ht, ht ▸ hp 7⟩

/-- No collateral of a reachable market is negative, a seat keeps no entry value without a position
and no position or order without an owner, and its numbers fit their fields. -/
theorem seats_of_run (hi : w₀.Initial) (hr : Run Action.Accepted w₀ as w) (i : ℕ) :
    0 ≤ (w.live.seats i).availableCollateral ∧
    ((w.live.seats i).basePosition = 0 → (w.live.seats i).quoteEntryValue = 0) ∧
    (i < v3SeatCount → |(w.live.seats i).basePosition| < 2 ^ 127) ∧
    (∀ k ≠ .count, InI128 ((w.live.seats i).ordered k)) ∧
    ((w.live.seats i).occupancy = false → (w.live.seats i).basePosition = 0 ∧
      (w.live.seats i).openOrderCount = 0) := by
  have hs := sound_of_run hi hr
  refine ⟨collateral_nonneg_of_run hi hr i, consistent_of_run hi hr i, inRange_of_run hi hr i,
    ((stored_of_run hi hr).seats i).range, fun hv => ⟨hs.vacant i hv, ?_⟩⟩
  -- Every order has an occupied owner, so a vacant seat owns none.
  have hn (side : Side) : w.live.owned side i = [] := owned_eq_nil_iff.2 fun r hm ho => by
      have := hs.agrees.occupied side r hm
      simp [ho, hv] at this
  have hc : ((w.live.seats i).openOrderCount : ℤ) - w.live.held 0 i .count = 0 :=
    hs.agrees.counted i .count (by decide)
  rw [held_eq_zero hn] at hc
  omega

/-- The buyer of ten, and a seat that nobody took. -/
theorem seats_of_tradeRun :
    let m := (genesis.after (tradeRun 2500 10 1000)).live
    (m.seats 0).basePosition = 10 ∧ 0 ≤ (m.seats 0).availableCollateral ∧
    |(m.seats 0).basePosition| < 2 ^ 127 ∧ (∀ k ≠ .count, InI128 ((m.seats 0).ordered k)) ∧
    (m.seats 2).quoteEntryValue = 0 ∧ (m.seats 2).basePosition = 0 ∧
    (m.seats 2).openOrderCount = 0 := by
  have hr : Run Action.Accepted genesis (tradeRun 2500 10 1000) _ :=
    run_accepted (by decide +kernel)
  obtain ⟨hc, -, hp, ho, -⟩ := seats_of_run genesis_initial hr 0
  obtain ⟨-, he, -, -, hv⟩ := seats_of_run genesis_initial hr 2
  obtain ⟨hz, hn⟩ := hv (by decide +kernel)
  exact ⟨by decide +kernel, hc, hp (by decide), ho, he hz, hz, hn⟩

/-- The books of a reachable market are well formed. An order has an owner, a quantity, a price to
reserve at and a key that ends in its sequence, which no other order has and which, on a market
with a configuration, was handed out. -/
theorem orders_of_run (hi : w₀.Initial) (hr : Run Action.Accepted w₀ as w) :
    (∀ side, (w.live.books side).WellFormed) ∧
    (∀ side, ∀ r ∈ w.live.orders side, r.leaf.side = side ∧ 0 < r.leaf.quantity ∧
      0 < r.reservePrice ∧ (w.live.seats r.leaf.owner).occupancy = true ∧
      r.leaf.key.val % 2 ^ 64 = r.leaf.sequence ∧
      (w.live.core.riskConfigVersion = v3RiskConfigVersion →
        r.leaf.sequence ≤ w.live.core.globalOrderSequence)) ∧
    ((w.live.orders .bid + w.live.orders .ask).map fun r => r.leaf.sequence).Nodup := by
  have hv := valid_of_run hi hr
  refine ⟨hv.wellFormed, fun side r hm => ?_, hv.distinct⟩
  have h := hv.resting side r hm
  exact ⟨h.side_eq, Nat.pos_of_ne_zero h.quantity_ne, h.reserve_pos,
    (agrees_of_run hi hr).occupied side r hm, h.keyed, fun hc => hv.below hc side r hm⟩

/-- A bid of which two are left. -/
theorem orders_of_restingRun :
    let m := (genesis.after restingRun).live
    (∀ side, (m.books side).WellFormed) ∧
    (∃ r ∈ m.orders .bid, r.leaf.quantity = 2 ∧ r.leaf.side = .bid ∧ 0 < r.reservePrice ∧
      (m.seats r.leaf.owner).occupancy = true ∧ r.leaf.key.val % 2 ^ 64 = r.leaf.sequence ∧
      r.leaf.sequence ≤ m.core.globalOrderSequence) ∧
    ((m.orders .bid + m.orders .ask).map fun r => r.leaf.sequence).Nodup := by
  have hr : Run Action.Accepted genesis restingRun (genesis.after restingRun) :=
    run_accepted (by decide +kernel)
  have hc : (genesis.after restingRun).live.core.riskConfigVersion = v3RiskConfigVersion := by
    decide +kernel
  have hl : ∃ leaf ∈ (genesis.after restingRun).live.owned .bid 0, leaf.quantity = 2 := by
    decide +kernel
  generalize genesis.after restingRun = w at hr hc hl ⊢
  obtain ⟨leaf, hl, hq⟩ := hl
  obtain ⟨-, r, hm, rfl⟩ := mem_owned_iff.1 hl
  obtain ⟨hw, hrest, hn⟩ := orders_of_run genesis_initial hr
  obtain ⟨hs, -, hp, ho, hk, hle⟩ := hrest .bid r hm
  exact ⟨hw, ⟨r, hm, hq, hs, hp, ho, hk, hle hc⟩, hn⟩

end Equinox
