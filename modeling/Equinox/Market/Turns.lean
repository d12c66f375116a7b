import Equinox.Market.Steps

/-! # Steps, as orders and positions see them

Most accepted actions touch no order, no position and no limit of the risk
configuration. What is left is opening and closing a seat, trading, liquidating,
configuring and rolling back.
-/

namespace Equinox

open Foundation CritBit

variable {a : Action} {w w' : World} {m m' : Market} {i : ℕ} {seat : TraderSeat}

/-- The orders and positions of all seats are as they were. -/
structure Market.SameHoldings (m m' : Market) : Prop where
  books : m'.books = m.books
  ordered : ∀ i k, (m'.seats i).ordered k = (m.seats i).ordered k
  position : ∀ i, (m'.seats i).basePosition = (m.seats i).basePosition
  occupancy : ∀ i, (m'.seats i).occupancy = (m.seats i).occupancy
  trader : ∀ i, (m'.seats i).trader = (m.seats i).trader

/-- The risk configuration is as it was, but for the recorded surplus. -/
structure Market.SameTerms (m m' : Market) : Prop where
  config : ∃ surplus, m'.core.config = { m.core.config with vaultSurplus := surplus }
  riskConfigVersion : m'.core.riskConfigVersion = m.core.riskConfigVersion

theorem Market.SameHoldings.of_eq (hb : m'.books = m.books) (hs : m'.seats = m.seats) :
    m.SameHoldings m' := ⟨hb, by simp [hs], by simp [hs], by simp [hs], by simp [hs]⟩

theorem Market.SameHoldings.withSeat (hb : m'.books = m.books)
    (hs : m'.seats = (m.withSeat i seat).seats)
    (hor : ∀ k, seat.ordered k = (m.seats i).ordered k)
    (hp : seat.basePosition = (m.seats i).basePosition)
    (ho : seat.occupancy = (m.seats i).occupancy)
    (ht : seat.trader = (m.seats i).trader) : m.SameHoldings m' := by
  have hfi {α : Type} (f : TraderSeat → α) (hf : f seat = f (m.seats i)) (j : ℕ) :
      f (m'.seats j) = f (m.seats j) := by
    rw [hs]
    by_cases hj : j = i
    · subst hj
      rw [seats_withSeat_self, hf]
    · rw [seats_withSeat_of_ne hj]
  exact ⟨hb, fun j k => hfi (·.ordered k) (hor k) j, hfi _ hp, hfi _ ho, hfi _ ht⟩

theorem Market.SameTerms.of_config_eq (hc : m'.core.config = m.core.config)
    (hv : m'.core.riskConfigVersion = m.core.riskConfigVersion) : m.SameTerms m' :=
  ⟨⟨m.core.config.vaultSurplus, hc⟩, hv⟩

theorem Market.Traded.sameTerms (h : m.Traded m') : m.SameTerms m' := by
  obtain ⟨_, _, _, _, -, -, -, hc⟩ := h.core
  exact .of_config_eq (by rw [hc]) (by rw [hc])

theorem Market.Debited.sameHoldings {amount : ℕ} (h : m.Debited i amount seat m') :
    m.SameHoldings { m.withSeat i seat with
      core := { m.core with vaultLiability := m.core.vaultLiability - amount } } := by
  obtain ⟨payment, hs⟩ := h.paid
  refine .withSeat rfl rfl (fun k => ?_) ?_ ?_ ?_
  · rw [hs]
    cases k <;> rfl
  all_goals rw [hs]

section Liquidated

variable {maxQuantity : ℕ} {mark fee : ℤ} {config : V3RiskConfig} {settled filled : TraderSeat}

section

variable (h : Market.Liquidated i maxQuantity mark config settled filled fee m m')

include h

theorem Market.Liquidated.ordered (j : ℕ)
    (k : OrderField) : (m'.seats j).ordered k = (m.seats j).ordered k := by
  by_cases hj : j = i
  · subst hj
    obtain ⟨state, hs⟩ := h.seats_self
    rw [hs, ← h.dealt.ordered k]
    cases k <;> rfl
  · rw [h.seats_of_ne hj]

theorem Market.Liquidated.books : m'.books = m.books := by
  obtain ⟨_, hl⟩ := h.result
  exact hl.books

theorem Market.Liquidated.sameTerms : m.SameTerms m' := by
  obtain ⟨_, ⟨_, hc⟩, -⟩ := h.result
  exact .of_config_eq (by rw [hc]) (by rw [hc])

end

end Liquidated

/-- What a step means for orders and positions. -/
inductive World.Turn (w : World) : Action → World → Prop
  | opened {ctx : Context} {i : ℕ} {w' : World} (index : i < v3SeatCount)
    (vacant : (w.live.seats i).occupancy = false)
    (logged : (w.live.withSeat i
      (TraderSeat.opened ctx.signer w.live.core.globalEventSequence)).Logged w'.live) :
    Turn w (.createTraderSeat ctx i) w'
  | closed {ctx : Context} {i : ℕ} {w' : World} (index : i < v3SeatCount)
    (closable : (w.live.seats i).canClose = true)
    (logged : (w.live.withSeat i TraderSeat.empty).Logged w'.live) :
    Turn w (.closeTraderSeat ctx i) w'
  | traded {a : Action} {w' : World} (trades : a.Trades w.live w'.live) : Turn w a w'
  | liquidated {ctx : Context} {i maxQuantity : ℕ} {mark : I64} {fee : ℤ} {config : V3RiskConfig}
    {settled filled : TraderSeat} {w' : World}
    (price : oraclePriceAfterFreshness ctx w.live.core = .ok mark)
    (liquidated : Market.Liquidated i maxQuantity mark.val config settled filled fee w.live
      w'.live) : Turn w (.liquidateV3 ctx i maxQuantity) w'
  | configured {ctx : Context} {config : V3RiskConfig} {w' : World} (bounds : config.InBounds)
    (readable : ∃ old, readV3RiskConfig w.live.core = .ok old)
    (result : w'.live = { w.live with core := { w.live.core with
      config := config, riskConfigVersion := v3RiskConfigVersion } }) :
    Turn w (.updateV3RiskConfig ctx config) w'
  | rolledBack {w' : World}
    (result : w'.live = { w.live with core := w.l1.core.rolledBack }) :
    Turn w .rollbackV3Undelegation w'
  | kept {a : Action} {w' : World} (holdings : w.live.SameHoldings w'.live)
    (terms : w.live.SameTerms w'.live)
    (openInterest : w'.live.core.currentOpenInterest = w.live.core.currentOpenInterest)
    (orderSequence : w'.live.core.globalOrderSequence = w.live.core.globalOrderSequence) :
    Turn w a w'

theorem World.Turn.of_logged {m : Market} {surplus : ℤ} (h : m.Logged w'.live)
    (ho : w.live.SameHoldings m)
    (hco : m.core.config = { w.live.core.config with vaultSurplus := surplus })
    (hv : m.core.riskConfigVersion = w.live.core.riskConfigVersion)
    (hop : m.core.currentOpenInterest = w.live.core.currentOpenInterest)
    (hse : m.core.globalOrderSequence = w.live.core.globalOrderSequence) : w.Turn a w' := by
  obtain ⟨⟨_, hc⟩, hb, hs, -⟩ := h
  refine .kept ⟨hb.trans ho.books, ?_, ?_, ?_, ?_⟩ ⟨⟨surplus, ?_⟩, ?_⟩ ?_ ?_
  · exact fun i k => by rw [hs, ho.ordered]
  · exact fun i => by rw [hs, ho.position]
  · exact fun i => by rw [hs, ho.occupancy]
  · exact fun i => by rw [hs, ho.trader]
  · rw [hc, ← hco]
  · rw [hc, ← hv]
  · rw [hc, ← hop]
  · rw [hc, ← hse]

theorem World.Step.turn (h : w.Step a w') : w.Turn a w' := by
  cases h with
  | opened index _ vacant logged => exact .opened index vacant logged
  | closed index closable logged => exact .closed index closable logged
  | traded trades => exact .traded trades
  | liquidated price hl => exact .liquidated price hl
  | configured bounds readable => exact .configured bounds readable rfl
  | rolledBack => exact .rolledBack rfl
  | deposited _ _ logged =>
    refine .of_logged logged (.withSeat rfl rfl (fun k => ?_) rfl rfl rfl) rfl rfl rfl rfl
    cases k <;> rfl
  | credited _ _ _ _ _ logged =>
    refine .of_logged logged (.withSeat rfl rfl (fun k => ?_) rfl rfl rfl) rfl rfl rfl rfl
    cases k <;> rfl
  | withdrawn _ debited => exact .of_logged debited.logged debited.sameHoldings rfl rfl rfl rfl
  | requested _ _ debited => exact .of_logged debited.logged debited.sameHoldings rfl rfl rfl rfl
  | kept _ same =>
    exact .kept (.of_eq same.books same.seats) (.of_config_eq same.config same.riskConfigVersion)
      same.currentOpenInterest same.globalOrderSequence
  | reconciled logged => exact .of_logged logged (.of_eq rfl rfl) rfl rfl rfl rfl
  | inboxed | paid | copiedShard | copiedCore | donated =>
    exact .kept (.of_eq rfl rfl) (.of_config_eq rfl rfl) rfl rfl

end Equinox
