import Equinox.Market.Liquidation
import Equinox.Market.OpenInterest
import Equinox.Market.Removal

/-! # Numbers of reachable markets

Positions stay within their fields, because every order projects the sizes of all of
them. A seat has no more orders than the books have slots.
-/

namespace Equinox

open Foundation CritBit PagedBookV3 List Market TraderSeat

variable {a : Action} {w w' w₀ : World} {as : List Action} {m m' : Market} {ctx : Context}
  {order : PlaceOrderData} {actions i : ℕ} {oracle : I64} {behavior : SelfTradeBehavior}
  {prepared : PreparedOrder} {uses : List (Maker × Use)} {config : V3RiskConfig} {b : PagedBookV3}

/-! ## Positions -/

/-- The positions fit their fields, and so do their sizes. -/
def Market.InRange (m : Market) : Prop := ∀ i < v3SeatCount, |(m.seats i).basePosition| < 2 ^ 127

theorem Market.Placed.inRange
    (h : Placed ctx order actions oracle behavior prepared uses m m') : m'.InRange := by
  obtain ⟨total, ht, -⟩ := h.prepares.projected
  obtain ⟨hlt, hsum⟩ := projectedV3OpenInterest_eq_ok ht
  intro i hi
  refine lt_of_le_of_lt ?_ (hsum ▸ hlt)
  rw [h.position, ← sum_moves, ← h.fills_eq]
  refine single_le_sum (fun x hx => ?_) _ (mem_map.2 ⟨i, mem_range.2 hi, rfl⟩)
  obtain ⟨j, -, rfl⟩ := mem_map.1 hx
  exact abs_nonneg _

theorem Market.InRange.of_eq (hm : m.InRange)
    (h : ∀ i, (m'.seats i).basePosition = (m.seats i).basePosition) : m'.InRange := by
  intro i hi
  rw [h]
  exact hm i hi

theorem Market.InRange.withSeat {seat : TraderSeat} (hm : m.InRange)
    (hf : seat.basePosition = 0) : (m.withSeat i seat).InRange := by
  intro j hj
  by_cases heq : j = i
  · rw [heq, seats_withSeat_self, hf]
    decide
  · rw [seats_withSeat_of_ne heq]
    exact hm j hj

theorem Market.Liquidated.abs_position_le {maxQuantity : ℕ} {mark fee : ℤ}
    {settled filled : TraderSeat}
    (h : Liquidated i maxQuantity mark config settled filled fee m m') :
    |(m'.seats i).basePosition| ≤ max |(m.seats i).basePosition| 1 := by
  have hpos := h.quantity_pos
  rw [h.quantity_eq] at hpos
  rw [h.position_eq]
  by_cases hf : (m.seats i).basePosition = 0
  · have ho : liquidationQuantity (m.seats i) maxQuantity ≤ 1 := by
      simp only [liquidationQuantity, hf]
      exact min_le_left _ _
    refine le_max_of_le_right ?_
    simp only [closingPosition, hf]
    rw [if_neg (lt_irrefl _), zero_add, abs_of_pos hpos]
    exact ho
  · exact le_max_of_le_left (shrunk_closing hpos (liquidationQuantity_le hf)).smaller.le

theorem World.Turn.inRange (h : w.Turn a w') (hs : w.live.Sound) (hw : w.live.InRange) :
    w'.live.InRange := by
  cases h with
  | opened _ _ logged | closed _ _ logged =>
    exact InRange.of_eq (hw.withSeat (by rfl)) fun i =>
      congrArg (fun seats => (seats i).basePosition) logged.seats
  | traded trades =>
    exact (trades.positions hs (P := InRange)
      (fun _ _ _ _ _ _ _ _ _ _ _ hp => hp.inRange) (fun _ _ hm heq _ => hm.of_eq heq) hw).2
  | @liquidated _ j _ _ _ _ _ _ _ _ hl =>
    intro i hi
    by_cases hj : i = j
    · subst hj
      exact hl.abs_position_le.trans_lt (max_lt (hw i hi) (by decide))
    · rw [hl.seats_of_ne hj]
      exact hw i hi
  | configured _ _ result | rolledBack result =>
    rw [result]
    exact hw
  | kept ho => exact hw.of_eq ho.position

theorem World.inRange_of_run (hi : w₀.Initial) (hr : Run Action.Accepted w₀ as w) :
    w.live.InRange := by
  have hb := hr.invariant (P := fun w => w.live.Sound ∧ w.live.InRange)
    ⟨hi.sound, fun i _ => by rw [hi.seats]; decide⟩ fun _ _ _ hw ha =>
      ⟨ha.step.turn.sound (ha.step.valid hw.1.valid) hw.1, ha.step.turn.inRange hw.1 hw.2⟩
  exact hb.2

/-! ## Orders of a seat -/

theorem PagedBookV3.WellFormed.length_leaves_le (hb : b.WellFormed) (tree : TreeKind) :
    (b.leaves tree).length ≤ bookSlotsPerSide := by
  have hsub : (b.leaves tree).map Prod.fst ⊆ range bookSlotsPerSide := by
    intro handle hh
    obtain ⟨⟨_, leaf⟩, hmem, rfl⟩ := mem_map.1 hh
    exact mem_range.2 ((hb.handle_lt_bump hmem).trans_le hb.bump_le)
  have hle := (subperm_of_subset (hb.handles_nodup tree) hsub).length_le
  rwa [length_map, length_range] at hle

theorem Market.Tradable.openOrderCount_lt (hm : m.Tradable) (i : ℕ) :
    (m.seats i).openOrderCount < 2 ^ 32 := by
  have ho (side : Side) (tree : TreeKind) :
      ((m.books side).owned tree i).length ≤ bookSlotsPerSide := by
    refine (length_filter_le _ _).trans ?_
    rw [length_map]
    exact (hm.valid.wellFormed side).length_leaves_le tree
  have hc := hm.ordered_eq i (k := .count) (by decide)
  rw [held_count] at hc
  simp only [ordered, owned, length_append] at hc
  have hb := ho .bid .fixed
  have hb' := ho .bid .oraclePegged
  have ha := ho .ask .fixed
  have ha' := ho .ask .oraclePegged
  unfold bookSlotsPerSide at hb hb' ha ha'
  omega

end Equinox
