import Equinox.Market.Turns
import Equinox.Market.Walks

/-! # What resting orders hold

A resting order holds a place, an exposure and a margin of its owner's seat. The
counters of every seat agree with the books in every reachable state. The margin
agrees with what the orders hold as long as partial fills split it without a
remainder and the margin rate changes only when that makes no difference.
-/

namespace Equinox

open Foundation CritBit PagedBookV3 Resting Maker Risk List

variable {a : Action} {as : List Action} {m m' : Market} {ctx : Context} {order : PlaceOrderData}
  {actions i bps : ℕ} {oracle : I64} {behavior : SelfTradeBehavior} {prepared : PreparedOrder}
  {uses : List (Maker × Use)} {side : Side} {tree : TreeKind} {leaf : LeafNode} {r : Resting}
  {k : OrderField}

def Resting.share (r : Resting) (bps i : ℕ) (k : OrderField) : ℤ :=
  if r.leaf.owner = i then
    orderShare true r.leaf.side r.leaf.quantity
      (bpsOf (r.leaf.quantity * r.reservePrice) bps) k
  else 0

def Market.held (m : Market) (bps i : ℕ) (k : OrderField) : ℤ :=
  ((m.orders .bid + m.orders .ask).map (·.share bps i k)).sum

def Market.excess (m : Market) (bps i : ℕ) (k : OrderField) : ℤ :=
  (m.seats i).ordered k - m.held bps i k

/-- The margin that a partial fill leaves behind: what is released for the filled part and what is
still to be released for the rest may together be less than what was reserved. -/
def marginLoss (bps : ℕ) : Maker × Use → ℤ
  | (x, .filled n) =>
    bpsOf (x.leaf.quantity * x.resting.reservePrice) bps -
      bpsOf ((x.leaf.quantity - n : ℕ) * x.resting.reservePrice) bps -
      bpsOf (n * x.resting.reservePrice) bps
  | _ => 0

def lossOf (bps i : ℕ) (u : Maker × Use) : ℤ := if u.1.leaf.owner = i then marginLoss bps u else 0

theorem Market.held_congr (h : m'.books = m.books) (bps i : ℕ) (k : OrderField) :
    m'.held bps i k = m.held bps i k := by
  unfold held orders
  rw [h]

theorem Market.held_of_ne_margin (hk : k ≠ .margin) (bps bps' : ℕ) :
    m.held bps i k = m.held bps' i k := by
  refine congrArg Multiset.sum (Multiset.map_congr rfl fun r _ => ?_)
  unfold share orderShare
  cases k <;> first | rfl | exact absurd rfl hk

/-! ## One use of a maker -/

/-- A use takes from the book what the fill or the cancellation gives back to the seats, but for
the margin that a partial fill loses. -/
theorem share_goneIn {x : Maker} {use : Use} {now : ℕ} (hx : x.resting.Valid side)
    (hpr : executablePrice x.leaf x.tree side (some oracle) now = some x.price)
    (hle : ∀ n, use = .filled n → n ≤ x.leaf.quantity) (bps i : ℕ) (k : OrderField) :
    ((goneIn (x, use)).map (·.share bps i k)).sum =
      ((leftIn (x, use)).map (·.share bps i k)).sum +
        (cancellationOf (x, use)).elim 0 (·.share bps i k) +
        (fillOf (x, use)).elim 0 (·.share side bps i k) +
        if k = .margin then lossOf bps i (x, use) else 0 := by
  have hr := hx.fillReservePrice_eq hpr
  have hs : x.leaf.side = side := hx.side_eq
  have ho : x.leaf.owner % 2 ^ 16 = x.leaf.owner := by
    have : x.leaf.owner < 128 := hx.owner_lt
    omega
  cases use with
  | passed => simp [goneIn, leftIn, cancellationOf, fillOf, lossOf, marginLoss]
  | cancelled =>
    simp only [goneIn, leftIn, cancellationOf, fillOf, lossOf, marginLoss, Option.elim,
      Multiset.map_singleton, Multiset.sum_singleton, Multiset.map_zero, Multiset.sum_zero,
      V3SelfTradeCancellation.share, toCancellation, ho, hr, ite_self, zero_add, add_zero]
    rfl
  | filled n =>
    have hn := hle n rfl
    by_cases hi : x.leaf.owner = i
    · by_cases ha : n = x.leaf.quantity
      · subst ha
        simp only [goneIn, leftIn, if_true, cancellationOf, fillOf, lossOf, marginLoss, Option.elim,
          Multiset.map_singleton, Multiset.sum_singleton, Multiset.map_zero, Multiset.sum_zero,
          V3Fill.share, toFill, hr, hi, share, resting, hs]
        cases k <;> simp [orderShare, bpsOf]
      · have hp : x.leaf.quantity - n ≠ 0 := by omega
        simp only [goneIn, leftIn, if_neg ha, cancellationOf, fillOf, lossOf, marginLoss,
          Option.elim, Multiset.map_singleton, Multiset.sum_singleton, V3Fill.share,
          toFill, hr, hi, share, resting, hs, hp, if_true]
        cases k with
        | count => simp [orderShare]
        | bid | ask =>
          simp only [orderShare]
          split
          · push_cast [hn]
            simp
          · simp
        | margin =>
          simp only [orderShare, reservePrice, if_true]
          ring
    · have hz : ((leftIn (x, .filled n)).map (·.share bps i k)).sum = 0 := by
        simp only [leftIn]
        split
        · rfl
        · simp [share, hi]
      rw [hz]
      simp [goneIn, cancellationOf, fillOf, lossOf, V3Fill.share, toFill, share, resting, hi]

namespace Market.Placed

variable (h : Market.Placed ctx order actions oracle behavior prepared uses m m') (hm : m.Valid)

include h hm

theorem share_uses (bps i : ℕ) (k : OrderField) :
    ((uses.map goneIn).sum.map (·.share bps i k)).sum =
      ((uses.map leftIn).sum.map (·.share bps i k)).sum +
        (prepared.plan.cancellations.map (·.share bps i k)).sum +
        (prepared.plan.fills.map (·.share prepared.side.opposite bps i k)).sum +
        if k = .margin then (uses.map (lossOf bps i)).sum else 0 := by
  rw [h.cancellations_eq, h.fills_eq, sum_map_filterMap, sum_map_filterMap, sum_map_sum,
    sum_map_sum]
  have hl : (if k = .margin then (uses.map (lossOf bps i)).sum else 0) =
      (uses.map fun u => if k = .margin then lossOf bps i u else 0).sum := by
    split <;> simp
  rw [hl, ← sum_map_add, ← sum_map_add, ← sum_map_add]
  congr 1
  refine map_congr_left fun u hu => ?_
  obtain ⟨x, use⟩ := u
  have hx := h.resting_mem hu
  have hp := (mem_makers_iff.1 (h.mem_makers hu)).2
  exact share_goneIn (hm.resting _ _ hx) hp
    (fun n hn => h.walk.filled_le (by rw [← hn]; exact hu)) bps i k

theorem share_rest (i : ℕ) (k : OrderField) :
    ((m'.orders prepared.side).map (·.share prepared.config.initialMarginBps i k)).sum =
      ((m.orders prepared.side).map (·.share prepared.config.initialMarginBps i k)).sum +
        prepared.restShare order i k := by
  rcases h.rested hm with ⟨hr, hb⟩ | ⟨hr, -, -, handle, ho⟩
  · rw [orders, hb]
    simp [PreparedOrder.restShare, hr, orders]
  · obtain ⟨_, _, -, hl, -⟩ := h.prepares.leaf_eq
    rw [ho, Multiset.map_cons, Multiset.sum_cons, add_comm]
    congr 1
    rw [share, h.prepares.reservePrice_eq, PreparedOrder.restShare, hl]
    simp only [hr, true_and]

theorem excess (i : ℕ) (k : OrderField) :
    m'.excess prepared.config.initialMarginBps i k =
      m.excess prepared.config.initialMarginBps i k +
        if k = .margin then (uses.map (lossOf prepared.config.initialMarginBps i)).sum
        else 0 := by
  obtain ⟨_, _, _, _, _, hex⟩ := h.executed
  have he := congrArg (fun s => (s.map
    (·.share prepared.config.initialMarginBps i k)).sum) (h.exchanged hm).2
  simp only [Multiset.map_add, Multiset.sum_add, h.share_uses hm] at he
  have hr := h.share_rest hm i k
  have hh (n : Market) : n.held prepared.config.initialMarginBps i k =
      ((n.orders prepared.side).map (·.share prepared.config.initialMarginBps i k)).sum +
        ((n.orders prepared.side.opposite).map
          (·.share prepared.config.initialMarginBps i k)).sum := by
    rw [held, ← n.orders_add prepared.side, Multiset.map_add, Multiset.sum_add]
  rw [Market.excess, Market.excess, hex.ordered, hh, hh, hr]
  omega

end Market.Placed

theorem v3OrderReserve_eq_ok {o : Option I64} {config : V3RiskConfig} {margin : ℤ} {handle : ℕ}
    (hr : Valid side ⟨tree, handle, leaf⟩)
    (h : v3OrderReserve leaf tree o config = .ok margin) :
    margin = bpsOf (leaf.quantity * reservePrice ⟨tree, handle, leaf⟩) config.initialMarginBps := by
  cases tree with
  | fixed =>
    simp only [v3OrderReserve, ok_rules] at h
    obtain ⟨_, rfl, -, hm⟩ := h
    exact reserveMargin_eq_ok hm
  | oraclePegged =>
    simp only [v3OrderReserve, ok_rules] at h
    obtain ⟨_, -, _, -, _, rfl, -, hm⟩ := h
    have hpos : 0 < leaf.reservePrice := hr.reserve_pos
    rw [reserveMargin_eq_ok hm]
    simp [storedV3ReservePrice, hpos, reservePrice]

theorem Market.Cancelled.exists_ordered (h : Market.Cancelled i side tree leaf m m') :
    ∃ margin, v3OrderReserve leaf tree (v3ReserveOracle m.core) m.core.config.effective =
      .ok margin ∧ ∀ j k, (m'.seats j).ordered k = (m.seats j).ordered k +
        if i = j then -orderShare true leaf.side leaf.quantity margin k else 0 := by
  obtain ⟨_, _, -, -, -, _, _, config, margin, released, -, hc, hma, hr, hl⟩ := h.found
  obtain ⟨-, -, -, -, rfl⟩ := readV3RiskConfig_eq_ok.1 hc
  refine ⟨margin, hma, fun j k => ?_⟩
  have ho := (TraderSeat.release_eq_ok hr).2 k
  rw [sub_eq_add_neg] at ho
  rw [hl.seats]
  exact Market.field_withSeat (f := (·.ordered k)) ho

/-- A cancellation gives back what the order holds. -/
theorem Market.Cancelled.excess (h : Market.Cancelled i side tree leaf m m') (hm : m.Valid)
    (j : ℕ) (k : OrderField) :
    m'.excess m.core.config.effective.initialMarginBps j k =
      m.excess m.core.config.effective.initialMarginBps j k := by
  obtain ⟨handle, hadd⟩ := h.orders_add hm
  obtain ⟨-, ha', hor⟩ := h.orders_eq hm
  have hv := hm.resting side _ (hor ▸ Multiset.mem_cons_self _ _)
  have how := h.owner_eq
  obtain ⟨margin, hma, hs⟩ := h.exists_ordered
  set bps := m.core.config.effective.initialMarginBps
  have hsh : share ⟨tree, handle, leaf⟩ bps j k =
      if i = j then orderShare true leaf.side leaf.quantity margin k else 0 := by
    rw [share, v3OrderReserve_eq_ok hv hma, how]
    rfl
  have hh : m.held bps j k = share ⟨tree, handle, leaf⟩ bps j k + m'.held bps j k := by
    rw [held, hadd, Multiset.map_cons, Multiset.sum_cons]
    rfl
  rw [Market.excess, Market.excess, hs, hh, hsh]
  split <;> omega

end Equinox
