import Equinox.Market.Agreement
import Equinox.Market.Ledgers

/-! # Reserved margin

A seat reserves what its orders hold, in every run whose partial fills and changes
of the margin rate lose nothing. Then a seat without orders reserves nothing, and
a flat one can be closed.
-/

namespace Equinox

open Foundation CritBit PagedBookV3 World Market TraderSeat Multiset

variable {a : Action} {w w' w₀ : World} {as : List Action} {m m' : Market} {ctx : Context}
  {order : PlaceOrderData} {actions i : ℕ} {oracle : I64} {behavior : SelfTradeBehavior}
  {prepared : PreparedOrder} {uses : List (Maker × Use)} {side : Side} {tree : TreeKind}
  {leaf : LeafNode} {seat : TraderSeat}

/-- Every seat reserves what its orders hold, at the rate in force. A core that was rolled back has
no rate, and the last one still accounts for what is reserved. -/
def Market.Reserved (m : Market) : Prop :=
  ∃ bps, (m.core.riskConfigVersion = v3RiskConfigVersion →
    bps = m.core.config.effective.initialMarginBps) ∧ ∀ i, m.excess bps i .margin = 0

/-- No partial fill loses margin, and a new margin rate leaves what the orders of each seat hold
unchanged. -/
def Action.KeepsMargin (m : Market) : Action → Prop
  | updateV3RiskConfig _ config => ∀ i < v3SeatCount,
    m.held config.effective.initialMarginBps i .margin =
      m.held m.core.config.effective.initialMarginBps i .margin
  | a => ∀ u ∈ a.uses m, marginLoss m.core.config.effective.initialMarginBps u = 0

instance (m : Market) (a : Action) : Decidable (a.KeepsMargin m) := by
  unfold Action.KeepsMargin
  split <;> infer_instance

theorem Market.SameTerms.effective_eq (h : m.SameTerms m') :
    m'.core.config.effective.initialMarginBps = m.core.config.effective.initialMarginBps := by
  obtain ⟨_, hc⟩ := h.config
  rw [hc]
  rfl

section

variable (hm : m.Reserved)

include hm

theorem Market.Reserved.of_excess_eq (ht : m.SameTerms m')
    (he : ∀ bps, (m.core.riskConfigVersion = v3RiskConfigVersion →
      bps = m.core.config.effective.initialMarginBps) → ∀ i, m.excess bps i .margin = 0 →
        m'.excess bps i .margin = 0) : m'.Reserved := by
  obtain ⟨bps, hb, hz⟩ := hm
  refine ⟨bps, fun hv => ?_, fun i => he bps hb i (hz i)⟩
  rw [ht.effective_eq]
  exact hb (ht.riskConfigVersion ▸ hv)

theorem Market.Reserved.of_ordered_eq (ht : m.SameTerms m')
    (hb : m'.books = m.books)
    (ho : ∀ i k, (m'.seats i).ordered k = (m.seats i).ordered k) : m'.Reserved := by
  refine hm.of_excess_eq ht fun bps _ i hz => ?_
  rw [excess, ho, held_congr hb]
  exact hz

theorem Market.Reserved.withSeat (hn : ∀ side, m.owned side i = [])
    (hs : ∀ k, seat.ordered k = 0) (h : (m.withSeat i seat).Logged m') : m'.Reserved := by
  obtain ⟨⟨_, hc⟩, hb, hse, -⟩ := h
  refine hm.of_excess_eq (.of_config_eq (by rw [hc]; rfl) (by rw [hc]; rfl)) fun bps _ j hz => ?_
  rw [excess, hse, held_congr (m := m) hb]
  by_cases hj : j = i
  · subst hj
    rw [seats_withSeat_self, hs, held_eq_zero hn, sub_zero]
  · rw [seats_withSeat_of_ne hj]
    exact hz

theorem Market.Reserved.cancelled (hv : m.Valid)
    (h : Cancelled i side tree leaf m m') : m'.Reserved := by
  refine hm.of_excess_eq h.traded.sameTerms fun bps hb j hz => ?_
  have hve : m.core.riskConfigVersion = v3RiskConfigVersion := by
    obtain ⟨_, _, -, -, -, _, _, _, _, _, -, hc, -⟩ := h.found
    exact (readV3RiskConfig_eq_ok.1 hc).1
  rw [hb hve] at hz ⊢
  rw [h.excess hv, hz]

theorem Market.Reserved.sameLedgers (h : m.SameLedgers m') : m'.Reserved :=
  hm.of_ordered_eq h.traded.sameTerms h.books (by simp [h.seats])

theorem Market.Reserved.placed (hv : m.Valid)
    (h : Placed ctx order actions oracle behavior prepared uses m m')
    (hl : ∀ u ∈ uses, marginLoss m.core.config.effective.initialMarginBps u = 0) : m'.Reserved := by
  refine hm.of_excess_eq h.traded.sameTerms fun bps hb j hz => ?_
  obtain ⟨-, -, -, -, hc⟩ := readV3RiskConfig_eq_ok.1 h.prepares.config
  rw [hb h.version_eq, hc] at hz ⊢
  rw [hc] at hl
  rw [h.excess hv, hz, if_pos rfl, zero_add]
  refine List.sum_eq_zero fun x hx => ?_
  obtain ⟨u, hu, rfl⟩ := List.mem_map.1 hx
  rw [lossOf, hl u hu, ite_self]

theorem Market.Reserved.cleared {replaced : Option Key} (hv : m.Valid)
    (h : Cleared m i replaced m') : m'.Reserved := by
  cases h with
  | unchanged => exact hm
  | cancelled cancel same => exact (hm.cancelled hv cancel).sameLedgers same

end

theorem Action.Trades.reserved (h : a.Trades m m') (hv : m.Valid) (hm : m.Reserved)
    (ha : a.KeepsMargin m) : m'.Reserved := by
  cases ho : a.ordering with
  | none =>
    refine (h.cancelling (P := fun m => m.Valid ∧ m.Reserved) ho
      (fun _ _ _ _ _ _ hm₁ hc => ⟨hc.valid hm₁.1, hm₁.2.cancelled hm₁.1 hc⟩)
      (fun _ _ hm₁ hs => ⟨hs.valid hm₁.1, hm₁.2.sameLedgers hs⟩) ⟨hv, hm⟩).2
  | some ordering =>
    obtain ⟨ctx, order, replaced⟩ := ordering
    obtain ⟨m₁, _, _, _, _, uses, hcl, hp, hus⟩ := h.ordered hv ho
    refine (hm.cleared hv hcl).placed (hcl.valid hv) hp fun u hu => ?_
    rw [hcl.traded.sameTerms.effective_eq]
    rw [← hus] at hu
    cases h with
    | placed | cancelled | cancelledAll | replaced => exact ha u hu

theorem Market.Valid.owned_eq_nil (hm : m.Valid) (hi : v3SeatCount ≤ i) (side : Side) :
    m.owned side i = [] := by
  refine owned_eq_nil_iff.2 fun r hr ho => ?_
  have := (hm.resting side r hr).owner_lt
  omega

theorem World.Turn.reserved (h : w.Turn a w') (hv : w.live.Valid) (hag : w.live.Agrees)
    (hw : w.live.Reserved) (ha : a.KeepsMargin w.live) : w'.live.Reserved := by
  cases h with
  | opened _ vacant logged =>
    exact hw.withSeat (hag.owned_eq_nil_of_vacant vacant) (ordered_opened _ _) logged
  | closed _ closable logged =>
    exact hw.withSeat (hag.owned_eq_nil_of_count (canClose_eq_true closable).1) ordered_empty logged
  | traded trades => exact trades.reserved hv hw ha
  | liquidated _ hl => exact hw.of_ordered_eq hl.sameTerms hl.books hl.ordered
  | @configured _ config _ _ readable result =>
    obtain ⟨bps, hb, hz⟩ := hw
    obtain ⟨_, hre⟩ := readable
    have hr := hb (readV3RiskConfig_eq_ok.1 hre).1
    rw [result]
    refine ⟨config.effective.initialMarginBps, fun _ => rfl, fun i => ?_⟩
    have hh : w.live.held config.effective.initialMarginBps i .margin =
        w.live.held w.live.core.config.effective.initialMarginBps i .margin := by
      by_cases hi : i < v3SeatCount
      · exact ha i hi
      · have hn := hv.owned_eq_nil (not_lt.1 hi)
        rw [held_eq_zero hn, held_eq_zero hn]
    have hi := hz i
    rw [hr, excess, ← hh] at hi
    exact hi
  | rolledBack result =>
    obtain ⟨bps, -, hz⟩ := hw
    rw [result]
    refine ⟨bps, fun hv => ?_, hz⟩
    simp [MarketCore.rolledBack, MarketCore.blank, v3RiskConfigVersion] at hv
  | kept ho terms => exact hw.of_ordered_eq terms ho.books ho.ordered

theorem TraderSeat.Changed.collateral_nonneg {seat' : TraderSeat} (h : seat.Changed seat')
    (hs : 0 ≤ seat.availableCollateral) : 0 ≤ seat'.availableCollateral := by
  cases h with
  | opened | closed => exact le_rfl
  | moved _ _ collateral => exact collateral hs
  | traded claims => rwa [claims.availableCollateral]

theorem World.collateral_nonneg_of_run (hi : w₀.Initial) (hr : Run Action.Accepted w₀ as w)
    (i : ℕ) : 0 ≤ (w.live.seats i).availableCollateral := by
  refine hr.invariant (P := fun w => ∀ i, 0 ≤ (w.live.seats i).availableCollateral)
    (fun i => ?_) (fun a t u ht ha i => (ha.step.changed i).collateral_nonneg (ht i)) i
  rw [hi.seats]
  exact le_rfl

theorem Market.Valid.held_margin_nonneg (hm : m.Valid) (bps i : ℕ) : 0 ≤ m.held bps i .margin := by
  refine sum_nonneg fun x hx => ?_
  obtain ⟨r, hr, rfl⟩ := mem_map.1 hx
  have hpos : 0 < r.reservePrice := by
    rcases mem_add.1 hr with hr | hr
    · exact (hm.resting _ r hr).reserve_pos
    · exact (hm.resting _ r hr).reserve_pos
  unfold Resting.share
  split
  · exact Risk.bpsOf_nonneg (by positivity)
  · exact le_rfl

/-- In every run whose steps lose no margin, reserved margin is never negative and is zero for a
seat without orders, which can then be closed once it is flat. -/
theorem reservedMargin_released (hinit : w₀.Initial)
    (hrun : Run (fun a w w' => a.Accepted w w' ∧ a.KeepsMargin w.live) w₀ as w) (i : ℕ) :
    0 ≤ (w.live.seats i).reservedMargin ∧
      ((∀ side tree, (w.live.books side).owned tree i = []) →
        (w.live.seats i).reservedMargin = 0 ∧
        ((w.live.seats i).occupancy = true → (w.live.seats i).basePosition = 0 →
          (w.live.seats i).canClose = true)) := by
  have hac := hrun.mono fun _ _ _ => And.left
  obtain ⟨hv, hag, bps, -, hz⟩ := hrun.invariant
    (P := fun w => w.live.Valid ∧ w.live.Agrees ∧ w.live.Reserved)
    ⟨hinit.valid, hinit.agrees, w₀.live.core.config.effective.initialMarginBps, fun _ => rfl,
      fun i => hinit.excess_eq _ i _⟩
    fun _ _ _ ht ha => ⟨ha.1.step.valid ht.1, ha.1.step.turn.agrees ht.1 ht.2.1,
      ha.1.step.turn.reserved ht.1 ht.2.1 ht.2.2 ha.2⟩
  have hr : (w.live.seats i).reservedMargin = w.live.held bps i .margin := sub_eq_zero.1 (hz i)
  refine ⟨hr ▸ hv.held_margin_nonneg bps i, fun hn => ?_⟩
  have hn' (side : Side) : w.live.owned side i = [] := by simp [Market.owned, hn]
  have hm : (w.live.seats i).reservedMargin = 0 := by
    rw [hr, held_eq_zero hn']
  refine ⟨hm, fun ho hf => ?_⟩
  have hc := collateral_nonneg_of_run hinit hac i
  have hco : ((w.live.seats i).openOrderCount : ℤ) - w.live.held 0 i .count = 0 :=
    hag.counted i .count (by decide)
  rw [held_eq_zero hn'] at hco
  simp only [canClose, ho, hf, hm, hc, Bool.and_eq_true, decide_eq_true_eq, and_true, true_and]
  omega

/-- Trader 7 sells back to trader 8 what it bought. -/
def roundTrip : List Action :=
  tradeRun 10000 10 1000 ++ [.placeOrderV3 (call 7 1000) (limitOrder .ask 0 10 1000),
    .placeOrderV3 (call 8 1000) (limitOrder .bid 1 10 1000)]

theorem reservedMargin_released_of_roundTrip :
    let seat := (genesis.after roundTrip).live.seats 0
    0 ≤ seat.reservedMargin ∧ seat.reservedMargin = 0 ∧ seat.canClose = true := by
  obtain ⟨hn, hr⟩ := reservedMargin_released genesis_initial
    (w := genesis.after roundTrip) (run_of_accepts (by decide +kernel)) 0
  have ho (side : Side) (tree : TreeKind) :
      ((genesis.after roundTrip).live.books side).owned tree 0 = [] := by
    cases side <;> cases tree <;> decide +kernel
  obtain ⟨hz, hc⟩ := hr ho
  exact ⟨hn, hz, hc (by decide +kernel) (by decide +kernel)⟩

/-- Trader 7 bids for 10 at a price of 1, which reserves 2. Fills of 4 and 6 release 0 and 1. -/
def splitRun : List Action :=
  fundRun 100 1 ++
    [.placeOrderV3 (call 7 1) (limitOrder .bid 0 10 1),
      .placeOrderV3 (call 8 1) (limitOrder .ask 1 4 1),
      .placeOrderV3 (call 8 1) (limitOrder .ask 1 6 1)]

theorem reservedMargin_left_behind : ∃ w₀ as w, w₀.Initial ∧ Run Action.Accepted w₀ as w ∧
    (∀ side ∈ [Side.bid, .ask], ∀ tree ∈ [TreeKind.fixed, .oraclePegged],
      (w.live.books side).owned tree 0 = []) ∧
    (w.live.seats 0).openOrderCount = 0 ∧ (w.live.seats 0).reservedMargin = 1 :=
  ⟨genesis, splitRun, _, genesis_initial, run_accepted (by decide +kernel), by decide +kernel⟩

end Equinox
