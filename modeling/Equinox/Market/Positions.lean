import Equinox.Book.Reach
import Equinox.Market.Agreement
import Equinox.Market.ZeroSum

/-! # Positions

The fills of an order move the positions of its taker and of the makers, by
amounts that cancel out. A liquidation moves one seat only. Seats that are not in
use stay flat, so sums over all seats and over the seats in use agree.
-/

namespace Equinox

open Foundation CritBit PagedBookV3 List World Market TraderSeat V3Fill

variable {a : Action} {w w' w₀ : World} {as : List Action} {m m' : Market} {ctx : Context}
  {order : PlaceOrderData} {actions i : ℕ} {oracle : I64} {behavior : SelfTradeBehavior}
  {prepared : PreparedOrder} {uses : List (Maker × Use)} {side : Side} {tree : TreeKind}
  {leaf : LeafNode} {replaced : Option Key}

def movedBy (taker : ℕ) (side : Side) (i : ℕ) : Maker × Use → ℤ
  | (x, .filled n) => (x.toFill n).moves taker side i
  | _ => 0

/-- The orders are valid and agree with the seats, and seats that are not in use are flat. -/
structure Market.Sound (m : Market) : Prop where
  valid : m.Valid
  agrees : m.Agrees
  vacant : ∀ i, (m.seats i).occupancy = false → (m.seats i).basePosition = 0

/-! ## Orders -/

theorem sum_moves (taker : ℕ) (side : Side) (i : ℕ) (uses : List (Maker × Use)) :
    ((uses.filterMap fillOf).map (·.moves taker side i)).sum =
      (uses.map (movedBy taker side i)).sum := by
  rw [sum_map_filterMap]
  congr 1
  refine map_congr_left fun u _ => ?_
  obtain ⟨x, use⟩ := u
  cases use <;> rfl

theorem Side.signed_add (side : Side) (p q : ℕ) :
    side.signed (p + q) = side.signed p + side.signed q := by
  cases side <;> simp only [signed] <;> omega

theorem sum_movedBy_taker {taker : ℕ}
    (h : ∀ x n, (x, .filled n) ∈ uses → x.leaf.owner ≠ taker) (side : Side) :
    (uses.map (movedBy taker side taker)).sum = side.signed (uses.map filledIn).sum := by
  induction uses with
  | nil => cases side <;> rfl
  | cons u uses ih =>
    have hu : movedBy taker side taker u = side.signed (filledIn u) := by
      obtain ⟨x, use⟩ := u
      cases use with
      | cancelled | passed => cases side <;> rfl
      | filled n =>
        have hne := h x n mem_cons_self
        simp [movedBy, filledIn, moves, Maker.toFill, hne]
    rw [map_cons, map_cons, sum_cons, sum_cons, Side.signed_add, hu,
      ih fun x n hx => h x n (mem_cons_of_mem _ hx)]

namespace Market.Placed

variable (h : Placed ctx order actions oracle behavior prepared uses m m')

include h

theorem position (i : ℕ) : (m'.seats i).basePosition = (m.seats i).basePosition +
    (uses.map (movedBy order.seatIndex prepared.side i)).sum := by
  obtain ⟨_, _, _, _, _, hex⟩ := h.executed
  rw [hex.position, h.fills_eq, sum_moves]

theorem taker_position : (m'.seats order.seatIndex).basePosition =
    (m.seats order.seatIndex).basePosition + prepared.side.signed (uses.map filledIn).sum := by
  have ho : ∀ x n, (x, .filled n) ∈ uses → x.leaf.owner ≠ order.seatIndex := fun x n hu =>
    h.walk.filled_other hu
  rw [h.position, sum_movedBy_taker ho]

theorem occupancy (i : ℕ) : (m'.seats i).occupancy = (m.seats i).occupancy :=
  (h.traded.claims i).occupancy

theorem position_eq (hm : m.Agrees) (hi : (m.seats i).occupancy = false) :
    (m'.seats i).basePosition = (m.seats i).basePosition := by
  rw [h.position]
  refine add_eq_left.2 (sum_eq_zero fun d hd => ?_)
  obtain ⟨⟨x, use⟩, hu, rfl⟩ := mem_map.1 hd
  cases use with
  | cancelled | passed => rfl
  | filled n =>
    have hma : x.leaf.owner ≠ i := by
      rintro rfl
      have := hm.occupied _ _ (h.resting_mem hu)
      change (m.seats x.leaf.owner).occupancy = true at this
      rw [hi] at this
      simp at this
    have ht : order.seatIndex ≠ i := by
      rintro rfl
      have := h.prepares.occupied
      rw [hi] at this
      simp at this
    simp [movedBy, moves, Maker.toFill, hma, ht]

end Market.Placed

theorem V3Fill.sum_moves_eq_zero {fill : V3Fill} {taker : ℕ}
    (hm : fill.makerOwner < v3SeatCount) (ht : taker < v3SeatCount) (side : Side) :
    ∑ i ∈ Finset.range v3SeatCount, fill.moves taker side i = 0 := by
  simp only [moves, Finset.sum_add_distrib, Finset.sum_ite_eq, Finset.mem_range, hm, ht,
    if_true, Side.signed_opposite]
  omega

theorem Market.Placed.sum_position
    (h : Placed ctx order actions oracle behavior prepared uses m m') (hm : m.Valid) :
    m'.sum basePosition = m.sum basePosition := by
  have hz : ∑ i ∈ Finset.range v3SeatCount,
      (uses.map (movedBy order.seatIndex prepared.side i)).sum = 0 := by
    have hle : ∀ u ∈ uses, u.1.leaf.owner < v3SeatCount := fun u hu =>
      (hm.resting _ _ (h.resting_mem hu)).owner_lt
    have ht := h.prepares.index
    clear h
    induction uses with
    | nil => simp
    | cons u uses ih =>
      simp only [map_cons, sum_cons, Finset.sum_add_distrib]
      rw [ih fun v hv => hle v (mem_cons_of_mem _ hv), add_zero]
      have hu := hle u mem_cons_self
      obtain ⟨x, use⟩ := u
      cases use with
      | cancelled | passed => simp [movedBy]
      | filled n => exact sum_moves_eq_zero hu ht _
  unfold sum
  rw [Finset.sum_congr rfl fun i _ => h.position i, Finset.sum_add_distrib, hz, add_zero]

theorem Market.Cancelled.position (h : Cancelled i side tree leaf m m') (j : ℕ) :
    (m'.seats j).basePosition = (m.seats j).basePosition := by
  obtain ⟨_, _, -, -, -, _, _, _, _, released, -, -, -, hr, hl⟩ := h.found
  have hs := (release_eq_ok hr).1.basePosition
  rw [hl.seats]
  change ((m.withSeat i released).seats j).basePosition = _
  rw [field_withSeat (f := (·.basePosition)) (d := 0) (by rw [hs, add_zero])]
  simp

theorem Market.Cleared.position (h : Cleared m i replaced m') (j : ℕ) :
    (m'.seats j).basePosition = (m.seats j).basePosition := by
  cases h with
  | unchanged => rfl
  | cancelled cancel same => rw [same.seats, cancel.position]

/-- A property of positions that orders keep is kept by trading. -/
theorem Action.Trades.positions {P : Market → Prop} (h : a.Trades m m') (hm : m.Sound)
    (hpla : ∀ m₁ m₂ ctx order actions oracle behavior prepared uses, m₁.Sound → P m₁ →
      Placed ctx order actions oracle behavior prepared uses m₁ m₂ → P m₂)
    (hf : ∀ m₁ m₂, P m₁ → (∀ i, (m₂.seats i).basePosition = (m₁.seats i).basePosition) →
      (∀ i, (m₂.seats i).occupancy = (m₁.seats i).occupancy) → P m₂)
    (hP : P m) : m'.Sound ∧ P m' := by
  have hso (m₁ m₂ : Market) (h₁ : m₁.Sound) (hv : m₂.Valid) (ha : m₂.Agrees)
      (hpos : ∀ i, (m₁.seats i).occupancy = false →
        (m₂.seats i).basePosition = (m₁.seats i).basePosition)
      (ho : ∀ i, (m₂.seats i).occupancy = (m₁.seats i).occupancy) : m₂.Sound := by
    refine ⟨hv, ha, fun i hi => ?_⟩
    rw [ho] at hi
    rw [hpos i hi, h₁.vacant i hi]
  refine h.induction (P := fun m => m.Sound ∧ P m) (fun m₁ m₂ _ _ _ _ h₁ hp => ?_)
    (fun m₁ m₂ _ _ _ _ h₁ hc => ?_) (fun m₁ m₂ h₁ hs => ?_) ⟨hm, hP⟩
  · obtain ⟨_, _, _, _, hpl⟩ := h₁.1.valid.placed hp
    exact ⟨hso m₁ m₂ h₁.1 (hpl.valid h₁.1.valid) (h₁.1.agrees.placed h₁.1.valid hpl)
      (fun i hi => hpl.position_eq h₁.1.agrees hi) hpl.occupancy,
      hpla _ _ _ _ _ _ _ _ _ h₁.1 h₁.2 hpl⟩
  · have ho (i : ℕ) : (m₂.seats i).occupancy = (m₁.seats i).occupancy :=
      (hc.traded.claims i).occupancy
    exact ⟨hso m₁ m₂ h₁.1 (hc.valid h₁.1.valid) (h₁.1.agrees.cancelled h₁.1.valid hc)
      (fun i _ => hc.position i) ho, hf _ _ h₁.2 hc.position ho⟩
  · exact ⟨hso m₁ m₂ h₁.1 (hs.valid h₁.1.valid) (h₁.1.agrees.sameLedgers hs)
      (fun i _ => by rw [hs.seats]) (fun i => by rw [hs.seats]),
      hf _ _ h₁.2 (fun i => by rw [hs.seats]) (fun i => by rw [hs.seats])⟩

/-! ## Runs -/

theorem World.Turn.sound (h : w.Turn a w') (hv : w'.live.Valid) (hw : w.live.Sound) :
    w'.live.Sound := by
  refine ⟨hv, h.agrees hw.valid hw.agrees, fun i hi => ?_⟩
  cases h with
  | @opened _ j _ _ vacant logged =>
    rw [logged.seats] at hi ⊢
    by_cases hj : i = j
    · subst hj
      rw [seats_withSeat_self] at hi
      simp [TraderSeat.opened] at hi
    · rw [seats_withSeat_of_ne hj] at hi ⊢
      exact hw.vacant i hi
  | @closed _ j _ _ closable logged =>
    rw [logged.seats] at hi ⊢
    by_cases hj : i = j
    · subst hj
      rw [seats_withSeat_self]
      rfl
    · rw [seats_withSeat_of_ne hj] at hi ⊢
      exact hw.vacant i hi
  | traded trades =>
    exact (trades.positions hw (P := fun _ => True) (fun _ _ _ _ _ _ _ _ _ _ _ _ => trivial)
      (fun _ _ _ _ _ => trivial) trivial).1.vacant i hi
  | @liquidated _ j _ _ _ _ _ _ _ _ hl =>
    have hocc := (hl.sameClaims i).occupancy
    by_cases hj : i = j
    · subst hj
      rw [hocc, hl.occupied] at hi
      simp at hi
    · rw [hl.seats_of_ne hj] at hi ⊢
      exact hw.vacant i hi
  | configured _ _ result | rolledBack result =>
    rw [result] at hi ⊢
    exact hw.vacant i hi
  | kept ho =>
    rw [ho.occupancy] at hi
    rw [ho.position]
    exact hw.vacant i hi

theorem World.Initial.sound (h : w.Initial) : w.live.Sound :=
  ⟨h.valid, h.agrees, fun i _ => by rw [h.seats]; rfl⟩

theorem World.sound_of_run (hi : w₀.Initial) (hr : Run Action.Accepted w₀ as w) :
    w.live.Sound := hr.invariant (P := fun w => w.live.Sound) hi.sound fun _ _ _ ht ha =>
    ha.step.turn.sound (ha.step.valid ht.valid) ht

/-! ## Longs and shorts -/

def Market.netPosition (m : Market) : ℤ :=
  ∑ i ∈ Finset.range v3SeatCount,
    if (m.seats i).occupancy = true then (m.seats i).basePosition else 0

theorem Market.Sound.netPosition_eq (hm : m.Sound) : m.netPosition = m.sum basePosition := by
  refine Finset.sum_congr rfl fun i _ => ?_
  split
  · rfl
  · rename_i hi
    exact (hm.vacant i (by simpa using hi)).symm

def Action.isLiquidation : Action → Bool
  | liquidateV3 .. => true
  | _ => false

theorem World.Turn.sum_position (h : w.Turn a w') (hw : w.live.Sound)
    (ha : a.isLiquidation = false) : w'.live.sum basePosition = w.live.sum basePosition := by
  cases h with
  | opened index vacant logged =>
    rw [sum_eq_of_seats_eq _ logged.seats, sum_withSeat _ index, hw.vacant _ vacant]
    simp [TraderSeat.opened, empty]
  | closed index closable logged =>
    rw [sum_eq_of_seats_eq _ logged.seats, sum_withSeat _ index, (canClose_eq_true closable).2.1]
    simp [empty]
  | traded trades =>
    exact (trades.positions hw (P := fun m => m.sum basePosition =
      w.live.sum basePosition)
      (fun _ _ _ _ _ _ _ _ _ h₁ hp hpl => (hpl.sum_position h₁.valid).trans hp)
      (fun m₁ m₂ hp hpos _ => (Finset.sum_congr rfl fun i _ => hpos i).trans hp) rfl).2
  | liquidated => simp [Action.isLiquidation] at ha
  | configured _ _ result | rolledBack result => rw [result]; rfl
  | kept ho => exact Finset.sum_congr rfl fun i _ => ho.position i

/-- Longs and shorts balance in every run without liquidations. -/
theorem netPosition_eq_zero (hinit : w₀.Initial)
    (hrun : Run (fun a w w' => a.Accepted w w' ∧ a.isLiquidation = false) w₀ as w) :
    w.live.netPosition = 0 := by
  obtain ⟨hs, hsum⟩ := hrun.invariant
    (P := fun w => w.live.Sound ∧ w.live.sum basePosition = 0)
    ⟨hinit.sound, Finset.sum_eq_zero fun i _ => by rw [hinit.seats]; rfl⟩ fun _ _ _ ht ha => by
      have htu := ha.1.step.turn
      exact ⟨htu.sound (ha.1.step.valid ht.1.valid) ht.1, (htu.sum_position ht.1 ha.2).trans ht.2⟩
  rw [hs.netPosition_eq, hsum]

theorem netPosition_eq_zero_of_tradeRun :
    (genesis.after (tradeRun 10000 10 1000)).live.netPosition = 0 :=
  netPosition_eq_zero genesis_initial (run_of_accepts (by decide +kernel))

/-- Trader 7 buys 10 from trader 8 at 1000 and is liquidated at 800. -/
def liquidationRun : List Action :=
  tradeRun 2500 10 1000 ++ [.liquidateV3 (call 3 800) 0 10]

/-- The liquidation closes 5 of the long position, and no one else sells less. -/
theorem netPosition_after_liquidation : ∃ w₀ as w, w₀.Initial ∧ Run Action.Accepted w₀ as w ∧
    (w.live.seats 0).basePosition = 5 ∧ (w.live.seats 1).basePosition = -10 ∧
    w.live.netPosition = -5 :=
  ⟨genesis, liquidationRun, _, genesis_initial, run_accepted (by decide +kernel), by decide +kernel⟩

end Equinox
