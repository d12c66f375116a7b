import Equinox.Market.Positions

/-! # Open interest

The core's ledger of open interest is kept in three ways: an order projects it
from its plan, recomputes it from the settled seats, and a liquidation adjusts it.
All of them give the sizes of the positions of the seats in use.
-/

namespace Equinox

open Foundation CritBit PagedBookV3 List World Market Side TraderSeat V3Fill

variable {a : Action} {w w' w₀ : World} {as : List Action} {m m' : Market} {ctx : Context}
  {order : PlaceOrderData} {actions i : ℕ} {oracle : I64} {behavior : SelfTradeBehavior}
  {prepared : PreparedOrder} {uses : List (Maker × Use)} {side : Side} {replaced : Option Key}

/-- The size of a seat's position, if the seat is in use. -/
def TraderSeat.openSize (seat : TraderSeat) : ℤ :=
  if seat.occupancy = true then |seat.basePosition| else 0

theorem Market.openInterest_eq_sum (m : Market) : m.openInterest = m.sum openSize := by
  unfold openInterest sum
  rw [Finset.sum_eq_multiset_sum]
  rfl

theorem Market.openInterest_congr (ho : ∀ i, (m'.seats i).occupancy = (m.seats i).occupancy)
    (hpos : ∀ i, (m'.seats i).basePosition = (m.seats i).basePosition) :
    m'.openInterest = m.openInterest := by
  unfold openInterest
  simp only [ho, hpos]

/-! ## Recomputing -/

theorem TraderSeat.openSize_nonneg (seat : TraderSeat) : 0 ≤ seat.openSize := by
  unfold openSize
  split
  · exact abs_nonneg _
  · exact le_rfl

theorem recomputeV3OpenInterest_of_inI128 (h : m.openInterest < 2 ^ 127) :
    recomputeV3OpenInterest m = .ok m.openInterest := by
  have hst : ∀ i ∈ range v3SeatCount, ∀ t : ℤ, 0 ≤ t →
      t + (m.seats i).openSize < 2 ^ 127 → (if (m.seats i).occupancy = true then do
        let size ← checkedI128 (custom .arithmeticOverflow) |(m.seats i).basePosition|
        checkedI128 (custom .arithmeticOverflow) (t + size)
      else pure t) = .ok (t + (m.seats i).openSize) := by
    intro i _ t ht hlt
    by_cases ho : (m.seats i).occupancy = true
    · have hs : (m.seats i).openSize = |(m.seats i).basePosition| := if_pos ho
      have habs := abs_nonneg (m.seats i).basePosition
      rw [hs] at hlt ⊢
      simp only [if_pos ho, bind_eq_ok, exists_checkedI128]
      exact ⟨⟨by omega, by omega⟩, checkedI128_eq_ok.2 ⟨⟨by omega, hlt⟩, rfl⟩⟩
    · have hs : (m.seats i).openSize = 0 := if_neg ho
      rw [if_neg ho, hs, add_zero]
      rfl
  have ha := foldlM_add_of_lt hst (fun i _ => openSize_nonneg _) le_rfl (by rw [zero_add]; exact h)
  rwa [zero_add] at ha

/-! ## Projecting -/

theorem projectedPosition_eq_ok {taker : ℕ} {position result : ℤ} {fills : List V3Fill}
    (h : projectedPosition taker side i position fills = .ok result) :
    result = position + (fills.map (·.moves taker side i)).sum := by
  induction fills generalizing position with
  | nil => simpa using (pure_eq_ok.1 h).symm
  | cons fill fills ih =>
    rw [map_cons, sum_cons, ← add_assoc, moves]
    simp only [projectedPosition] at h
    split_ifs at h ⊢ <;> simp only [ok_rules, checkedI128_eq_ok, exists_eq_left'] at h
    · obtain ⟨_, ⟨-, rfl⟩, _, ⟨-, rfl⟩, h⟩ := h
      rw [ih h]
      ring
    · obtain ⟨_, ⟨-, rfl⟩, h⟩ := h
      rw [ih h]
      ring
    · obtain ⟨_, ⟨-, rfl⟩, h⟩ := h
      rw [ih h]
      ring
    · rw [ih h]
      ring

theorem projectedV3OpenInterest_eq_ok {taker : ℕ} {plan : V3MatchPlan} {total : ℤ}
    (h : projectedV3OpenInterest m taker side plan = .ok total) :
    total < 2 ^ 127 ∧ total = ((range v3SeatCount).map fun i =>
      |(m.seats i).basePosition + (plan.fills.map (·.moves taker side i)).sum|).sum := by
  have hs : ∀ i ∈ range v3SeatCount, ∀ t t' : ℤ, t < 2 ^ 127 → (do
      let position ← projectedPosition taker side i (m.seats i).basePosition plan.fills
      let size ← checkedI128 (custom .arithmeticOverflow) |position|
      checkedI128 (custom .arithmeticOverflow) (t + size)) = .ok t' →
      t' < 2 ^ 127 ∧
        t' = t + |(m.seats i).basePosition + (plan.fills.map (·.moves taker side i)).sum| := by
    intro i _ t t' _ ht
    simp only [bind_eq_ok, checkedI128_eq_ok] at ht
    obtain ⟨position, hp, _, ⟨-, rfl⟩, hr, rfl⟩ := ht
    obtain rfl := projectedPosition_eq_ok hp
    exact ⟨hr.2, rfl⟩
  simp only [projectedV3OpenInterest, ok_rules] at h
  obtain ⟨hlt, hsum⟩ := foldlM_sum (g := fun x : ℤ => x) hs (by decide) h.2
  exact ⟨hlt, by rwa [zero_add] at hsum⟩

theorem V3Fill.exists_sign (taker : ℕ) (side : Side) (i : ℕ) : ∃ sign : ℤ,
    (sign = 1 ∨ sign = -1) ∧
      ∀ fill : V3Fill, fill.makerOwner ≠ taker → 0 ≤ sign * fill.moves taker side i := by
  by_cases hi : taker = i
  · subst hi
    cases side with
    | bid => exact ⟨1, .inl rfl, fun fill hne => by simp [moves, hne, signed]⟩
    | ask => exact ⟨-1, .inr rfl, fun fill hne => by simp [moves, hne, signed]⟩
  · cases side with
    | bid =>
      refine ⟨-1, .inr rfl, fun fill _ => ?_⟩
      simp only [moves, hi, if_false, add_zero, opposite, signed]
      split <;> omega
    | ask =>
      refine ⟨1, .inl rfl, fun fill _ => ?_⟩
      simp only [moves, hi, if_false, add_zero, opposite, signed]
      split <;> omega

/-- Between two positions in range the fills of an order stay in range. -/
theorem projectedPosition_of_lt {taker : ℕ} {position : ℤ} {fills : List V3Fill}
    (hm : ∀ fill ∈ fills, fill.makerOwner ≠ taker) (hst : |position| < 2 ^ 127)
    (he : |position + (fills.map (·.moves taker side i)).sum| < 2 ^ 127) :
    projectedPosition taker side i position fills =
      .ok (position + (fills.map (·.moves taker side i)).sum) := by
  induction fills generalizing position with
  | nil => simp [projectedPosition, pure, Except.pure]
  | cons fill fills ih =>
    rw [forall_mem_cons] at hm
    rw [map_cons, sum_cons, ← add_assoc] at he ⊢
    have hn : |position + fill.moves taker side i| < 2 ^ 127 := by
      obtain ⟨sign, ho, hs⟩ := exists_sign taker side i
      have hfi := hs fill hm.1
      have hr : 0 ≤ sign * (fills.map (·.moves taker side i)).sum := by
        rw [← sum_map_mul_left]
        exact sum_nonneg (forall_mem_map.2 fun f hf => hs f (hm.2 f hf))
      rw [abs_lt] at hst he ⊢
      rcases ho with rfl | rfl <;> omega
    have hin : InI128 (position + fill.moves taker side i) := by
      rw [abs_lt] at hn
      exact ⟨by omega, hn.2⟩
    rw [← ih hm.2 hn he, projectedPosition]
    -- a fill moves a seat as its maker or as its taker, never as both
    unfold moves at hin ⊢
    by_cases hma : fill.makerOwner = i
    · have ht : taker ≠ i := fun h => hm.1 (hma.trans h.symm)
      simp only [if_pos hma, if_neg ht, add_zero] at hin ⊢
      rw [checkedI128, if_pos hin]
      rfl
    · simp only [if_neg hma, zero_add] at hin ⊢
      by_cases ht : taker = i
      · simp only [if_pos ht, pure_bind] at hin ⊢
        rw [checkedI128, if_pos hin]
        rfl
      · simp only [if_neg ht, add_zero]
        rfl

/-- Projecting succeeds when the positions and the result are in range. -/
theorem projectedV3OpenInterest_of_lt {taker : ℕ} {plan : V3MatchPlan}
    (hlt : taker < v3SeatCount) (hm : ∀ fill ∈ plan.fills, fill.makerOwner ≠ taker)
    (hs : ∀ i < v3SeatCount, |(m.seats i).basePosition| < 2 ^ 127)
    (hto : ((range v3SeatCount).map fun i =>
      |(m.seats i).basePosition + (plan.fills.map (·.moves taker side i)).sum|).sum < 2 ^ 127) :
    projectedV3OpenInterest m taker side plan = .ok ((range v3SeatCount).map fun i =>
      |(m.seats i).basePosition + (plan.fills.map (·.moves taker side i)).sum|).sum := by
  have hst : ∀ i ∈ range v3SeatCount, ∀ t : ℤ, 0 ≤ t →
      t + |(m.seats i).basePosition + (plan.fills.map (·.moves taker side i)).sum| < 2 ^ 127 → (do
        let position ← projectedPosition taker side i (m.seats i).basePosition plan.fills
        let size ← checkedI128 (custom .arithmeticOverflow) |position|
        checkedI128 (custom .arithmeticOverflow) (t + size)) =
      .ok (t + |(m.seats i).basePosition + (plan.fills.map (·.moves taker side i)).sum|) := by
    intro i hi t ht hsum
    have habs := abs_nonneg ((m.seats i).basePosition + (plan.fills.map (·.moves taker side i)).sum)
    rw [projectedPosition_of_lt hm (hs i (mem_range.1 hi)) (by omega), ok_bind]
    simp only [bind_eq_ok, exists_checkedI128]
    exact ⟨⟨by omega, by omega⟩, checkedI128_eq_ok.2 ⟨⟨by omega, hsum⟩, rfl⟩⟩
  have ha := foldlM_add_of_lt hst (fun i _ => abs_nonneg _) le_rfl (by rwa [zero_add])
  rw [zero_add] at ha
  simp only [projectedV3OpenInterest, ok_rules]
  exact ⟨hlt, ha⟩

/-! ## Orders -/

theorem Market.Placed.openInterest_eq
    (h : Placed ctx order actions oracle behavior prepared uses m m') :
    m'.core.currentOpenInterest = m'.openInterest := by
  obtain ⟨_, _, _, _, mFund, hex⟩ := h.executed
  obtain ⟨⟨_, hc⟩, -, hs⟩ := hex.record
  have ho : m'.core.currentOpenInterest = mFund.openInterest := by
    rw [hc]
    rfl
  rw [ho, openInterest_congr (fun i => by rw [hs]; rfl) (fun i => by rw [hs]; rfl)]

theorem Market.Placed.projected_eq
    (h : Placed ctx order actions oracle behavior prepared uses m m') (hm : m.Sound) :
    ∃ total, projectedV3OpenInterest m order.seatIndex prepared.side prepared.plan = .ok total ∧
      recomputeV3OpenInterest m' = .ok total ∧ m'.core.currentOpenInterest = total := by
  obtain ⟨total, ht, -⟩ := h.prepares.projected
  obtain ⟨hlt, hsum⟩ := projectedV3OpenInterest_eq_ok ht
  have ho : m'.openInterest = total := by
    rw [hsum, openInterest]
    congr 1
    refine map_congr_left fun i _ => ?_
    rw [h.fills_eq, sum_moves, ← h.position]
    split
    · rfl
    · rename_i hi
      have hi : (m.seats i).occupancy = false := by
        rw [h.occupancy] at hi
        simpa using hi
      rw [h.position_eq hm.agrees hi, hm.vacant i hi, abs_zero]
  refine ⟨total, ht, ?_, ?_⟩
  · rw [← ho]
    exact recomputeV3OpenInterest_of_inI128 (ho ▸ hlt)
  · rw [h.openInterest_eq, ho]

/-! ## Runs -/

/-- A rollback, which clears the ledger, finds no open position. -/
def Action.KeepsOpenInterest (m : Market) : Action → Prop
  | rollbackV3Undelegation => m.openInterest = 0
  | _ => True

instance (m : Market) (a : Action) : Decidable (a.KeepsOpenInterest m) := by
  unfold Action.KeepsOpenInterest; split <;> infer_instance

theorem Action.Trades.openInterest_eq (h : a.Trades m m') (hm : m.Valid)
    (ho : m.core.currentOpenInterest = m.openInterest) :
    m'.core.currentOpenInterest = m'.openInterest := by
  refine (h.induction
    (P := fun m => m.Valid ∧ m.core.currentOpenInterest = m.openInterest)
    (fun m₁ m₂ _ _ _ _ h₁ hp => ?_) (fun m₁ m₂ _ _ _ _ h₁ hc => ?_)
    (fun m₁ m₂ h₁ hs => ?_) ⟨hm, ho⟩).2
  · obtain ⟨_, _, _, _, hpl⟩ := h₁.1.placed hp
    exact ⟨hpl.valid h₁.1, hpl.openInterest_eq⟩
  · refine ⟨hc.valid h₁.1, ?_⟩
    obtain ⟨_, _, -, -, -, _, _, _, _, _, -, -, -, -, ⟨_, hco⟩, -⟩ := hc.found
    rw [openInterest_congr (fun i => (hc.traded.claims i).occupancy) hc.position, hco]
    exact h₁.2
  · obtain ⟨_, hco⟩ := hs.core
    refine ⟨hs.valid h₁.1, ?_⟩
    rw [openInterest_congr (m := m₁) (fun i => by rw [hs.seats]) fun i => by rw [hs.seats],
      ← h₁.2, hco]

theorem World.Turn.openInterest_eq (h : w.Turn a w') (hw : w.live.Sound)
    (ho : w.live.core.currentOpenInterest = w.live.openInterest)
    (ha : a.KeepsOpenInterest w.live) :
    w'.live.core.currentOpenInterest = w'.live.openInterest := by
  cases h with
  | opened index vacant logged =>
    obtain ⟨⟨_, hc⟩, -, hs, -⟩ := logged
    rw [openInterest_eq_sum, sum_eq_of_seats_eq _ hs,
      sum_withSeat _ index, ← openInterest_eq_sum, ← ho, hc]
    simp [openSize, vacant, TraderSeat.opened, empty]
  | closed index closable logged =>
    obtain ⟨⟨_, hc⟩, -, hs, -⟩ := logged
    rw [openInterest_eq_sum, sum_eq_of_seats_eq _ hs,
      sum_withSeat _ index, ← openInterest_eq_sum, ← ho, hc]
    simp [openSize, (canClose_eq_true closable).2.1, empty]
  | traded trades => exact trades.openInterest_eq hw.valid ho
  | @liquidated _ i _ _ _ _ _ filled _ _ hl =>
    have hocc : filled.occupancy = true := by rw [hl.dealt.claims.occupancy, hl.occupied]
    obtain ⟨_, ⟨_, hc⟩, -, hs, -⟩ := hl.result
    rw [openInterest_eq_sum, sum_eq_of_seats_eq _ hs]
    change _ = (w.live.withSeat i _).sum _
    rw [sum_withSeat _ hl.index, ← openInterest_eq_sum, ← ho, hc]
    simp only [openSize, hocc, hl.occupied, if_true]
    omega
  | configured _ _ result =>
    rw [result]
    exact ho
  | rolledBack result =>
    rw [result]
    exact (show w.live.openInterest = 0 from ha).symm
  | kept hol _ openInterest =>
    rw [openInterest, ho, openInterest_congr hol.occupancy hol.position]

/-- The ledger of open interest is the sum of the position sizes of the seats in use, in every run
that rolls back only a market without positions; and for every accepted order in every run, the
projection before it and the recomputation after it agree. -/
theorem openInterest_ledger (hinit : w₀.Initial) :
    (∀ (as : List Action) (w : World),
      Run (fun a w w' => a.Accepted w w' ∧ a.KeepsOpenInterest w.live) w₀ as w →
      w.live.core.currentOpenInterest = w.live.openInterest) ∧
    ∀ (as : List Action) (a : Action) (w w' : World) (ctx : Context) (order : PlaceOrderData)
      (replaced : Option Key), Run Action.Accepted w₀ as w → a.Accepted w w' →
      a.ordering = some (ctx, order, replaced) → ∃ m₁ actions prepared total,
        Cleared w.live order.seatIndex replaced m₁ ∧
        prepareOrder m₁ ctx order actions = .ok prepared ∧
        projectedV3OpenInterest m₁ order.seatIndex prepared.side prepared.plan = .ok total ∧
        recomputeV3OpenInterest w'.live = .ok total ∧ w'.live.core.currentOpenInterest = total := by
  constructor
  · intro as w hr
    refine (hr.invariant (P := fun w => w.live.Sound ∧
      w.live.core.currentOpenInterest = w.live.openInterest) ⟨hinit.sound, ?_⟩
      fun _ _ _ ht ha => ?_).2
    · obtain ⟨_, hco⟩ := hinit.core_eq
      rw [hco, openInterest_eq_sum]
      refine (Finset.sum_eq_zero fun i _ => ?_).symm
      rw [hinit.seats]
      rfl
    · have htu := ha.1.step.turn
      exact ⟨htu.sound (ha.1.step.valid ht.1.valid) ht.1, htu.openInterest_eq ht.1 ht.2 ha.2⟩
  · intro as a w w' ctx order replaced hr ha ho
    have hs := sound_of_run hinit hr
    obtain ⟨m₁, actions, _, _, prepared, _, hc, hp, -⟩ := (ha.trades ho).ordered hs.valid ho
    have hs₁ : m₁.Sound := by
      cases hc with
      | unchanged => exact hs
      | cancelled cancel same =>
        refine ⟨same.valid (cancel.valid hs.valid),
          (hs.agrees.cancelled hs.valid cancel).sameLedgers same, fun i hi => ?_⟩
        rw [same.seats] at hi ⊢
        rw [cancel.position]
        rw [(cancel.traded.claims i).occupancy] at hi
        exact hs.vacant i hi
    obtain ⟨total, hto⟩ := hp.projected_eq hs₁
    exact ⟨m₁, actions, prepared, total, hc, hp.prepared_eq, hto⟩

/-- Traders 7 and 8 have deposited, and trader 7 bids for 10 at 1000. -/
def bidRun : List Action :=
  fundRun 10000 1000 ++
    [.placeOrderV3 (call 7 1000) (limitOrder .bid 0 10 1000)]

def takingAsk : Action :=
  .placeOrderV3 (call 8 1000) (limitOrder .ask 1 10 1000)

theorem openInterest_ledger_of_bidRun :
    (genesis.after (bidRun ++ [takingAsk])).live.core.currentOpenInterest =
      (genesis.after (bidRun ++ [takingAsk])).live.openInterest ∧
    ∃ m₁ actions prepared total,
      Cleared (genesis.after bidRun).live 1 none m₁ ∧
      prepareOrder m₁ (call 8 1000)
        (limitOrder .ask 1 10 1000) actions = .ok prepared ∧
      projectedV3OpenInterest m₁ 1 prepared.side prepared.plan = .ok total ∧
      recomputeV3OpenInterest ((genesis.after bidRun).after [takingAsk]).live = .ok total ∧
      ((genesis.after bidRun).after [takingAsk]).live.core.currentOpenInterest = total := by
  have hr : Run Action.Accepted genesis bidRun (genesis.after bidRun) :=
    run_accepted (by decide +kernel)
  have ht : takingAsk.Accepted (genesis.after bidRun)
      ((genesis.after bidRun).after [takingAsk]) := accepted_of_accepts (by decide +kernel)
  exact ⟨(openInterest_ledger genesis_initial).1 _ _
      (run_of_accepts (by decide +kernel)),
    (openInterest_ledger genesis_initial).2 _ _ _ _ _ _ _ hr ht rfl⟩

/-- Trader 7 buys 10 from trader 8, the market reaches L1, and its undelegation is rolled back. -/
def rollbackRun : List Action :=
  tradeRun 10000 10 1000 ++
    [.writeBackCore, .writeBackShard 0, .rollbackV3Undelegation]

/-- The rollback clears the ledger and leaves the positions. -/
theorem openInterest_after_rollback : ∃ w₀ as w, w₀.Initial ∧ Run Action.Accepted w₀ as w ∧
    w.live.core.currentOpenInterest = 0 ∧ w.live.openInterest = 20 :=
  ⟨genesis, rollbackRun, _, genesis_initial, run_accepted (by decide +kernel), by decide +kernel⟩

end Equinox
