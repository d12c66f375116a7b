import Equinox.Market.Liquidation
import Equinox.Market.Positions

/-! # Position limits

An order is admitted only if its taker stays within the limit when all of it is
filled, so the taker does. Nothing checks the makers: each of a seat's resting
orders was within the limit by itself, and several of them can be filled. Counting
them in when an order is admitted would be enough.
-/

namespace Equinox

open Foundation CritBit PagedBookV3 World TraderSeat Market Side List

variable {a : Action} {w w' w₀ w₁ : World} {as as₀ : List Action} {m m' : Market} {ctx : Context}
  {order : PlaceOrderData} {actions i : ℕ} {oracle price : I64} {behavior : SelfTradeBehavior}
  {prepared : PreparedOrder} {uses : List (Maker × Use)} {side : Side} {seat : TraderSeat}
  {config : V3RiskConfig} {demand : OrderDemand} {limit : ℤ} {replaced : Option Key}

/-! ## Admission -/

theorem admitOrder_eq_ok (h : admitOrder seat config side order oracle price = .ok demand) :
    (order.reduceOnly = true → order.quantity ≤ seat.basePosition.natAbs ∧
      |seat.basePosition + side.signed order.quantity| < |seat.basePosition|) ∧
    (0 < config.maximumPosition →
      |seat.basePosition + side.signed order.quantity| ≤ config.maximumPosition) := by
  simp only [admitOrder, ok_rules, exists_checkedI128] at h
  obtain ⟨-, -, hre, hl, -⟩ := h
  rw [Int.abs_eq_natAbs, Int.abs_eq_natAbs]
  refine ⟨fun hr => ?_, hl⟩
  obtain ⟨-, hq, hlt⟩ := hre hr
  exact ⟨hq, by exact_mod_cast hlt⟩

theorem Market.Placed.admitted
    (h : Placed ctx order actions oracle behavior prepared uses m m') :
    (order.reduceOnly = true →
      order.quantity ≤ (m.seats order.seatIndex).basePosition.natAbs ∧
      |(m.seats order.seatIndex).basePosition + prepared.side.signed order.quantity| <
        |(m.seats order.seatIndex).basePosition|) ∧
    (0 < m.core.config.maximumPosition →
      |(m.seats order.seatIndex).basePosition + prepared.side.signed order.quantity| ≤
        m.core.config.maximumPosition) := by
  obtain ⟨settled, _, hse, had, -⟩ := h.prepares.admitted
  obtain ⟨-, -, -, -, hc⟩ := readV3RiskConfig_eq_ok.1 h.prepares.config
  obtain ⟨-, hs⟩ := Risk.settleFunding_eq_ok hse
  have ha := admitOrder_eq_ok had
  rw [hs, ← hc] at ha
  exact ha

theorem abs_add_signed_le {base : ℤ} {q n : ℕ} (hn : n ≤ q) (hb : |base| ≤ limit)
    (h : |base + side.signed q| ≤ limit) : |base + side.signed n| ≤ limit := by
  rw [abs_le] at *
  cases side <;> simp only [signed] at * <;> omega

/-! ## Steps -/

/-- How far an instruction moves the position of a seat. -/
def Action.moves (m : Market) (a : Action) (i : ℕ) : ℤ :=
  match a.ordering with
  | none => 0
  | some (ctx, order, _) =>
    match order.shape ctx.now with
    | .ok (side, _) => ((a.uses m).map (movedBy order.seatIndex side i)).sum
    | .error _ => 0

/-- The configured limit stays, and no maker that an order fills is moved beyond it. -/
def Action.KeepsLimit (limit : ℤ) (m : Market) (a : Action) : Prop :=
  match a with
  | updateV3RiskConfig _ config => config.maximumPosition = limit
  | a =>
    match a.ordering with
    | none => True
    | some (_, order, _) => ∀ i < v3SeatCount, i ≠ order.seatIndex →
      |(m.seats i).basePosition + a.moves m i| ≤ limit

instance (limit : ℤ) (m : Market) (a : Action) : Decidable (a.KeepsLimit limit m) := by
  apply @Action.casesOn (fun a => Decidable (a.KeepsLimit limit m)) a <;> intros <;>
    dsimp only [Action.KeepsLimit, Action.ordering] <;> infer_instance

/-- Every position is within a limit, which the configuration holds unless it was lost. -/
structure Market.Limited (limit : ℤ) (m : Market) : Prop where
  config : m.core.riskConfigVersion = v3RiskConfigVersion → m.core.config.maximumPosition = limit
  position : ∀ i < v3SeatCount, |(m.seats i).basePosition| ≤ limit

theorem Action.KeepsLimit.of_ordering (h : a.KeepsLimit limit m)
    (ha : a.ordering = some (ctx, order, replaced)) (hi : i < v3SeatCount)
    (hne : i ≠ order.seatIndex) : |(m.seats i).basePosition + a.moves m i| ≤ limit := by
  cases a with
  | placeOrderV3 | replaceOrderV3 =>
    simp only [ordering, Option.some.injEq, Prod.mk.injEq] at ha
    obtain ⟨rfl, rfl, rfl⟩ := ha
    exact h i hi hne
  | _ => simp [ordering] at ha

theorem Market.Limited.placed {m₁ : Market} (hl : 0 < limit) (h : m.Limited limit)
    (ha : a.KeepsLimit limit m)
    (ho : a.ordering = some (ctx, order, replaced))
    (hc : Cleared m order.seatIndex replaced m₁)
    (hp : Placed ctx order actions oracle behavior prepared uses m₁ m')
    (hu : a.uses m = uses) : ∀ i < v3SeatCount, |(m'.seats i).basePosition| ≤ limit := by
  intro i hi
  by_cases hne : i = order.seatIndex
  · subst hne
    obtain ⟨hco, hv⟩ := hc.traded.sameTerms
    obtain ⟨surplus, hs⟩ := hco
    have hmax : m₁.core.config.maximumPosition = limit := by
      rw [hs]
      exact h.config (hv ▸ hp.version_eq)
    have hf := (hp.admitted).2 (by omega)
    rw [hmax, hc.position] at hf
    rw [hp.taker_position, hc.position]
    exact abs_add_signed_le hp.walk.filled_sum_le (h.position _ hi) hf
  · have hm : a.moves m i = (uses.map (movedBy order.seatIndex prepared.side i)).sum := by
      simp only [Action.moves, ho, hp.prepares.shape, hu]
    rw [hp.position, hc.position, ← hm]
    exact ha.of_ordering ho hi hne

theorem Market.Liquidated.position_le {maxQuantity : ℕ} {mark fee : ℤ}
    {settled filled : TraderSeat}
    (h : Liquidated i maxQuantity mark config settled filled fee m m') :
    |(m'.seats i).basePosition| ≤ max |(m.seats i).basePosition| 1 := by
  by_cases hz : (m.seats i).basePosition = 0
  · rw [h.position_of_flat hz]
    exact le_max_right _ _
  · exact (h.shrunk_iff.2 hz).smaller.le.trans (le_max_left _ _)

theorem Market.Limited.of_sameTerms (h : m.Limited limit) (ht : m.SameTerms m')
    (hp : ∀ i < v3SeatCount, |(m'.seats i).basePosition| ≤ limit) : m'.Limited limit := by
  obtain ⟨⟨_, hc⟩, hve⟩ := ht
  refine ⟨fun hv => ?_, hp⟩
  rw [hc]
  exact h.config (hve ▸ hv)

theorem Market.Limited.withSeat (h : m.Limited limit) (hl : 0 < limit)
    (hs : seat.basePosition = 0) (hlog : (m.withSeat i seat).Logged m') : m'.Limited limit := by
  obtain ⟨⟨_, hc⟩, -, hse, -⟩ := hlog
  refine h.of_sameTerms (.of_config_eq (by rw [hc]; rfl) (by rw [hc]; rfl)) fun j hj => ?_
  rw [hse]
  by_cases hji : j = i
  · subst hji
    rw [seats_withSeat_self, hs, abs_zero]
    exact hl.le
  · rw [seats_withSeat_of_ne hji]
    exact h.position j hj

theorem World.Turn.limited (h : w.Turn a w') (hw : w.live.Valid) (hli : 0 < limit)
    (hl : w.live.Limited limit) (ha : a.KeepsLimit limit w.live) : w'.live.Limited limit := by
  cases h with
  | opened _ _ logged => exact hl.withSeat hli rfl logged
  | closed _ _ logged => exact hl.withSeat hli rfl logged
  | traded trades =>
    refine hl.of_sameTerms trades.traded.sameTerms ?_
    cases ho : a.ordering with
    | none =>
      refine trades.cancelling
        (P := fun m => ∀ i < v3SeatCount, |(m.seats i).basePosition| ≤ limit) ho
        (fun m₁ m₂ _ _ _ _ hp hc i hi => ?_) (fun m₁ m₂ hp hs i hi => ?_) hl.position
      · rw [hc.position]
        exact hp i hi
      · rw [hs.seats]
        exact hp i hi
    | some ordering =>
      obtain ⟨ctx, order, replaced⟩ := ordering
      obtain ⟨m₁, _, _, _, _, _, hcl, hpl, hu⟩ := trades.ordered hw ho
      exact hl.placed hli ha ho hcl hpl hu
  | @liquidated _ j _ _ _ _ _ _ _ _ hliq =>
    refine hl.of_sameTerms hliq.sameTerms fun i hi => ?_
    by_cases hij : i = j
    · subst hij
      have hle := hliq.position_le
      have hb := hl.position i hi
      omega
    · rw [hliq.seats_of_ne hij]
      exact hl.position i hi
  | configured _ _ result =>
    rw [result]
    exact ⟨fun _ => ha, hl.position⟩
  | rolledBack result =>
    rw [result]
    refine ⟨fun hv => ?_, hl.position⟩
    simp [MarketCore.rolledBack, MarketCore.blank, v3RiskConfigVersion] at hv
  | kept hol terms =>
    refine hl.of_sameTerms terms fun i hi => ?_
    rw [hol.position]
    exact hl.position i hi

/-! ## Runs -/

/-- Under a fixed limit no position exceeds it, in every run from a flat market whose orders move
no maker beyond it. -/
theorem position_le_limit (hinit : w₀.Initial) (hreach : Run Action.Accepted w₀ as₀ w₁)
    (hlimit : 0 < limit) (hconfig : w₁.live.core.config.maximumPosition = limit)
    (hflat : ∀ i < v3SeatCount, (w₁.live.seats i).basePosition = 0)
    (hrun : Run (fun a w w' => a.Accepted w w' ∧ a.KeepsLimit limit w.live) w₁ as w)
    (hi : i < v3SeatCount) : |(w.live.seats i).basePosition| ≤ limit := by
  have hs : w₁.live.Limited limit := by
    refine ⟨fun _ => hconfig, fun i hi => ?_⟩
    rw [hflat i hi, abs_zero]
    exact hlimit.le
  have he : w.live.Valid ∧ w.live.Limited limit := by
    refine hrun.invariant (P := fun w => w.live.Valid ∧ w.live.Limited limit)
      ⟨valid_of_run hinit hreach, hs⟩ fun _ _ _ ht ha => ?_
    exact ⟨ha.1.step.valid ht.1, ha.1.step.turn.limited ht.1 hlimit ht.2 ha.2⟩
  exact he.2.position i hi

/-- Traders 7, 8 and 9 deposit, and the market is delegated with a position limit of 10. -/
def limitedRun : List Action :=
  [.createTraderSeat (call 9 1000) 2,
    .depositCollateralV3 (call 9 1000) 2 10000 10000,
    .updateV3RiskConfig (call 3 1000)
      { V3RiskConfig.defaults with maximumPosition := 10 }] ++ fundRun 10000 1000

def bidTwice : List Action :=
  [.placeOrderV3 (call 7 1000) (limitOrder .bid 0 10 1000),
    .placeOrderV3 (call 7 1000) (limitOrder .bid 0 10 1000)]

def sellTwice : List Action :=
  [.placeOrderV3 (call 8 1000) (limitOrder .ask 1 10 1000),
    .placeOrderV3 (call 9 1000) (limitOrder .ask 2 10 1000)]

theorem position_le_limit_of_bidTwice : |(((genesis.after limitedRun).after
    (bidTwice ++ sellTwice.take 1)).live.seats 0).basePosition| ≤ 10 := by
  have hr : Run Action.Accepted genesis limitedRun (genesis.after limitedRun) :=
    run_accepted (by decide +kernel)
  exact position_le_limit genesis_initial hr (by decide) (by decide +kernel)
    (by decide +kernel) (run_of_accepts (by decide +kernel)) (by decide)

/-- Both bids are admitted and both are filled. -/
theorem position_beyond_limit : ∃ (w₀ w₁ w : World) (as₀ as : List Action), w₀.Initial ∧
    Run Action.Accepted w₀ as₀ w₁ ∧ w₁.live.core.config.maximumPosition = 10 ∧
    (∀ i < v3SeatCount, (w₁.live.seats i).basePosition = 0) ∧ Run Action.Accepted w₁ as w ∧
    w.live.core.config.maximumPosition = 10 ∧ (w.live.seats 0).basePosition = 20 :=
  ⟨genesis, _, _, limitedRun, bidTwice ++ sellTwice, genesis_initial,
    run_accepted (by decide +kernel), by decide +kernel, by decide +kernel,
    run_accepted (by decide +kernel), by decide +kernel⟩

/-! ## Resting exposure -/

/-- What the position of a seat comes to on a side when all its orders there are filled. -/
def TraderSeat.exposure (seat : TraderSeat) : Side → ℤ
  | .bid => max seat.basePosition 0 + seat.ordered .bid
  | .ask => max (-seat.basePosition) 0 + seat.ordered .ask

/-- An order is admitted only with room for all of it beside what rests on its side. The
liquidation of a flat seat, which buys one, counts as an order. -/
def Action.KeepsExposure (limit : ℤ) (m : Market) : Action → Prop
  | liquidateV3 _ i _ => (m.seats i).basePosition = 0 → (m.seats i).exposure .bid < limit
  | placeOrderV3 ctx order | replaceOrderV3 ctx _ order =>
    match order.shape ctx.now with
    | .ok (side, _) => (m.seats order.seatIndex).exposure side + order.quantity ≤ limit
    | .error _ => True
  | _ => True

instance (limit : ℤ) (m : Market) (a : Action) : Decidable (a.KeepsExposure limit m) := by
  unfold Action.KeepsExposure
  split
  · infer_instance
  · split <;> infer_instance
  · split <;> infer_instance
  · infer_instance

def Market.Exposed (limit : ℤ) (m : Market) : Prop := ∀ i side, (m.seats i).exposure side ≤ limit

theorem TraderSeat.exposure_eq {seat' : TraderSeat} (hp : seat'.basePosition = seat.basePosition)
    (ho : ∀ k, seat'.ordered k = seat.ordered k) (side : Side) :
    seat'.exposure side = seat.exposure side := by
  cases side <;> simp only [exposure, hp, ho]

def Side.field : Side → OrderField
  | .bid => .bid
  | .ask => .ask

theorem orderShare_field (closes : Bool) (side side' : Side) (n : ℕ) (margin : ℤ) :
    orderShare closes side n margin side'.field = if side = side' then (n : ℤ) else 0 := by
  cases side' <;> rfl

/-- What fills move the position of a maker by, they take from its orders. -/
theorem V3Fill.exists_sum_share (fills : List V3Fill) (taker : ℕ) (side : Side) (bps i : ℕ) :
    ∃ n : ℕ, (fills.map (·.moves taker side i)).sum = side.opposite.signed n +
        (if taker = i then side.signed (fills.map (·.quantity)).sum else 0) ∧
      ∀ side', (fills.map (·.share side.opposite bps i side'.field)).sum =
        if side.opposite = side' then (n : ℤ) else 0 := by
  induction fills with
  | nil => exact ⟨0, by cases side <;> simp [signed, opposite], by simp⟩
  | cons fill fills ih =>
    obtain ⟨n, hm, hs⟩ := ih
    refine ⟨n + if fill.makerOwner = i then fill.quantity else 0, ?_, fun side' => ?_⟩
    · rw [map_cons, sum_cons, hm, moves, map_cons, sum_cons, signed_add, signed_add]
      split <;> split <;> cases side <;> simp only [signed, opposite] <;> omega
    · rw [map_cons, sum_cons, hs, share, orderShare_field]
      split <;> split <;> omega

namespace Market.Placed

variable (h : Placed ctx order actions oracle behavior prepared uses m m')

include h

theorem filled_add_remaining_le :
    (prepared.plan.fills.map (·.quantity)).sum + prepared.plan.takerRemaining ≤ order.quantity := by
  have hf : (prepared.plan.fills.map (·.quantity)).sum = (uses.map filledIn).sum := by
    rw [h.fills_eq, sum_map_filterMap]
    refine congrArg List.sum (map_congr_left fun u _ => ?_)
    obtain ⟨x, use⟩ := u
    cases use <;> rfl
  have hle : (uses.map filledIn).sum ≤ (uses.map consumed).sum := by
    refine sum_le_sum fun u hu => ?_
    obtain ⟨x, use⟩ := u
    cases use with
    | filled n => exact h.walk.filled_le hu
    | _ => exact Nat.zero_le _
  have := h.walk.filled_sum_le
  have := h.takerRemaining_eq
  omega

theorem exposure_le (i : ℕ) (side : Side) :
    (m'.seats i).exposure side ≤ (m.seats i).exposure side +
      if order.seatIndex = i ∧ prepared.side = side then (order.quantity : ℤ) else 0 := by
  obtain ⟨_, _, _, _, _, hex⟩ := h.executed
  obtain ⟨n, hm, hs⟩ := V3Fill.exists_sum_share prepared.plan.fills order.seatIndex prepared.side
    prepared.config.initialMarginBps i
  have hf := h.filled_add_remaining_le
  have ho := hex.ordered i side.field
  have hp := hex.position i
  have hc : 0 ≤ (prepared.plan.cancellations.map
      (·.share prepared.config.initialMarginBps i side.field)).sum := by
    refine sum_nonneg (forall_mem_map.2 fun cancel _ => ?_)
    rw [V3SelfTradeCancellation.share, orderShare_field]
    positivity
  have hr : prepared.restShare order i side.field ≤
      if order.seatIndex = i ∧ prepared.side = side then (prepared.plan.takerRemaining : ℤ)
      else 0 := by
    rw [PreparedOrder.restShare, orderShare_field]
    grind
  rw [hs] at ho
  rw [hm] at hp
  by_cases ht : order.seatIndex = i <;> cases side <;> cases hside : prepared.side <;>
    simp only [exposure, field, ht, hside, true_and, false_and, if_true, if_false,
      opposite, signed, reduceCtorEq] at * <;> omega

end Market.Placed

theorem Market.Exposed.of_le (h : m.Exposed limit)
    (hle : ∀ i side, (m'.seats i).exposure side ≤ (m.seats i).exposure side) :
    m'.Exposed limit := fun i side => (hle i side).trans (h i side)

theorem Market.Exposed.withSeat (h : m.Exposed limit) (hlimit : 0 ≤ limit)
    (hp : seat.basePosition = 0) (ho : ∀ k, seat.ordered k = 0)
    (hlog : (m.withSeat i seat).Logged m') : m'.Exposed limit := by
  intro j side
  rw [hlog.seats]
  by_cases hji : j = i
  · subst hji
    rw [seats_withSeat_self]
    cases side <;> simpa [exposure, hp, ho] using hlimit
  · rw [seats_withSeat_of_ne hji]
    exact h j side

theorem Market.Cancelled.exposure_le {tree : TreeKind} {leaf : LeafNode} {side : Side}
    (h : Cancelled i side tree leaf m m') (j : ℕ) (side' : Side) :
    (m'.seats j).exposure side' ≤ (m.seats j).exposure side' := by
  obtain ⟨margin, -, ho⟩ := h.exists_ordered
  have hf := ho j side'.field
  rw [orderShare_field] at hf
  have hle : (m'.seats j).ordered side'.field ≤ (m.seats j).ordered side'.field := by
    grind
  cases side' <;> simpa [exposure, h.position, field] using hle

theorem Market.Cleared.exposure_le (h : Cleared m i replaced m') (j : ℕ) (side : Side) :
    (m'.seats j).exposure side ≤ (m.seats j).exposure side := by
  cases h with
  | unchanged => exact le_rfl
  | cancelled cancel same =>
    rw [same.seats]
    exact cancel.exposure_le j side

theorem Market.Liquidated.exposure_le {maxQuantity : ℕ} {mark fee : ℤ} {settled filled : TraderSeat}
    (h : Liquidated i maxQuantity mark config settled filled fee m m')
    (hm : m.Exposed limit)
    (ha : (m.seats i).basePosition = 0 → (m.seats i).exposure .bid < limit) : m'.Exposed limit := by
  intro j side
  by_cases hji : j = i
  · subst hji
    have hs := hm j side
    by_cases hz : (m.seats j).basePosition = 0
    · have hb := ha hz
      have hp := h.position_of_flat hz
      cases side <;> simp only [exposure, h.ordered, hp, hz] at * <;> omega
    · obtain ⟨hlt, hlo, hsh⟩ := h.shrunk_iff.2 hz
      rw [Int.abs_eq_natAbs, Int.abs_eq_natAbs] at hlt
      cases side <;> simp only [exposure, h.ordered] at * <;> omega
  · rw [h.seats_of_ne hji]
    exact hm j side

theorem World.Turn.exposed (h : w.Turn a w') (hw : w.live.Valid) (hlimit : 0 ≤ limit)
    (hm : w.live.Exposed limit) (ha : a.KeepsExposure limit w.live) : w'.live.Exposed limit := by
  cases h with
  | opened _ _ logged => exact hm.withSeat hlimit rfl (ordered_opened _ _) logged
  | closed _ _ logged => exact hm.withSeat hlimit rfl ordered_empty logged
  | traded trades =>
    cases ho : a.ordering with
    | none =>
      refine trades.cancelling (P := fun m => m.Exposed limit) ho
        (fun m₁ m₂ _ _ _ _ hp hc => hp.of_le hc.exposure_le) (fun m₁ m₂ hp hs => ?_) hm
      exact hp.of_le fun i side => by rw [hs.seats]
    | some ordering =>
      obtain ⟨ctx, order, replaced⟩ := ordering
      obtain ⟨m₁, _, _, _, prepared, _, hcl, hpl, -⟩ := trades.ordered hw ho
      have hq : (w.live.seats order.seatIndex).exposure prepared.side + order.quantity ≤ limit := by
        cases a <;> simp only [Action.ordering, reduceCtorEq, Option.some.injEq,
          Prod.mk.injEq] at ho <;> obtain ⟨rfl, rfl, -⟩ := ho <;>
          simpa only [Action.KeepsExposure, hpl.prepares.shape] using ha
      intro i side
      have hle := hpl.exposure_le i side
      have hcle := hcl.exposure_le i side
      split at hle
      · rename_i ht
        obtain ⟨rfl, rfl⟩ := ht
        omega
      · have := hm i side
        omega
  | liquidated _ hl => exact hl.exposure_le hm ha
  | configured _ _ result | rolledBack result =>
    rw [result]
    exact hm
  | kept hol =>
    exact hm.of_le fun i side =>
      (exposure_eq (hol.position i) (hol.ordered i) side).le

/-- No position exceeds a limit in any run that admits orders only when they fit beside what the
seat already holds and has resting on their side. -/
theorem position_le_of_exposure (hinit : w₀.Initial) (hlimit : 0 ≤ limit)
    (hrun : Run (fun a w w' => a.Accepted w w' ∧ a.KeepsExposure limit w.live) w₀ as w) (i : ℕ) :
    |(w.live.seats i).basePosition| ≤ limit := by
  have hac := hrun.mono fun _ _ _ => And.left
  have hz : w₀.live.Exposed limit := by
    intro i side
    rw [hinit.seats]
    cases side <;> exact hlimit
  have he : w.live.Valid ∧ w.live.Exposed limit := by
    refine hrun.invariant (P := fun w => w.live.Valid ∧ w.live.Exposed limit) ⟨hinit.valid, hz⟩
      fun _ _ _ ht ha => ?_
    exact ⟨ha.1.step.valid ht.1, ha.1.step.turn.exposed ht.1 hlimit ht.2 ha.2⟩
  obtain ⟨hb, hask⟩ := (agrees_of_run hinit hac).ordered_exposure he.1 i
  have h₁ := he.2 i .bid
  have h₂ := he.2 i .ask
  simp only [exposure] at h₁ h₂
  rw [abs_le]
  omega

example :
    |((genesis.after (limitedRun ++ bidTwice.take 1 ++ sellTwice)).live.seats 0).basePosition| ≤
      10 :=
  position_le_of_exposure genesis_initial (by decide) (run_of_accepts (by decide +kernel)) 0

end Equinox
