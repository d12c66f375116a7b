import Equinox.Market.Prepared
import Equinox.V2.Scans
import Equinox.V2.Effects
import Equinox.V2.Refinement

/-! # Orders that only rest

An order without fills and without removals changes one arena, where it rests,
and one seat, which holds its margin, its exposure and one more order. It may
have been reduced by orders of its own seat, which stay as they are.
-/

namespace Equinox.V2

open Foundation CritBit Function Arena EStateM V2.Market

variable {m m' : Market} {ctx : Context} {order : PlaceOrderData} {u : Unit}

/-! ## Plans without fills -/

namespace PlannedMatch

/-- Until something is filled, an action that does not remove its leaf leaves it as it is. -/
def Keeping (plan : PlannedMatch) : Prop :=
  plan.fills = [] → ∀ action ∈ plan.actions, action.remove = false →
    action.newQuantity = action.expectedQuantity

def Idle (plan : PlannedMatch) : Prop :=
  plan.fills = [] ∧ ∀ action ∈ plan.actions, action.remove = false

instance (plan : PlannedMatch) : Decidable plan.Idle := inferInstanceAs (Decidable (_ ∧ _))

end PlannedMatch

variable {i : ℕ}

section Planning

variable {actions actions' : List PlanAction} {action : PlanAction} {plan plan' : PlannedMatch}
  {a : Arena} {oracle : Option I64} {now handle : ℕ} {tree : TreeKind} {leaf : LeafNode}
  {input : OrderInput} {maker : VirtualCandidate} {price : I64} {limits : MatchLimits}

theorem mem_addPlanAction (h : addPlanAction actions action = .ok actions') {other : PlanAction}
    (ho : other ∈ actions') : other ∈ actions ∨ other = action := by
  unfold addPlanAction at h
  split at h
  · obtain rfl := pure_eq_ok.1 h
    exact List.mem_or_eq_of_mem_set ho
  · simp only [ok_rules] at h
    obtain ⟨-, rfl⟩ := h
    simpa using ho

theorem PlannedMatch.Keeping.add (h : plan.Keeping) (hadd : addPlanAction plan.actions action =
      .ok actions') (hf : plan'.fills = plan.fills) (hac : plan'.actions = actions')
    (ha : action.remove = false → action.newQuantity = action.expectedQuantity) :
    plan'.Keeping := by
  intro hn other ho
  rw [hac] at ho
  rcases mem_addPlanAction hadd ho with hold | rfl
  · exact h (hf ▸ hn) other hold
  · exact ha

theorem PlannedMatch.Keeping.cleanup {side : Side} (hp : plan.Keeping)
    (h : planCleanup side oracle now limits tree handle leaf plan = .ok plan') : plan'.Keeping := by
  unfold planCleanup at h
  split at h
  · simp only [ok_rules] at h
    obtain ⟨-, actions, hadd, rfl⟩ := h
    exact hp.add hadd rfl rfl fun hno => by cases hno
  · obtain rfl := pure_eq_ok.1 h
    exact hp

theorem PlannedMatch.Keeping.selfTrade (hp : plan.Keeping)
    (h : planSelfTrade input maker plan = .ok plan') : plan'.Keeping := by
  unfold planSelfTrade at h
  split at h
  · obtain rfl := pure_eq_ok.1 h
    exact hp
  · simp only [ok_rules] at h
    obtain ⟨actions, hadd, rfl⟩ := h
    exact hp.add hadd rfl rfl fun hno => by cases hno
  · simp only [ok_rules] at h
    obtain ⟨actions, hadd, rfl⟩ := h
    exact hp.add hadd rfl rfl fun _ => rfl

theorem PlannedMatch.Keeping.fill (h : planFill input maker plan = .ok plan') : plan'.Keeping := by
  simp only [planFill, ok_rules] at h
  obtain ⟨actions, -, rfl⟩ := h
  intro hn
  simp at hn

theorem PlannedMatch.Keeping.walk {maxFills room : ℕ} (hp : plan.Keeping)
    (h : planFrom a input price oracle now maxFills room plan = .ok plan') : plan'.Keeping := by
  induction room generalizing plan with
  | zero =>
    obtain rfl := pure_eq_ok.1 h
    exact hp
  | succ room ih =>
    unfold planFrom at h
    split at h
    · obtain rfl := pure_eq_ok.1 h
      exact hp
    obtain ⟨candidate, -, h⟩ := bind_eq_ok.1 h
    cases candidate with
    | none =>
      obtain rfl := pure_eq_ok.1 h
      exact hp
    | some maker =>
      simp only at h
      split at h
      · obtain rfl := pure_eq_ok.1 h
        exact hp
      split at h
      · obtain rfl := pure_eq_ok.1 h
        exact hp
      split at h
      · obtain ⟨next, hs, h⟩ := bind_eq_ok.1 h
        split at h
        · obtain rfl := pure_eq_ok.1 h
          exact hp.selfTrade hs
        · exact ih (hp.selfTrade hs) h
      · obtain ⟨next, hf, h⟩ := bind_eq_ok.1 h
        exact ih (.fill hf) h

theorem PlannedMatch.Keeping.of_planLimitArena (ha : a.Valid)
    (h : planLimitArena a input oracle now limits = .ok plan) : plan.Keeping := by
  simp only [planLimitArena, ok_rules] at h
  obtain ⟨-, price, -, cleaned, hc, hw⟩ := h
  rw [ha.foldlM_forTrees fun handle tree leaf plan =>
    planCleanup input.side.opposite oracle now limits tree handle leaf plan] at hc
  have hs : (PlannedMatch.start input.quantity).Keeping := fun _ _ hno =>
    absurd hno List.not_mem_nil
  exact (foldlM_invariant (fun _ _ _ _ hp hst => hp.cleanup hst) hs hc).walk hw

theorem Arena.run_applyLeafQuantity_self (h : a.leaf i = .ok leaf) :
    Arena.applyLeafQuantityValidated i leaf.quantity a = .ok () a := by
  have hn : a.nodes i = .leaf leaf := by
    simp only [Arena.leaf, Arena.tag, ok_rules] at h
    obtain ⟨node, ⟨-, rfl⟩, h⟩ := h
    split at h
    · rename_i heq
      rw [heq, pure_eq_ok.1 h]
    · simp at h
  have hrun : Arena.applyLeafQuantity i leaf.quantity a = .ok () a := by
    have hr : reading (fun a : Arena => a.leaf i) a = .ok leaf a := run_reading_of_ok h
    rw [Arena.applyLeafQuantity, run_bind_of_ok hr]
    refine run_modify_eq_ok.2 ?_
    rw [← hn, update_eq_self]
  rw [Arena.applyLeafQuantityValidated, Arena.validated, hrun]

theorem applyAction_idle {removed removed' : Side → ℕ}
    (hv : validateAction m removed action = .ok removed') (hk : action.remove = false)
    (hs : action.newQuantity = action.expectedQuantity)
    (h : applyAction action m = .ok u m') : m' = m := by
  simp only [validateAction, ok_rules, checkBook_eq_ok] at hv
  obtain ⟨_, -, rfl, leaf, hl, ⟨-, hq⟩, -⟩ := hv
  simp only [applyAction, run_asking_bind, run_lift_bind, exists_require, hk,
    Bool.false_eq_true, if_false] at h
  obtain ⟨-, -, -, h⟩ := h
  rw [hs, ← hq] at h
  obtain ⟨arena, ha, rfl⟩ := run_onArena.1 h
  rw [run_applyLeafQuantity_self hl] at ha
  obtain ⟨-, rfl⟩ := Result.ok.inj ha
  rw [update_eq_self]

theorem applySettlementPlan_idle {removed removed' : Side → ℕ} (hi : plan.Idle)
    (hke : plan.Keeping)
    (hv : plan.actions.foldlM (validateAction m) removed = .ok removed')
    (h : applySettlementPlan plan m = .ok u m') : m' = m := by
  refine run_forM_invariant (P := fun m₁ => m₁ = m) ?_ rfl h
  rintro action ha m₁ m₂ rfl hs
  obtain ⟨_, _, hc⟩ := exists_step_of_foldlM hv ha
  have hk := hi.2 action ha
  exact applyAction_idle hc hk (hke hi.1 action ha hk) hs

end Planning

/-! ## What an order that only rests does -/

/-- The arenas, the seats, and what the header says about margin. -/
def Market.stage (m : Market) : (Side → Arena) × (ℕ → TraderSeat) × Bool × ℕ × ℕ × ℕ :=
  (m.arenas, m.seats, m.header.initialized, m.header.initialMarginBps,
    m.header.maintenanceMarginBps, m.header.maximumLeverage)

section Stage

instance stage_logEvent (kind : EventKind) (t : ℕ) (payload : EventPayload) :
    Keeps stage (logEvent kind t payload) where
  of_ok h := by
    obtain ⟨-, rfl⟩ := run_logEvent.1 h
    rfl

instance stage_creditFees (fee : ℤ) (i t : ℕ) : Keeps stage (creditFees fee i t) := by
  have (balance : ℕ) : Keeps stage (modifyHeader fun header =>
      { header with protocolFeeBalance := balance }) := .modify fun _ => rfl
  unfold creditFees
  infer_instance

end Stage

/-- An order rests at a handle, in an arena and for a seat that were changed for it. -/
structure Rested (m m' : Market) (order : PlaceOrderData) (leaf : LeafNode) (handle : ℕ)
    (arena : Arena) (seat : TraderSeat) : Prop where
  valid : ∀ side, (m.arenas side).Valid
  arena_valid : arena.Valid
  changed : Changed (orderTree order) handle (some leaf) (m.arenas (orderSide order)) arena
  fresh : ∀ i leaf', (m.arenas (orderSide order)).restingAt (orderTree order) i = some leaf' →
    leaf'.key ≠ leaf.key
  vacant : (m.arenas (orderSide order)).restingAt (orderTree order) handle = none
  arenas : m'.arenas = update m.arenas (orderSide order) arena
  owner : leaf.owner = order.seatIndex
  price : leaf.priceOrOffset = order.priceOrOffset
  quantity_pos : 0 < leaf.quantity
  index_lt : order.seatIndex < maxTraderSeats
  seats : m'.seats = update m.seats order.seatIndex seat
  trader : seat.trader = (m.seats order.seatIndex).trader
  count : seat.openOrderCount = (m.seats order.seatIndex).openOrderCount + 1
  exposure : ∀ side, seat.openExposure side = (m.seats order.seatIndex).openExposure side +
    if side = orderSide order then (leaf.quantity : ℤ) else 0
  /-- The margin of a fixed price is the one a cancellation computes. -/
  margin : orderTree order = .fixed → ∃ margin,
    0 < order.priceOrOffset.val ∧
    orderMargin m.header leaf.quantity order.priceOrOffset.val = .ok margin ∧
    InI128 ((m.seats order.seatIndex).reservedMargin + margin) ∧
    seat.reservedMargin = (m.seats order.seatIndex).reservedMargin + margin
  header_valid : m.header.validate = true ∧ m.header.initialized = true
  stage : (m'.header.initialized, m'.header.initialMarginBps, m'.header.maintenanceMarginBps,
    m'.header.maximumLeverage) = (m.header.initialized, m.header.initialMarginBps,
      m.header.maintenanceMarginBps, m.header.maximumLeverage)

theorem Arena.Valid.of_insert {a a' : Arena} {tree : TreeKind} {leaf : LeafNode}
    (ha : a.Valid) (h : insert tree leaf a = .ok i a') :
    a'.Valid ∧ Changed tree i (some leaf) a a' ∧ a.restingAt tree i = none ∧
      ∀ j leaf', a.restingAt tree j = some leaf' → leaf'.key ≠ leaf.key := by
  have hf : ∀ j leaf', a.restingAt tree j = some leaf' → leaf'.key ≠ leaf.key := by
    intro j leaf' hj hk
    rw [ha.insert_duplicate hj hk] at h
    cases h
  rcases le_or_gt (a.required tree) a.available with hro | hfu
  · obtain ⟨i', a₁, hr, hv, hc, hn, -⟩ := ha.insert_new hf hro
    obtain ⟨rfl, rfl⟩ := Result.ok.inj (h.symm.trans hr)
    exact ⟨hv, hc, hn, hf⟩
  · obtain ⟨a₁, hr, -⟩ := ha.insert_full hf hfu
    rw [hr] at h
    cases h

variable {header : MarketStateHeader} {input : OrderInput} {taker seat : TraderSeat}

theorem reserveRemainder_eq_ok {remaining : ℕ}
    (h : reserveRemainder header input remaining taker = .ok seat) :
    ∃ price margin, restingPrice header input = .ok price ∧
      orderMargin header remaining price.val = .ok margin ∧
      InI128 (taker.reservedMargin + margin) ∧ seat = { taker with
        reservedMargin := taker.reservedMargin + margin
        openOrderCount := taker.openOrderCount + 1 }.withExposure input.side
          (taker.openExposure input.side + remaining) := by
  simp only [reserveRemainder, ok_rules, exists_checkedI128] at h
  obtain ⟨price, hp, margin, hm, hr, -, -, rfl⟩ := h
  exact ⟨price, margin, hp, hm, hr, rfl⟩

def OrderPlan.RestsAlone (plan : OrderPlan) : Prop :=
  plan.settlement.plan.Idle ∧ rests plan.input plan.settlement.plan.remaining

instance (plan : OrderPlan) : Decidable plan.RestsAlone := inferInstanceAs (Decidable (_ ∧ _))

/-- What is planned for an order that rests alone. -/
structure OrderPlan.Rest (m : Market) (order : PlaceOrderData) (plan : OrderPlan)
    (seat : TraderSeat) : Prop where
  valid : ∀ side, (m.arenas side).Valid
  header_valid : m.header.validate = true ∧ m.header.initialized = true
  index_lt : order.seatIndex < maxTraderSeats
  keeping : plan.settlement.plan.Keeping
  checked : ∃ removed, plan.settlement.plan.actions.foldlM (validateAction m) (fun _ => 0) =
    .ok removed
  input : ∃ behavior sequence, plan.input = orderInput order behavior sequence
  key : ∃ leaf, plan.input.toOrderInput.leaf = .ok leaf ∧ leaf.key = plan.orderKey
  price_pos : orderTree order = .fixed → 0 < order.priceOrOffset.val
  reserved : ∃ taker payment,
    Risk.settleFunding (m.seats order.seatIndex) m.header.fundingAccumulator =
      .ok (payment, taker) ∧
    reserveRemainder m.header plan.input plan.settlement.plan.remaining taker = .ok seat
  results : plan.settlement.seatResults = [(order.seatIndex, seat)]
  events : plan.settlement.events = []

variable {settlement : Settlement}

theorem planSeatResults_plan
    {plan : PlannedMatch}
    (h : planSeatResults m header input taker plan = .ok settlement) : settlement.plan = plan := by
  simp only [planSeatResults, ok_rules] at h
  obtain ⟨_, -, _, -, _, -, _, -, rfl⟩ := h
  rfl

theorem planSeatResults_rest
    {plan : PlannedMatch} (hi : plan.fills = [])
    (hr : rests input plan.remaining)
    (h : planSeatResults m header input taker plan = .ok settlement) :
    settlement.events = [] ∧ ∃ seat,
      reserveRemainder header input plan.remaining taker = .ok seat ∧
      settlement.seatResults = [(input.owner, seat)] := by
  simp only [planSeatResults, hi, ok_rules, settleRemainder, if_pos hr] at h
  obtain ⟨settled, hse, seat, hs, _, -, _, -, rfl⟩ := h
  obtain rfl := pure_eq_ok.1 hse
  exact ⟨rfl, seat, hs, rfl⟩

theorem validateBooks_valid (h : validateBooks m = .ok ()) (side : Side) :
    (m.arenas side).Valid := by
  have hs := forM_eq_ok.1 h side (by cases side <;> simp)
  simp only [bind_eq_ok, checkBook_eq_ok] at hs
  obtain ⟨⟨⟩, hv, -⟩ := hs
  exact hv

variable {plan : OrderPlan}

theorem planOrder_rest {trader owner : Address} {s : Bool}
    (h : planOrder m order trader owner s = .ok plan) (hres : plan.RestsAlone) :
    ∃ seat, plan.Rest m order seat := by
  simp only [planOrder, ok_rules, initializedHeader_eq_ok, seatAt_eq_ok, okOr_eq_ok,
    checkBook_eq_ok] at h
  obtain ⟨_, ⟨hva, hin, rfl⟩, _, ⟨hi, rfl⟩, ⟨price, behavior⟩, hc, ⟨⟩, hb,
    taker, ht, sequence, -, leaf, hl, scratch, -, planned, hpl, settlement,
    hs, ⟨⟩, hv, -, -, rfl⟩ := h
  obtain ⟨⟨hf, -⟩, hr⟩ := hres
  have hp := planSeatResults_plan hs
  have ha := validateBooks_valid hb
  rw [hp] at hf hr
  obtain ⟨he, seat, hse, hresu⟩ := planSeatResults_rest hf hr hs
  simp only [checkOrder, ok_rules, Prod.mk.injEq] at hc
  obtain ⟨-, -, -, -, _, -, _, hpr, hpos, rfl, rfl⟩ := hc
  simp only [admitTaker, ok_rules, checkRisk_eq_ok] at ht
  obtain ⟨-, ⟨payment, settled⟩, hfu, _, -, _, -, _, -, -, rfl⟩ := ht
  simp only [validateSettlementPlan, ok_rules] at hv
  obtain ⟨-, -, -, _, -, -, _, -, -, removed, hre, -⟩ := hv
  refine ⟨seat, ha, ⟨hva, hin⟩, hi, ?keeping, ⟨removed, hre⟩,
    ⟨_, _, rfl⟩, ⟨leaf, hl, rfl⟩, ?price, ⟨settled, payment, hfu, ?reserved⟩, hresu, he⟩
  case keeping =>
    rw [hp]
    exact .of_planLimitArena (ha _) hpl
  case price =>
    intro hfi
    simp only [currentPrice, hfi] at hpr
    rw [pure_eq_ok.1 hpr]
    exact hpos
  case reserved =>
    rw [hp]
    exact hse

theorem OrderInput.leaf_withQuantity {input : Equinox.OrderInput} {leaf : LeafNode}
    (h : input.leaf = .ok leaf) (q : ℕ) :
    { input with quantity := q }.leaf = .ok { leaf with quantity := q } := by
  cases ht : input.tree
  all_goals
    simp only [Equinox.OrderInput.leaf, ht, ok_rules] at h ⊢
    obtain ⟨key, hk, rfl⟩ := h
    exact ⟨key, hk, rfl⟩

theorem applyScratchResults_rest
    (hr : settlement.seatResults = [(i, seat)]) (he : settlement.events = [])
    (h : applyScratchResults settlement m = .ok u m') : m' = m.withSeat i seat := by
  simp only [applyScratchResults, hr, he] at h
  obtain ⟨⟨⟩, m₁, hs, hf⟩ := run_bind_eq_ok.1 h
  obtain ⟨_, hfi, hn⟩ := run_forM_cons.1 hs
  obtain ⟨-, rfl⟩ := run_writeSeat.1 hfi
  obtain ⟨-, rfl⟩ := Result.ok.inj hn
  obtain ⟨-, rfl⟩ := Result.ok.inj hf
  rfl

/-- An accepted order that rests alone. -/
theorem applyOrder_rested (hp : plan.Rest m order seat)
    (hres : plan.RestsAlone) (h : applyOrder ctx order plan m = .ok u m') :
    ∃ leaf handle arena, leaf.key = plan.orderKey ∧
      leaf.quantity = plan.settlement.plan.remaining ∧
      Rested m m' order leaf handle arena seat := by
  obtain ⟨hid, hr⟩ := hres
  obtain ⟨⟨⟩, m₁, hb, h⟩ := run_bind_eq_ok.1 h
  obtain ⟨⟨⟩, m₂, hin, h⟩ := run_bind_eq_ok.1 h
  obtain ⟨⟨⟩, m₃, hresu, ht⟩ := run_bind_eq_ok.1 h
  obtain ⟨removed, hch⟩ := hp.checked
  obtain rfl := applySettlementPlan_idle hid hp.keeping hch hb
  obtain ⟨behavior, sequence, hi⟩ := hp.input
  have hs : plan.input.side = orderSide order := by rw [hi]; rfl
  have htr : plan.input.tree = orderTree order := by rw [hi]; rfl
  -- the leaf that is inserted has the key of the whole order
  obtain ⟨whole, hw, hk⟩ := hp.key
  simp only [insertRemainder, if_pos hr, run_lift_bind, checkBook_eq_ok,
    OrderInput.leaf_withQuantity hw, Except.ok.injEq, exists_eq_left'] at hin
  obtain ⟨handle, m₂', hrun, hpu⟩ := run_bind_eq_ok.1 hin
  obtain ⟨-, rfl⟩ := Result.ok.inj hpu
  obtain ⟨arena, ha, rfl⟩ := run_onArena.1 hrun
  obtain ⟨har, hc, hv, hfr⟩ := (hp.valid _).of_insert ha
  rw [hs, htr] at hc hv hfr
  obtain rfl := applyScratchResults_rest hp.results hp.events hresu
  obtain ⟨⟨⟩, m₄, hh, ht⟩ := run_bind_eq_ok.1 ht
  obtain ⟨⟨⟩, m₅, hl, ht⟩ := run_bind_eq_ok.1 ht
  obtain ⟨⟨⟩, m₆, hfe, hsc⟩ := run_bind_eq_ok.1 ht
  have hst : m'.stage = stage { m₁ with
      arenas := update m₁.arenas (orderSide order) arena
      seats := update m₁.seats order.seatIndex seat } := by
    rw [← run_modify_eq_ok.1 hsc]
    change m₆.stage = _
    rw [kept_of_ok stage hfe, kept_of_ok stage hl, ← run_modify_eq_ok.1 hh, ← hs]
    rfl
  obtain ⟨hare, hrest⟩ := Prod.mk.inj hst
  obtain ⟨hse, hte⟩ := Prod.mk.inj hrest
  obtain ⟨taker, payment, hfu, hre⟩ := hp.reserved
  obtain ⟨-, rfl⟩ := Risk.settleFunding_eq_ok hfu
  obtain ⟨price, margin, hpr, hm, hra, rfl⟩ := reserveRemainder_eq_ok hre
  have hwh := Equinox.OrderInput.leaf_eq_ok hw
  refine ⟨{ whole with quantity := plan.settlement.plan.remaining }, handle, arena, hk, rfl, {
    valid := hp.valid
    arena_valid := har
    changed := hc
    fresh := hfr
    vacant := hv
    arenas := hare
    owner := ?owner
    price := ?price
    quantity_pos := hr.1
    index_lt := hp.index_lt
    seats := hse
    trader := ?trader
    count := ?count
    exposure := ?exposure
    margin := ?margin
    header_valid := hp.header_valid
    stage := hte }⟩
  case owner =>
    obtain ⟨_, -, rfl⟩ := hwh
    rw [hi]
    rfl
  case price =>
    obtain ⟨_, -, rfl⟩ := hwh
    rw [hi]
    rfl
  case trader => rw [hs]; cases orderSide order <;> rfl
  case count => rw [hs]; cases orderSide order <;> rfl
  case exposure =>
    intro side
    rw [hs]
    cases hki : orderSide order <;> cases side <;>
      simp [TraderSeat.openExposure, TraderSeat.withExposure]
  case margin =>
    intro hf
    have hat : price = order.priceOrOffset := by
      simp only [restingPrice, htr, hf] at hpr
      rw [← pure_eq_ok.1 hpr, hi]
      rfl
    subst hat
    refine ⟨margin, hp.price_pos hf, hm, hra, ?_⟩
    rw [hs]
    cases orderSide order <;> rfl

theorem placeOrder_owner (ho : ctx.signer = (m.seats order.seatIndex).trader)
    (h : placeOrder ctx order m = .ok u m') :
    ∃ plan, planOrder m order ctx.signer ctx.signer false = .ok plan ∧
      applyOrder ctx order plan m = .ok () m' := by
  simp only [placeOrder, authorizeOrder, authorizeTradingActor, run_rules, bind_eq_ok,
    exists_checkedI128, seatAt_eq_ok, pure_eq_ok] at h
  obtain ⟨_, ⟨_, -, _, -, _, ⟨-, rfl⟩, -, _, ha, rfl⟩, h⟩ := h
  rw [if_pos ho] at ha
  simp only [ok_rules] at ha
  obtain ⟨-, rfl⟩ := ha
  obtain ⟨charge, m₁, hc, hs⟩ := run_bind_eq_ok.1 h
  obtain ⟨-, rfl⟩ := Result.ok.inj hs
  simp only [placeOrderCore, run_rules, ← ho] at hc
  obtain ⟨plan, hp, hc⟩ := hc
  obtain ⟨⟨⟩, m₂, hap, hpu⟩ := run_bind_eq_ok.1 hc
  obtain ⟨-, rfl⟩ := Result.ok.inj hpu
  exact ⟨plan, hp, hap⟩

theorem placeOrder_rested
    (ho : ctx.signer = (m.seats order.seatIndex).trader)
    (hp : planOrder m order ctx.signer ctx.signer false = .ok plan) (hr : plan.RestsAlone)
    (h : placeOrder ctx order m = .ok u m') :
    ∃ leaf handle arena seat, leaf.key = plan.orderKey ∧
      leaf.quantity = plan.settlement.plan.remaining ∧
      Rested m m' order leaf handle arena seat := by
  obtain ⟨plan', hp', ha⟩ := placeOrder_owner ho h
  obtain rfl := Except.ok.inj (hp.symm.trans hp')
  obtain ⟨seat, hre⟩ := planOrder_rest hp hr
  obtain ⟨leaf, handle, arena, hk, hq, hres⟩ := applyOrder_rested hre hr ha
  exact ⟨leaf, handle, arena, seat, hk, hq, hres⟩

end Equinox.V2
