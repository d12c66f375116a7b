import Equinox.V2.EventStream
import Equinox.V2.Resting

/-! # Cancelling what was placed

A cancellation looks for its key among the fixed orders of a seat, bids first,
and gives back the count and the margin of the order it finds. It never gives
back the exposure, and it never finds a pegged order. Apart from the exposure it
undoes the placing of exactly those orders that it can find under their keys.
-/

namespace Equinox.V2

open Foundation CritBit Function Arena Option EStateM V2.Market

variable {m m' m'' : Market} {ctx ctx' : Context} {order : PlaceOrderData} {leaf : LeafNode}
  {i handle : ℕ} {key : Key} {u : Unit}

/-! ## Finding the order -/

section Removal

variable {a : Arena}

def Arena.Lacks (a : Arena) (owner : ℕ) (key : Key) : Prop :=
  ∀ handle leaf, a.restingAt .fixed handle = some leaf → leaf.key = key → leaf.owner ≠ owner

theorem Arena.Valid.run_removeOwned (ha : a.Valid) (h : a.restingAt .fixed handle = some leaf) :
    ∃ a', removeOwned .fixed leaf.key leaf.owner a = .ok leaf a' ∧ a'.Valid ∧
      Changed .fixed handle none a a' := by
  obtain ⟨a', hr, hv, hc, -⟩ := ha.remove h
  have hf : reading (fun a : Arena => a.find .fixed leaf.key) a = .ok handle a :=
    run_reading_of_ok (ha.find_eq_ok.2 ⟨leaf, h, rfl⟩)
  have hl : reading (fun a : Arena => a.leaf handle) a = .ok leaf a :=
    run_reading_of_ok (ha.leaf_eq h)
  refine ⟨a', ?_, hv, hc⟩
  rw [removeOwned, run_bind_of_ok hf, run_bind_of_ok hl, run_bind_of_ok (run_require_of rfl), hr]

theorem Arena.Valid.run_removeOwned_missing (ha : a.Valid) (h : a.Lacks i key) :
    ∃ e, removeOwned .fixed key i a = .error e a ∧ bookError e ≠ .computeBudgetExceeded := by
  by_cases hmem : ∃ handle leaf, a.restingAt .fixed handle = some leaf ∧ leaf.key = key
  · obtain ⟨handle, leaf, hr, rfl⟩ := hmem
    have hf : reading (fun a : Arena => a.find .fixed leaf.key) a = .ok handle a :=
      run_reading_of_ok (ha.find_eq_ok.2 ⟨leaf, hr, rfl⟩)
    have hl : reading (fun a : Arena => a.leaf handle) a = .ok leaf a :=
      run_reading_of_ok (ha.leaf_eq hr)
    refine ⟨.invalidOwner, ?_, by simp [bookError]⟩
    rw [removeOwned, run_bind_of_ok hf, run_bind_of_ok hl,
      run_bind_of_error (run_require_of_not (h handle leaf hr rfl))]
  · have hf : reading (fun a : Arena => a.find .fixed key) a = .error .missingKey a := by
      refine run_reading_of_error (ha.find_eq_error fun j leaf hj hk => ?_)
      exact hmem ⟨j, leaf, hj, hk⟩
    refine ⟨.missingKey, ?_, by simp [bookError]⟩
    rw [removeOwned, run_bind_of_error hf]

theorem run_removeFixed_bid (ha : (m.arenas .bid).Valid)
    (h : (m.arenas .bid).restingAt .fixed handle = some leaf) :
    ∃ arena, removeFixed leaf.owner leaf.key m =
        .ok leaf { m with arenas := update m.arenas .bid arena } ∧
      arena.Valid ∧ Changed .fixed handle none (m.arenas .bid) arena := by
  obtain ⟨arena, hr, hv, hc⟩ := ha.run_removeOwned h
  refine ⟨arena, ?_, hv, hc⟩
  rw [removeFixed, run_onArena.2 ⟨arena, hr, rfl⟩]

theorem run_removeFixed_of_lacks (ha : (m.arenas .bid).Valid) (h : (m.arenas .bid).Lacks i key) :
    removeFixed i key m = onArena .ask (removeOwned .fixed key i) m := by
  obtain ⟨e, hr, hne⟩ := ha.run_removeOwned_missing h
  have hb : onArena .bid (removeOwned .fixed key i) m = .error (bookError e) m := by
    rw [onArena, hr]
    simp
  rw [removeFixed, hb]
  cases hbo : bookError e <;> simp_all

/-- What a successful removal took, and from where. -/
theorem removeFixed_eq_ok (hv : ∀ side, (m.arenas side).Valid)
    (h : removeFixed i key m = .ok leaf m') :
    ∃ side handle arena, (m.arenas side).restingAt .fixed handle = some leaf ∧ leaf.key = key ∧
      leaf.owner = i ∧ (side = .ask → (m.arenas .bid).Lacks i key) ∧ arena.Valid ∧
      Changed .fixed handle none (m.arenas side) arena ∧
      m' = { m with arenas := update m.arenas side arena } := by
  by_cases hb : (m.arenas .bid).Lacks i key
  · rw [run_removeFixed_of_lacks (hv .bid) hb] at h
    by_cases ha : (m.arenas .ask).Lacks i key
    · obtain ⟨e, hrun, -⟩ := (hv .ask).run_removeOwned_missing ha
      obtain ⟨arena, hok, -⟩ := run_onArena.1 h
      rw [hrun] at hok
      cases hok
    · simp only [Lacks, not_forall, not_not] at ha
      obtain ⟨handle, leaf', hr, rfl, rfl⟩ := ha
      obtain ⟨arena, hrun, hv', hc⟩ := (hv .ask).run_removeOwned hr
      obtain ⟨arena', hok, rfl⟩ := run_onArena.1 h
      obtain ⟨rfl, rfl⟩ := Result.ok.inj (hrun.symm.trans hok)
      exact ⟨.ask, handle, arena, hr, rfl, rfl, fun _ => hb, hv', hc, rfl⟩
  · simp only [Lacks, not_forall, not_not] at hb
    obtain ⟨handle, leaf', hr, rfl, rfl⟩ := hb
    obtain ⟨arena, hrun, hv', hc⟩ := run_removeFixed_bid (hv .bid) hr
    obtain ⟨rfl, rfl⟩ := Result.ok.inj (hrun.symm.trans h)
    exact ⟨.bid, handle, arena, hr, rfl, rfl, nofun, hv', hc, rfl⟩

theorem Arena.Valid.lacks_iff (ha : a.Valid) : a.Lacks i key ↔
    ∀ leaf, (a.maps .fixed).lookup key = some leaf → leaf.owner ≠ i := by
  constructor
  · intro h leaf hl
    obtain ⟨hk, handle, hr⟩ := ha.lookup_maps.1 hl
    exact h handle leaf hr hk
  · intro h handle leaf hr hk
    exact h leaf (ha.lookup_maps.2 ⟨hk, handle, hr⟩)

end Removal

/-! ## Cancelling as the trader -/

theorem cancelOrder_owner_iff (ho : ctx.signer = (m.seats i).trader) :
    cancelOrder ctx i key 0 m = .ok u m' ↔
      m.header.validate = true ∧ m.header.initialized = true ∧ i < maxTraderSeats ∧
      ∃ m₁, cancelOrderCore i key m = .ok () m₁ ∧
        logEvent .orderCancelled ctx.eventTimestamp (.orderKey i key) m₁ = .ok () m' := by
  have haut : authorizeCancel m ctx i sessionActionCancel 0 =
      .ok (none, ⟨(m.seats i).trader, i, ctx.signer⟩) ↔
      m.header.validate = true ∧ m.header.initialized = true ∧ i < maxTraderSeats := by
    simp only [authorizeCancel, ok_rules, initializedHeader_eq_ok, seatAt_eq_ok]
    constructor
    · rintro ⟨_, ⟨hv, hin, rfl⟩, _, ⟨hi, rfl⟩, -⟩
      exact ⟨hv, hin, hi⟩
    · rintro ⟨hv, hin, hi⟩
      refine ⟨_, ⟨hv, hin, rfl⟩, _, ⟨hi, rfl⟩, none, ?_, rfl⟩
      rw [authorizeTradingActor, if_pos ho]
      rfl
  have hg {granted : Option TradingSession × SessionKey}
      (h : authorizeCancel m ctx i sessionActionCancel 0 = .ok granted) :
      granted = (none, ⟨(m.seats i).trader, i, ctx.signer⟩) := by
    simp only [authorizeCancel, ok_rules, initializedHeader_eq_ok, seatAt_eq_ok] at h
    obtain ⟨_, -, _, ⟨-, rfl⟩, session, ha, rfl⟩ := h
    rw [authorizeTradingActor, if_pos ho] at ha
    simp only [ok_rules] at ha
    rw [← ha.2]
  simp only [cancelOrder, run_rules]
  constructor
  · rintro ⟨granted, hau, h⟩
    obtain rfl := hg hau
    obtain ⟨hv, hin, hi⟩ := haut.1 hau
    dsimp only at h
    obtain ⟨⟨⟩, m₁, hc, h⟩ := run_bind_eq_ok.1 h.2
    obtain ⟨⟨⟩, m₂, hl, hs⟩ := run_bind_eq_ok.1 h
    obtain ⟨-, rfl⟩ := Result.ok.inj hs
    exact ⟨hv, hin, hi, m₁, hc, hl⟩
  · rintro ⟨hv, hin, hi, m₁, hc, hl⟩
    refine ⟨_, haut.2 ⟨hv, hin, hi⟩, ?_⟩
    dsimp only
    refine ⟨.inl ho.symm, run_bind_eq_ok.2 ⟨(), m₁, hc, run_bind_eq_ok.2 ⟨(), m', hl, ?_⟩⟩⟩
    rfl

/-- What a cancellation takes and what it gives back. -/
theorem cancelOrderCore_eq_ok (hv : ∀ side, (m.arenas side).Valid)
    (h : cancelOrderCore i key m = .ok u m') :
    ∃ leaf side handle arena, (m.arenas side).restingAt .fixed handle = some leaf ∧
      leaf.key = key ∧ leaf.owner = i ∧ (side = .ask → (m.arenas .bid).Lacks i key) ∧
      arena.Valid ∧ Changed .fixed handle none (m.arenas side) arena ∧
      m'.arenas = update m.arenas side arena ∧
      ∀ s, (m'.seats i).openExposure s = (m.seats i).openExposure s := by
  obtain ⟨leaf, m₁, hr, h⟩ := run_bind_eq_ok.1 h
  obtain ⟨side, handle, arena, hre, hk, ho, hl, ha, hc, rfl⟩ := removeFixed_eq_ok hv hr
  refine ⟨leaf, side, handle, arena, hre, hk, ho, hl, ha, hc, ?_⟩
  simp only [run_rules, seatAt_eq_ok] at h
  obtain ⟨_, ⟨-, rfl⟩, h⟩ := h
  split at h
  · simp only [run_lift_bind] at h
    obtain ⟨_, -, release, -, hw⟩ := h
    obtain ⟨-, rfl⟩ := run_writeSeat.1 hw
    refine ⟨rfl, fun s => ?_⟩
    simp only [withSeat, update_self]
    cases s <;> rfl
  · obtain ⟨-, rfl⟩ := run_writeSeat.1 h
    refine ⟨rfl, fun s => ?_⟩
    simp only [withSeat, update_self]
    cases s <;> rfl

/-! ## Undoing an order that rests -/

theorem orderMargin_congr {header he' : MarketStateHeader}
    (h : he'.initialMarginBps = header.initialMarginBps) (q : ℕ) (p : ℤ) :
    orderMargin he' q p = orderMargin header q p := by
  rw [orderMargin, orderMargin, h]

/-- The books, the count and the margin of a seat are what they were. -/
structure Market.Regained (m m'' : Market) (i : ℕ) : Prop where
  books : ∀ side, (m''.arenas side).maps = (m.arenas side).maps
  count : (m''.seats i).openOrderCount = (m.seats i).openOrderCount
  margin : (m''.seats i).reservedMargin = (m.seats i).reservedMargin

namespace Rested

variable {arena : Arena} {seat : TraderSeat} (h : Rested m m' order leaf handle arena seat)

include h

theorem valid_after (side : Side) : (m'.arenas side).Valid := by
  rw [h.arenas]
  by_cases hs : side = orderSide order
  · rw [hs, update_self]
    exact h.arena_valid
  · rw [update_of_ne hs]
    exact h.valid side

theorem arena_eq : m'.arenas (orderSide order) = arena := by rw [h.arenas, update_self]

theorem header_after : m'.header.validate = true ∧ m'.header.initialized = true := by
  obtain ⟨hv, hin⟩ := h.header_valid
  have ht := h.stage
  simp only [Prod.mk.injEq] at ht
  obtain ⟨hi, hm, hn, hl⟩ := ht
  refine ⟨?_, hi.trans hin⟩
  unfold MarketStateHeader.validate at hv ⊢
  rw [hm, hn, hl]
  exact hv

theorem books_ne {a'' : Arena} (ha : a''.Valid)
    (hr : a''.restingAt (orderTree order) handle = some leaf) :
    a''.maps ≠ (m.arenas (orderSide order)).maps := by
  intro heq
  have hl : (a''.maps (orderTree order)).lookup leaf.key = some leaf :=
    ha.lookup_maps.2 ⟨rfl, handle, hr⟩
  rw [heq] at hl
  obtain ⟨-, j, hj⟩ := (h.valid _).lookup_maps.1 hl
  exact h.fresh j leaf hj rfl

theorem books_eq {a'' : Arena} (ha : a''.Valid)
    (hc : Changed (orderTree order) handle none arena a'') :
    a''.maps = (m.arenas (orderSide order)).maps := by
  refine maps_eq_of_resting (h.valid _) ha fun k j => ?_
  rw [hc.restingAt, h.changed.restingAt]
  split_ifs with hij
  · obtain ⟨rfl, rfl⟩ := Prod.mk.inj hij
    exact h.vacant.symm
  · rfl

/-- The order is found under its key, if no bid of the seat is found first. -/
theorem run_removeFixed (hf : orderTree order = .fixed)
    (hl : orderSide order = .ask → (m.arenas .bid).Lacks order.seatIndex leaf.key) :
    ∃ a'', removeFixed order.seatIndex leaf.key m' =
        .ok leaf { m' with arenas := update m.arenas (orderSide order) a'' } ∧
      a''.Valid ∧ Changed .fixed handle none arena a'' := by
  have hre : (m'.arenas (orderSide order)).restingAt .fixed handle = some leaf := by
    rw [h.arena_eq, ← hf]
    exact h.changed.self
  have hu (a'' : Arena) : update m'.arenas (orderSide order) a'' =
      update m.arenas (orderSide order) a'' := by
    rw [h.arenas, update_idem]
  cases hs : orderSide order with
  | bid =>
    rw [hs] at hre hu
    obtain ⟨a'', hr, hv, hc⟩ := run_removeFixed_bid (h.valid_after .bid) hre
    rw [← hs, h.arena_eq] at hc
    rw [hu, h.owner] at hr
    exact ⟨a'', hr, hv, hc⟩
  | ask =>
    rw [hs] at hre hu
    have hb : m'.arenas .bid = m.arenas .bid := by
      rw [h.arenas, hs, update_of_ne (by simp)]
    have hn : (m'.arenas .bid).Lacks order.seatIndex leaf.key := by
      rw [hb]
      exact hl hs
    obtain ⟨a'', hr, hv, hc⟩ := (h.valid_after .ask).run_removeOwned hre
    rw [h.owner] at hr
    rw [← hs, h.arena_eq] at hc
    refine ⟨a'', ?_, hv, hc⟩
    rw [run_removeFixed_of_lacks (h.valid_after .bid) hn, run_onArena.2 ⟨a'', hr, rfl⟩, hu]

theorem run_cancelOrderCore (hm : InI128 (m.seats order.seatIndex).reservedMargin)
    (hf : orderTree order = .fixed)
    (hl : orderSide order = .ask → (m.arenas .bid).Lacks order.seatIndex leaf.key) :
    ∃ m'', cancelOrderCore order.seatIndex leaf.key m' = .ok () m'' ∧
      m''.header = m'.header ∧ m.Regained m'' order.seatIndex := by
  obtain ⟨a'', hrun, hv, hc⟩ := h.run_removeFixed hf hl
  obtain ⟨margin, hpos, hm', hra, hr⟩ := h.margin hf
  obtain ⟨hh, hi⟩ := h.header_after
  have ht := h.stage
  simp only [Prod.mk.injEq] at ht
  have hse : m'.seats order.seatIndex = seat := by rw [h.seats, update_self]
  let m₁ : Market := { m' with arenas := update m.arenas (orderSide order) a'' }
  let released : TraderSeat := { seat with
    openOrderCount := seat.openOrderCount - 1
    reservedMargin := saturatingSubI128 seat.reservedMargin margin }
  refine ⟨m₁.withSeat order.seatIndex released, ?_, rfl, ?_, ?_, ?_⟩
  · refine run_bind_eq_ok.2 ⟨leaf, m₁, hrun, ?_⟩
    simp only [run_rules, seatAt_eq_ok]
    refine ⟨_, ⟨h.index_lt, rfl⟩, ?_⟩
    rw [h.price, if_pos hpos]
    simp only [run_lift_bind, initializedHeader_eq_ok]
    refine ⟨_, ⟨hh, hi, rfl⟩, margin, ?_, run_writeSeat.2 ⟨h.index_lt, ?_⟩⟩
    · exact (orderMargin_congr ht.2.1 _ _).trans hm'
    · rw [show m₁.seats order.seatIndex = seat from hse]
  · intro side
    change ((update m.arenas (orderSide order) a'') side).maps = _
    by_cases hs : side = orderSide order
    · rw [hs, update_self]
      refine h.books_eq hv ?_
      rw [hf]
      exact hc
    · rw [update_of_ne hs]
  · simp only [withSeat, update_self, released, h.count, Nat.add_sub_cancel]
  · simp only [withSeat, update_self, released, hr, saturatingSubI128]
    unfold InI128 at hm
    omega

/-- A cancellation under the key of the order that takes something else leaves the order. -/
theorem found_of_books {m₁ : Market}
    (hc : cancelOrderCore order.seatIndex leaf.key m' = .ok u m₁)
    (hbo : ∀ side, (m₁.arenas side).maps = (m.arenas side).maps) :
    orderTree order = .fixed ∧
      (orderSide order = .ask → (m.arenas .bid).Lacks order.seatIndex leaf.key) := by
  obtain ⟨taken, side, j, arena', -, -, -, hl, hv, hch, ha, -⟩ :=
    cancelOrderCore_eq_ok h.valid_after hc
  have hr : (m'.arenas (orderSide order)).restingAt (orderTree order) handle = some leaf := by
    rw [h.arena_eq]
    exact h.changed.self
  have hg : side = orderSide order ∧ orderTree order = .fixed := by
    by_contra hne
    have hst : (m₁.arenas (orderSide order)).restingAt (orderTree order) handle = some leaf := by
      rw [ha]
      by_cases hs : orderSide order = side
      · have ht : orderTree order ≠ .fixed := fun ht => hne ⟨hs.symm, ht⟩
        rw [hs, update_self, hch.other _ _ (by simp [ht]), ← hs]
        exact hr
      · rw [update_of_ne hs]
        exact hr
    have hv₁ : (m₁.arenas (orderSide order)).Valid := by
      rw [ha]
      by_cases hs : orderSide order = side
      · rw [hs, update_self]
        exact hv
      · rw [update_of_ne hs]
        exact h.valid_after _
    exact h.books_ne hv₁ hst (hbo _)
  obtain ⟨rfl, hf⟩ := hg
  refine ⟨hf, fun hask => ?_⟩
  have hb : m'.arenas .bid = m.arenas .bid := by
    rw [h.arenas, hask, update_of_ne (by simp)]
  rw [← hb]
  exact hl hask

end Rested

/-- The trader cancels an order that rests alone. The exposure stays with the seat, so the order is
never undone in full; all but the exposure is undone if and only if the price is fixed, no bid of
the seat has the key of an ask, and the cancellation can be logged. -/
theorem cancel_undoes_place_iff {plan : OrderPlan}
    (howner : ctx.signer = (m.seats order.seatIndex).trader)
    (hplan : planOrder m order ctx.signer ctx.signer false = .ok plan) (hrests : plan.RestsAlone)
    (hrange : InI128 (m.seats order.seatIndex).reservedMargin)
    (hplace : placeOrder ctx order m = .ok () m') (hsigner : ctx'.signer = ctx.signer) :
    ((∃ m'', cancelOrder ctx' order.seatIndex plan.orderKey 0 m' = .ok () m'' ∧
        (∀ side, (m''.arenas side).maps = (m.arenas side).maps) ∧
        (m''.seats order.seatIndex).openOrderCount = (m.seats order.seatIndex).openOrderCount ∧
        (m''.seats order.seatIndex).reservedMargin = (m.seats order.seatIndex).reservedMargin) ↔
      orderTree order = .fixed ∧ m'.header.globalEventSequence + 1 < 2 ^ 64 ∧
      (orderSide order = .ask → ∀ leaf,
        ((m.arenas .bid).maps .fixed).lookup plan.orderKey = some leaf →
          leaf.owner ≠ order.seatIndex)) ∧
    ∀ m'', cancelOrder ctx' order.seatIndex plan.orderKey 0 m' = .ok () m'' →
      (m''.seats order.seatIndex).openExposure (orderSide order) =
          (m.seats order.seatIndex).openExposure (orderSide order) +
            plan.settlement.plan.remaining ∧
        (m''.seats order.seatIndex).openExposure (orderSide order) ≠
          (m.seats order.seatIndex).openExposure (orderSide order) := by
  obtain ⟨leaf, handle, arena, seat, hk, hq, h⟩ := placeOrder_rested howner hplan hrests hplace
  have ho' : ctx'.signer = (m'.seats order.seatIndex).trader := by
    rw [h.seats, update_self, h.trader, hsigner, howner]
  obtain ⟨hh, hi⟩ := h.header_after
  rw [← hk, ← hq, ← (h.valid .bid).lacks_iff]
  simp only [cancelOrder_owner_iff ho', hh, hi, h.index_lt, true_and]
  refine ⟨⟨?_, ?_⟩, ?_⟩
  · rintro ⟨m'', ⟨m₁, hc, hlog⟩, hb, -, -⟩
    obtain ⟨hr, rfl⟩ := run_logEvent.1 hlog
    obtain ⟨hf, hl⟩ := h.found_of_books hc hb
    have hs : m₁.header = m'.header := (Prod.mk.inj (kept_of_ok record hc)).1
    rw [hs] at hr
    exact ⟨hf, hr, hl⟩
  · rintro ⟨hf, hr, hl⟩
    obtain ⟨m₁, hc, hs, hre⟩ := h.run_cancelOrderCore hrange hf hl
    refine ⟨_, ⟨m₁, hc, run_logEvent.2 ⟨?_, rfl⟩⟩, hre.books, hre.count, hre.margin⟩
    rw [hs]
    exact hr
  · rintro m'' ⟨m₁, hc, hlog⟩
    obtain ⟨-, rfl⟩ := run_logEvent.1 hlog
    obtain ⟨_, _, _, _, -, -, -, -, -, -, -, he⟩ := cancelOrderCore_eq_ok h.valid_after hc
    have ha : (m₁.seats order.seatIndex).openExposure (orderSide order) =
        (m.seats order.seatIndex).openExposure (orderSide order) + leaf.quantity := by
      rw [he, h.seats, update_self, h.exposure, if_pos rfl]
    have hpos := h.quantity_pos
    refine ⟨ha, fun heq => ?_⟩
    change (m₁.seats order.seatIndex).openExposure (orderSide order) = _ at heq
    omega

def quietMarket : List Action := marketCreation :: vaultInitialization :: (tradeRun 0).take 8

/-- Trader 7 bids for 20 units, at 50 or pegged one above the oracle. -/
def quietBid (tree : TreeKind) : PlaceOrderData :=
  match tree with
  | .fixed => limitOrder .bid 0 20 50
  | .oraclePegged => { limitOrder .bid 0 20 1 with tree := 1, pegLimit := 200 }

def afterBid (tree : TreeKind) (m : Market) : Result ProgramError Market Unit :=
  placeOrder ⟨7, 100, false⟩ (quietBid tree) m

def cancelBid (tree : TreeKind) (plan : OrderPlan) (m : Market) :
    Result ProgramError Market Unit :=
  cancelOrder ⟨7, 101, false⟩ 0 plan.orderKey 0 (finalState (afterBid tree m))

theorem planOrder_of_toOption {trader : Address} {plan : OrderPlan}
    (h : (planOrder m order trader trader false).toOption = some plan) :
    planOrder m order trader trader false = .ok plan := by
  cases hr : planOrder m order trader trader false with
  | ok plan' =>
    rw [hr] at h
    exact congrArg Except.ok (some.inj h)
  | error e =>
    rw [hr] at h
    cases h

/-- A bid at 50 is taken back with its margin. -/
theorem cancel_undoes_fixed_bid : ∃ m plan m' m'',
    planOrder m (quietBid .fixed) 7 7 false = .ok plan ∧ plan.RestsAlone ∧
    afterBid .fixed m = .ok () m' ∧ cancelBid .fixed plan m = .ok () m'' ∧
    (∀ side, (m''.arenas side).maps = (m.arenas side).maps) ∧
    (m''.seats 0).openOrderCount = (m.seats 0).openOrderCount ∧
    (m''.seats 0).reservedMargin = (m.seats 0).reservedMargin := by
  have hrun : (World.after quietMarket).any (fun w => (w.market.seats 0).trader = 7 ∧
      InI128 (w.market.seats 0).reservedMargin ∧
      isOk (afterBid .fixed w.market) = true ∧
      (finalState (afterBid .fixed w.market)).header.globalEventSequence + 1 < 2 ^ 64 ∧
      (planOrder w.market (quietBid .fixed) 7 7 false).toOption.any (fun plan =>
        plan.RestsAlone) = true) = true := by decide +kernel
  obtain ⟨w, -, hn⟩ := (any_eq_true _ _).1 hrun
  obtain ⟨ht, hr, hok, hro, hpla⟩ := of_decide_eq_true hn
  obtain ⟨plan, hpl, hre⟩ := (any_eq_true _ _).1 hpla
  have hp' := planOrder_of_toOption hpl
  have hr' : plan.RestsAlone := of_decide_eq_true hre
  have hp : placeOrder ⟨7, 100, false⟩ (quietBid .fixed) w.market =
      .ok () (finalState (afterBid .fixed w.market)) := eq_ok_of_isOk hok
  have hs : (⟨7, 101, false⟩ : Context).signer = (⟨7, 100, false⟩ : Context).signer := rfl
  obtain ⟨m'', hc, hb, hco, hm⟩ := (cancel_undoes_place_iff ht.symm hp'
    hr' hr hp hs).1.2 ⟨rfl, hro, nofun⟩
  exact ⟨w.market, plan, _, m'', hp', hr', hp, hc, hb, hco, hm⟩

/-- The exposure of a cancelled bid stays, and a pegged bid cannot be cancelled at all. -/
theorem cancel_leaves_exposure : ∃ m : Market,
    (∃ plan m' m'', planOrder m (quietBid .fixed) 7 7 false = .ok plan ∧ plan.RestsAlone ∧
      afterBid .fixed m = .ok () m' ∧ cancelBid .fixed plan m = .ok () m'' ∧
      (m.seats 0).openBidExposure = 0 ∧ (m''.seats 0).openOrderCount = 0 ∧
      (m''.seats 0).openBidExposure = 20) ∧
    ∃ plan m', planOrder m (quietBid .oraclePegged) 7 7 false = .ok plan ∧ plan.RestsAlone ∧
      afterBid .oraclePegged m = .ok () m' ∧ isOk (cancelBid .oraclePegged plan m) = false := by
  have hrun : (World.after quietMarket).any (fun w => (w.market.seats 0).openBidExposure = 0 ∧
      isOk (afterBid .fixed w.market) = true ∧
      isOk (afterBid .oraclePegged w.market) = true ∧
      (planOrder w.market (quietBid .fixed) 7 7 false).toOption.any (fun plan =>
        plan.RestsAlone ∧ isOk (cancelBid .fixed plan w.market) = true ∧
        ((finalState (cancelBid .fixed plan w.market)).seats 0).openOrderCount = 0 ∧
        ((finalState (cancelBid .fixed plan w.market)).seats 0).openBidExposure = 20) = true ∧
      (planOrder w.market (quietBid .oraclePegged) 7 7 false).toOption.any (fun plan =>
        plan.RestsAlone ∧ isOk (cancelBid .oraclePegged plan w.market) = false) = true) = true := by
    decide +kernel
  obtain ⟨w, -, hn⟩ := (any_eq_true _ _).1 hrun
  obtain ⟨hz, hfi, hp, hfix, hpe⟩ := of_decide_eq_true hn
  obtain ⟨plan, hpl, hc⟩ := (any_eq_true _ _).1 hfix
  obtain ⟨plan', hp', hr⟩ := (any_eq_true _ _).1 hpe
  obtain ⟨hre, hok, hco, he⟩ := of_decide_eq_true hc
  obtain ⟨hr', hf⟩ := of_decide_eq_true hr
  exact ⟨w.market,
    ⟨plan, _, _, planOrder_of_toOption hpl, hre, eq_ok_of_isOk hfi, eq_ok_of_isOk hok,
      hz, hco, he⟩, plan', _, planOrder_of_toOption hp', hr', eq_ok_of_isOk hp, hf⟩

end Equinox.V2
