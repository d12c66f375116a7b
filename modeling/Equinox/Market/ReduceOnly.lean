import Equinox.Market.Limits

/-! # Reduce-only orders

The flag is checked once, when an order is admitted. As a taker such an order
reduces its seat's position with every fill. As a maker it is filled at whatever
position the seat has by then, and nothing remembers the flag.
-/

namespace Equinox

open Foundation CritBit PagedBookV3 List World Market Option

variable {a : Action} {w w' w₀ : World} {as : List Action} {m m' s s' : Market} {ctx : Context}
  {order : PlaceOrderData} {actions i n : ℕ} {oracle : I64} {behavior : SelfTradeBehavior}
  {prepared : PreparedOrder} {uses before after : List (Maker × Use)} {side : Side} {x : Maker}
  {fill : V3Fill} {marked : List ℕ} {replaced : Option Key}

/-- A position comes closer to zero, if it changes, and does not turn. -/
def Reduces (before after : ℤ) : Prop :=
  |after| ≤ |before| ∧ ¬(0 < before ∧ after < 0) ∧ ¬(before < 0 ∧ 0 < after)

theorem reduces_maker_iff {p : ℤ} (hn : n ≠ 0) :
    Reduces p (p + side.opposite.signed n) ↔ n ≤ side.signed 1 * p := by
  simp only [Reduces, Int.abs_eq_natAbs]
  cases side <;> simp only [Side.opposite, Side.signed] <;> omega

theorem reduces_taker {p : ℤ} {k q : ℕ} (hn : k + n ≤ q) (hq : q ≤ p.natAbs)
    (h : |p + side.signed q| < |p|) :
    Reduces (p + side.signed k) (p + side.signed k + side.signed n) := by
  simp only [Reduces, Int.abs_eq_natAbs] at *
  cases side <;> simp only [Side.signed] at * <;> omega

/-! ## Single fills -/

/-- One fill of an accepted order, and the markets right before and right after it. -/
def Action.Fills (a : Action) (w w' : World) (order : PlaceOrderData) (fill : V3Fill)
    (s s' : Market) : Prop :=
  ∃ ctx replaced m actions prepared mBook mCancel mFill mRest mFund done rest,
    a.ordering = some (ctx, order, replaced) ∧
    Cleared w.live order.seatIndex replaced m ∧
    prepareOrder m ctx order actions = .ok prepared ∧
    Executed order prepared m mBook mCancel mFill mRest mFund w'.live ∧
    prepared.plan.fills = done ++ fill :: rest ∧
    done.forM (settleV3Fill order.seatIndex prepared.side prepared.config) mCancel = .ok () s ∧
    settleV3Fill order.seatIndex prepared.side prepared.config fill s = .ok () s'

namespace Market.Placed

variable (h : Placed ctx order actions oracle behavior prepared uses m m')

include h

/-- Each fill of the plan comes from a maker of the walk, and meets the positions that the uses
before it have left. -/
theorem uses_of_fill {mBook mCancel mFill mRest mFund : Market} {done rest : List V3Fill}
    (hex : Executed order prepared m mBook mCancel mFill mRest mFund m')
    (hf : prepared.plan.fills = done ++ fill :: rest)
    (hd : done.forM (settleV3Fill order.seatIndex prepared.side prepared.config) mCancel =
      .ok () s) :
    ∃ before x n after, uses = before ++ (x, .filled n) :: after ∧ fill = x.toFill n ∧
      ∀ i, (s.seats i).basePosition = (m.seats i).basePosition +
        (before.map (movedBy order.seatIndex prepared.side i)).sum := by
  rw [h.fills_eq] at hf
  obtain ⟨before₁, tail, rfl, rfl, ht⟩ := filterMap_eq_append_iff.1 hf
  obtain ⟨before₂, u, after, rfl, hn, hu, -⟩ := filterMap_eq_cons_iff.1 ht
  obtain ⟨x, use⟩ := u
  cases use with
  | cancelled | passed => simp [fillOf] at hu
  | filled n =>
    refine ⟨before₁ ++ before₂, x, n, after, by simp, (some.inj hu).symm, fun i => ?_⟩
    have he : before₂.filterMap fillOf = [] := filterMap_eq_nil_iff.2 hn
    rw [position_settleV3Fills hd, hex.position_cancel, ← sum_moves, filterMap_append,
      he, append_nil]

theorem exists_fill (hu : uses = before ++ (x, .filled n) :: after) :
    ∃ mBook mCancel mFill mRest mFund s s' done rest,
      Executed order prepared m mBook mCancel mFill mRest mFund m' ∧
      prepared.plan.fills = done ++ x.toFill n :: rest ∧
      done.forM (settleV3Fill order.seatIndex prepared.side prepared.config) mCancel = .ok () s ∧
      settleV3Fill order.seatIndex prepared.side prepared.config (x.toFill n) s = .ok () s' ∧
      ∀ i, (s.seats i).basePosition = (m.seats i).basePosition +
        (before.map (movedBy order.seatIndex prepared.side i)).sum := by
  obtain ⟨mBook, mCancel, mFill, mRest, mFund, hex⟩ := h.executed
  have hf : prepared.plan.fills =
      before.filterMap fillOf ++ x.toFill n :: after.filterMap fillOf := by
    rw [h.fills_eq, hu, filterMap_append]
    rfl
  have hr := hex.fill
  rw [hf] at hr
  obtain ⟨s, hd, hr⟩ := run_forM_append.1 hr
  obtain ⟨s', hfi, -⟩ := run_forM_cons.1 hr
  refine ⟨mBook, mCancel, mFill, mRest, mFund, s, s', _, _, hex, hf, hd, hfi, fun i => ?_⟩
  rw [position_settleV3Fills hd, hex.position_cancel, sum_moves]

end Market.Placed

/-- A fill as the walk over the makers of the market sees it. -/
structure Action.Deal (a : Action) (m : Market) (ctx : Context) (order : PlaceOrderData)
    (replaced : Option Key) (side : Side) (before : List (Maker × Use)) (x : Maker) (n : ℕ)
    (s s' : Market) : Prop where
  ordering : a.ordering = some (ctx, order, replaced)
  shape : ∃ tree, order.shape ctx.now = .ok (side, tree)
  uses : ∃ after, a.uses m = before ++ (x, .filled n) :: after
  quantity_ne : n ≠ 0
  other : x.leaf.owner ≠ order.seatIndex
  keyed : x.leaf.key.val % 2 ^ 64 = x.leaf.sequence.val
  position : ∀ i, (s.seats i).basePosition = (m.seats i).basePosition +
    (before.map (movedBy order.seatIndex side i)).sum
  maker : (s'.seats x.leaf.owner).basePosition =
    (s.seats x.leaf.owner).basePosition + side.opposite.signed n
  taker : (s'.seats order.seatIndex).basePosition =
    (s.seats order.seatIndex).basePosition + side.signed n
  reduces : order.reduceOnly = true →
    Reduces (s.seats order.seatIndex).basePosition (s'.seats order.seatIndex).basePosition

theorem Market.Placed.deal {m₁ : Market}
    (h : Placed ctx order actions oracle behavior prepared uses m₁ m') (hm : m.Valid)
    (ha : a.ordering = some (ctx, order, replaced))
    (hc : Cleared m order.seatIndex replaced m₁)
    (hu : uses = before ++ (x, .filled n) :: after)
    (hs : ∀ i, (s.seats i).basePosition = (m₁.seats i).basePosition +
      (before.map (movedBy order.seatIndex prepared.side i)).sum)
    (hfi : settleV3Fill order.seatIndex prepared.side prepared.config (x.toFill n) s =
      .ok () s') : a.Deal m ctx order replaced prepared.side before x n s s' := by
  have hmem : (x, .filled n) ∈ uses := by simp [hu]
  have hv := (hc.valid hm).resting _ _ (h.resting_mem hmem)
  have ho : x.leaf.owner ≠ order.seatIndex := h.walk.filled_other hmem
  obtain ⟨_, _, _, _, hf⟩ := settleV3Fill_eq_ok hfi
  have hma := hf.position x.leaf.owner
  have ht := hf.position order.seatIndex
  simp only [V3Fill.moves, Maker.toFill, if_true, ho, Ne.symm ho, if_false, add_zero,
    zero_add] at hma ht
  refine ⟨ha, ⟨_, h.prepares.shape⟩, ⟨after, ?_⟩, h.walk.filled_ne hv.quantity_ne hmem, ho,
    hv.keyed, fun i => ?_, hma, ht, fun hr => ?_⟩
  · rw [Action.uses_eq ha hc h hm, hu]
  · rw [hs, hc.position]
  · obtain ⟨hq, hlt⟩ := h.admitted.1 hr
    have hsum := h.walk.filled_sum_le
    have hb : ∀ y k, (y, .filled k) ∈ before → y.leaf.owner ≠ order.seatIndex :=
      fun y k hy => h.walk.filled_other (hu ▸ mem_append_left _ hy)
    rw [hu, map_append, sum_append, map_cons, sum_cons, filledIn] at hsum
    rw [ht, hs, sum_movedBy_taker hb]
    exact reduces_taker (by omega) hq hlt

theorem Action.Fills.deal (h : a.Fills w w' order fill s s') (hw : w.live.Valid) :
    ∃ ctx replaced side before x n, fill = x.toFill n ∧
      a.Deal w.live ctx order replaced side before x n s s' := by
  obtain ⟨ctx, replaced, m₁, actions, prepared, _, _, _, _, _, _, _, ha, hc, hpr, hex, hfi,
    hd, hf⟩ := h
  obtain ⟨_, _, _, hp⟩ := (hc.valid hw).placed_of_executed hpr hex
  obtain ⟨before, x, n, after, hu, rfl, hs⟩ := hp.uses_of_fill hex hfi hd
  exact ⟨ctx, replaced, prepared.side, before, x, n, rfl, hp.deal hw ha hc hu hs hf⟩

theorem Action.Accepted.exists_fill (h : a.Accepted w w') (hw : w.live.Valid)
    (ha : a.ordering = some (ctx, order, replaced))
    (hu : a.uses w.live = before ++ (x, .filled n) :: after) :
    ∃ s s' side, a.Fills w w' order (x.toFill n) s s' ∧
      a.Deal w.live ctx order replaced side before x n s s' := by
  obtain ⟨m₁, actions, _, _, prepared, _, hc, hp, rfl⟩ := (h.trades ha).ordered hw ha
  obtain ⟨_, _, _, _, _, s, s', _, _, hex, hfi, hd, hf, hs⟩ := hp.exists_fill hu
  exact ⟨s, s', prepared.side,
    ⟨ctx, replaced, m₁, actions, prepared, _, _, _, _, _, _, _, ha, hc, hp.prepared_eq,
      hex, hfi, hd, hf⟩, hp.deal hw ha hc hu hs hf⟩

/-! ## Sessions -/

theorem authorizeOrder_reduceOnly {demand : OrderDemand} {count now : ℕ} {plan : V3MatchPlan}
    {granted : Option TradingSession} {session : TradingSession}
    (h : authorizeOrder m ctx order actions demand count plan now = .ok granted)
    (hsi : (m.seats order.seatIndex).trader ≠ ctx.signer)
    (hs : m.sessions ⟨(m.seats order.seatIndex).trader, order.seatIndex, ctx.signer⟩ =
      some session) (hac : session.actions &&& actions = 0) : order.reduceOnly = true := by
  simp only [authorizeOrder, validateV3TradeAccounts, ok_rules, v3TradeSeat_eq_ok] at h
  obtain ⟨-, ⟨⟩, -, -, _, ⟨-, -, -, rfl⟩, h⟩ := h
  rw [if_neg hsi] at h
  simp only [validateV3SessionActor, ok_rules, v3TradeSeat_eq_ok, okOr_eq_ok] at h
  obtain ⟨-, _, ⟨-, -, _, ⟨-, -, -, rfl⟩, -, found, hf, ⟨-, ha⟩, -⟩, -⟩ := h
  obtain rfl : found = session := some.inj (hf.symm.trans hs)
  by_contra hr
  rw [if_neg hr] at ha
  exact ha hac

theorem replaceOrderV3_authorized {key : Key} {u : Unit}
    (h : replaceOrderV3 ctx key order m = .ok u m') : ∃ demand count plan now granted,
      authorizeOrder m ctx order sessionActionReplace demand count plan now = .ok granted := by
  simp only [replaceOrderV3, run_rules, preflightReplaceOrderV3, bind_eq_ok] at h
  obtain ⟨-, _, ⟨_, -, _, -, _, -, _, -, _, -, _, -, _, -, _, -, _, -, _, -, _, -, _, -, _, -,
    _, -, _, ha, -⟩, -⟩ := h
  exact ⟨_, _, _, _, _, ha⟩

theorem Action.Accepted.reduceOnly {session : TradingSession} (h : a.Accepted w w')
    (ha : a.ordering = some (ctx, order, replaced))
    (hsi : (w.live.seats order.seatIndex).trader ≠ ctx.signer)
    (hs : w.live.sessions
      ⟨(w.live.seats order.seatIndex).trader, order.seatIndex, ctx.signer⟩ = some session)
    (hac : session.actions = sessionActionReduceOnlyClose) : order.reduceOnly = true := by
  cases a with
  | placeOrderV3 =>
    simp only [ordering, some.injEq, Prod.mk.injEq] at ha
    obtain ⟨rfl, rfl, rfl⟩ := ha
    obtain ⟨m, hm, rfl⟩ := h.of_handler rfl
    obtain ⟨_, _, _, _, _, _, hp, -⟩ := placeOrderV3WithAction_eq_ok hm
    obtain ⟨_, _, hpr⟩ := prepareOrder_eq_ok hp
    obtain ⟨_, _, -, -, hau⟩ := hpr.admitted
    exact authorizeOrder_reduceOnly hau hsi hs (by rw [hac]; rfl)
  | replaceOrderV3 =>
    simp only [ordering, some.injEq, Prod.mk.injEq] at ha
    obtain ⟨rfl, rfl, rfl⟩ := ha
    obtain ⟨m, hm, rfl⟩ := h.of_handler rfl
    obtain ⟨_, _, _, _, _, hau⟩ := replaceOrderV3_authorized hm
    exact authorizeOrder_reduceOnly hau hsi hs (by rw [hac]; rfl)
  | _ => simp [ordering] at ha

/-! ## Runs -/

def sequenceOf (key : Key) : ℕ := key.val % 2 ^ 64

def Action.placesReduceOnly (a : Action) : Bool := a.ordering.any fun o => o.2.1.reduceOnly

/-- An accepted action, together with the sequences of the reduce-only orders accepted so far. An
order gets the core's next sequence, which the core then stores. -/
def Action.Marks (a : Action) (s s' : World × List ℕ) : Prop :=
  a.Accepted s.1 s'.1 ∧ s'.2 =
    if a.placesReduceOnly then s'.1.live.core.globalOrderSequence.val :: s.2 else s.2

/-- Every marked order that an instruction fills meets, at its turn, a position of at least the
filled size on the other side. -/
def Action.ReducesMakers (m : Market) (marked : List ℕ) (a : Action) : Prop :=
  ∀ ctx order replaced side tree before (x : Maker) (n : ℕ) after,
    a.ordering = some (ctx, order, replaced) → order.shape ctx.now = .ok (side, tree) →
    a.uses m = before ++ (x, .filled n) :: after → x.leaf.sequence.val ∈ marked →
    n ≤ side.signed 1 * ((m.seats x.leaf.owner).basePosition +
      (before.map (movedBy order.seatIndex side x.leaf.owner)).sum)

/-- In every run, the fills of a step that execute reduce-only orders all reduce exactly if the
makers among those orders meet large enough positions; and a session that may only close places
only reduce-only orders. -/
theorem reduceOnly_reduces_iff (hinit : w₀.Initial)
    (hrun : Run Action.Marks (w₀, []) as (w, marked)) (h : a.Accepted w w') :
    ((∀ order fill s s', a.Fills w w' order fill s s' →
      (order.reduceOnly = true → Reduces (s.seats order.seatIndex).basePosition
        (s'.seats order.seatIndex).basePosition) ∧
      (sequenceOf fill.key ∈ marked → Reduces (s.seats fill.makerOwner).basePosition
        (s'.seats fill.makerOwner).basePosition)) ↔ a.ReducesMakers w.live marked) ∧
    ∀ ctx order replaced session, a.ordering = some (ctx, order, replaced) →
      (w.live.seats order.seatIndex).trader ≠ ctx.signer →
      w.live.sessions ⟨(w.live.seats order.seatIndex).trader, order.seatIndex, ctx.signer⟩ =
        some session →
      session.actions = sessionActionReduceOnlyClose → order.reduceOnly = true := by
  have hw : w.live.Valid := hrun.invariant (P := fun s => s.1.live.Valid) hinit.valid
    fun _ _ _ ht ha => ha.1.step.valid ht
  refine ⟨⟨fun hall => ?_, fun hc => ?_⟩, fun ctx order replaced session => h.reduceOnly⟩
  · intro ctx order replaced side tree before x n after ha hsh hu hm
    obtain ⟨s, s', side', hf, hd⟩ := h.exists_fill hw ha hu
    obtain ⟨_, hs'⟩ := hd.shape
    obtain ⟨rfl, -⟩ : side = side' ∧ _ := by simpa [hsh] using hs'
    have hs : sequenceOf (x.toFill n).key = x.leaf.sequence.val := hd.keyed
    have hr := (hall _ _ _ _ hf).2 (hs ▸ hm)
    change Reduces (s.seats x.leaf.owner).basePosition (s'.seats x.leaf.owner).basePosition at hr
    rwa [hd.maker, reduces_maker_iff hd.quantity_ne, hd.position] at hr
  · intro order fill s s' hf
    obtain ⟨ctx, replaced, side, before, x, n, rfl, hd⟩ := hf.deal hw
    refine ⟨hd.reduces, fun hm => ?_⟩
    obtain ⟨tree, hsh⟩ := hd.shape
    obtain ⟨after, hu⟩ := hd.uses
    change Reduces (s.seats x.leaf.owner).basePosition (s'.seats x.leaf.owner).basePosition
    rw [hd.maker, reduces_maker_iff hd.quantity_ne, hd.position]
    have hs : sequenceOf (x.toFill n).key = x.leaf.sequence.val := hd.keyed
    exact hc _ _ _ _ _ _ _ _ _ hd.ordering hsh hu (hs ▸ hm)

/-- The marks that a list of actions leaves, up to the first that is refused. -/
def World.marks : World → List ℕ → List Action → List ℕ
  | _, marked, [] => marked
  | w, marked, a :: as =>
    match a.exec w with
    | .ok w' =>
      w'.marks (if a.placesReduceOnly then w'.live.core.globalOrderSequence.val :: marked
        else marked) as
    | .error _ => marked

theorem World.run_marks (h : w.accepts (fun _ _ => True) as = true) :
    Run Action.Marks (w, marked) as (w.after as, w.marks marked as) := by
  induction as generalizing w marked with
  | nil => exact .nil
  | cons a as ih =>
    simp only [accepts, after, marks] at h ⊢
    cases hw : a.exec w with
    | error e => simp [hw] at h
    | ok w' =>
      simp only [hw, Bool.and_eq_true] at h ⊢
      exact .cons (t := (w', _)) ⟨hw, rfl⟩ (ih h.2)

/-- Trader 7 is long 10 and offers 10 reduce-only, some times. -/
def closeRun (times : ℕ) : List Action :=
  tradeRun 10000 10 1000 ++ replicate times
    (.placeOrderV3 (call 7 1000)
      { limitOrder .ask 0 10 1000 with flags := 4 })

def buyBack : Action :=
  .placeOrderV3 (call 8 1000) (limitOrder .bid 1 10 1000)

/-- The one fill of the reduce-only order meets the whole position, and reduces it. -/
theorem reduceOnly_reduces_iff_of_closeRun :
    (∀ order fill s s', buyBack.Fills (genesis.after (closeRun 1))
        ((genesis.after (closeRun 1)).after [buyBack]) order fill s s' →
      (order.reduceOnly = true → Reduces (s.seats order.seatIndex).basePosition
        (s'.seats order.seatIndex).basePosition) ∧
      (sequenceOf fill.key ∈ genesis.marks [] (closeRun 1) →
        Reduces (s.seats fill.makerOwner).basePosition
          (s'.seats fill.makerOwner).basePosition)) ∧
    (buyBack.uses (genesis.after (closeRun 1)).live).map (fun u => (u.2, u.1.leaf.owner)) =
      [(.filled 10, 0)] := by
  have hr : Run Action.Marks (genesis, []) (closeRun 1)
      (genesis.after (closeRun 1), genesis.marks [] (closeRun 1)) := run_marks (by decide +kernel)
  have hb : buyBack.Accepted (genesis.after (closeRun 1))
      ((genesis.after (closeRun 1)).after [buyBack]) := accepted_of_accepts (by decide +kernel)
  have hu : (buyBack.uses (genesis.after (closeRun 1)).live).map
      (fun u => (u.2, u.1.leaf.owner)) = [(.filled 10, 0)] := by decide +kernel
  refine ⟨(reduceOnly_reduces_iff genesis_initial hr hb).1.2 ?_, hu⟩
  intro ctx order replaced side tree before x n after ho hs huses _
  obtain ⟨rfl, rfl, rfl⟩ : ctx = call 8 1000 ∧ order = limitOrder .bid 1 10 1000 ∧
    replaced = none := by simpa [buyBack, Action.ordering, eq_comm] using ho
  have hsh : (limitOrder .bid 1 10 1000).shape (call 8 1000).now = .ok (.bid, .fixed) := rfl
  obtain ⟨rfl, rfl⟩ := Prod.mk.inj (Except.ok.inj (hsh.symm.trans hs))
  rw [huses, map_append, map_cons, append_eq_singleton_iff] at hu
  rcases hu with ⟨hbe, hx⟩ | ⟨-, hx⟩
  · obtain rfl := map_eq_nil_iff.1 hbe
    simp only [cons.injEq, Prod.mk.injEq, Use.filled.injEq] at hx
    obtain ⟨⟨rfl, ho⟩, -⟩ := hx
    rw [ho]
    decide +kernel
  · simp at hx

/-- Two reduce-only orders of the size of the position are both admitted. The first fill closes the
position, and the second opens one on the other side. -/
theorem reduceOnly_opens : ∃ (w₀ w w' : World) (as : List Action) (marked : List ℕ) (a : Action)
    (x : Maker), w₀.Initial ∧ Run Action.Marks (w₀, []) as (w, marked) ∧ a.Accepted w w' ∧
    a.uses w.live = [(x, .filled 10)] ∧ x.leaf.sequence.val ∈ marked ∧ x.leaf.owner = 0 ∧
    (w.live.seats 0).basePosition = 0 ∧ (w'.live.seats 0).basePosition = -10 := by
  -- One evaluation of the run gives everything that is read off it.
  have hr : genesis.accepts (fun _ _ => True) (closeRun 2 ++ [buyBack]) = true ∧
      (genesis.after (closeRun 2 ++ [buyBack])).accepts (fun _ _ => True) [buyBack] = true ∧
      ((buyBack.uses (genesis.after (closeRun 2 ++ [buyBack])).live).map
        fun u => (u.2, u.1.leaf.sequence.val, u.1.leaf.owner)) = [(.filled 10, 4, 0)] ∧
      4 ∈ genesis.marks [] (closeRun 2 ++ [buyBack]) ∧
      ((genesis.after (closeRun 2 ++ [buyBack])).live.seats 0).basePosition = 0 ∧
      (((genesis.after (closeRun 2 ++ [buyBack])).after [buyBack]).live.seats 0).basePosition
        = -10 := by
    decide +kernel
  obtain ⟨hrun, hbuy, hu, hm, hb, ha⟩ := hr
  obtain ⟨⟨x, use⟩, hu, hx⟩ := map_eq_singleton_iff.1 hu
  simp only [Prod.mk.injEq] at hx
  obtain ⟨rfl, hs, ho⟩ := hx
  exact ⟨genesis, _, _, _, _, buyBack, x, genesis_initial, run_marks hrun,
    accepted_of_accepts hbuy, hu, hs ▸ hm, ho, hb, ha⟩

end Equinox
