import Equinox.Market.Removal

/-! # Cancelling everything

The loop that cancels all orders of a seat takes them out one by one. What it asks
for in total can be said of the market it starts in, since every order that leaves
gives back the margin it held. In a reachable market, cancelling succeeds exactly
under these conditions.
-/

namespace Equinox

open Foundation CritBit PagedBookV3 World Multiset Market

variable {w w₀ : World} {as : List Action} {m m' : Market} {ctx : Context} {side : Side}
  {tree : TreeKind} {leaf : LeafNode} {r r' : Resting} {i max : ℕ} {reserve : ℤ}

/-! ## One order of many -/

/-- What the cancellation of all orders of a seat asks for. -/
structure Market.Clears (m : Market) (i : ℕ) : Prop where
  liability : 0 ≤ m.core.vaultLiability
  priced : ∀ side, ∀ r ∈ m.orders side, r.leaf.owner = i → r.Priced m.core
  margin : -2 ^ 127 ≤ (m.seats i).reservedMargin -
    m.held m.core.config.effective.initialMarginBps i .margin
  sequence : m.core.globalEventSequence + (m.seats i).openOrderCount < 2 ^ 64

theorem removeOrder_core {key : Key} {u : Unit}
    (h : removeOrder ctx i side tree key leaf reserve m = .ok u m') :
    m'.core = { m.core with globalEventSequence := m.core.globalEventSequence + 1 } := by
  simp only [removeOrder, run_rules] at h
  obtain ⟨_, -, _, -, h⟩ := h
  obtain ⟨_, m₁, hb, h⟩ := run_bind_eq_ok.1 h
  obtain ⟨b, -, rfl⟩ := run_onBook_eq_ok.1 hb
  rw [run_writeV3Seat_bind] at h
  obtain ⟨-, -, rfl⟩ := appendEventRecord_eq_ok.1 h
  rfl

theorem Market.Cancelled.openOrderCount (h : Cancelled i side tree leaf m m') :
    (m'.seats i).openOrderCount + 1 = (m.seats i).openOrderCount := by
  obtain ⟨_, _, -, -, -, _, _, _, _, released, -, -, -, hr, hl⟩ := h.found
  have hs : m'.seats i = released := by
    rw [hl.seats]
    exact seats_withSeat_self
  have hc := (TraderSeat.release_eq_ok hr).2 .count
  simp only [TraderSeat.ordered, orderShare, Bool.toNat_true] at hc
  rw [hs]
  omega

/-- One order left the market, and one event was recorded. -/
structure Market.Took (r : Resting) (side : Side) (m m' : Market) : Prop where
  mem : r ∈ m.orders side
  cancelled : Cancelled r.leaf.owner side r.tree r.leaf m m'
  core : m'.core = { m.core with globalEventSequence := m.core.globalEventSequence + 1 }
  removes : m.Removes r

namespace Market.Took

section

variable (h : Took r side m m')

include h

theorem tradable (hm : m.Tradable) : m'.Tradable := by
  obtain ⟨hv, ha, hs, hc, hmo, hd, hi⟩ := hm
  refine ⟨h.cancelled.valid hv, ha.cancelled hv h.cancelled,
    hs.cancelled h.cancelled, ?_, ?_, ?_, ?_⟩
  all_goals rw [h.core]
  · exact ⟨hc.1, hc.2, hc.3, hc.4, hc.5, hc.6, hc.7, hc.8⟩
  · exact hmo
  · exact hd
  · exact hi

theorem mem_orders (hm : m.Valid) {s : Side}
    (hr' : r' ∈ m.orders s) : r' = r ∨ r' ∈ m'.orders s := by
  obtain ⟨-, handle, ho⟩ := h.cancelled.orders_eq hm
  by_cases hs : s = side
  · subst hs
    rw [ho] at hr'
    refine (mem_cons.1 hr').imp_left fun heq => ?_
    have hmem : r' ∈ m.orders s := by
      rw [ho]
      exact mem_cons.2 (.inl heq)
    exact (hm.resting_ext hmem h.mem (by rw [heq])).2
  · right
    rw [orders, h.cancelled.books_of_ne hs]
    exact hr'

theorem priced_iff : r'.Priced m'.core ↔ r'.Priced m.core := by
  rw [h.core]
  exact ⟨fun hp => ⟨hp.1, hp.2, hp.3⟩, fun hp => ⟨hp.1, hp.2, hp.3⟩⟩

theorem margin_eq (hm : m.Valid) :
    (m'.seats r.leaf.owner).reservedMargin -
        m'.held m'.core.config.effective.initialMarginBps r.leaf.owner .margin =
      (m.seats r.leaf.owner).reservedMargin -
        m.held m.core.config.effective.initialMarginBps r.leaf.owner .margin := by
  rw [h.core]
  exact h.cancelled.excess hm r.leaf.owner .margin

theorem sequence_eq :
    m'.core.globalEventSequence + (m'.seats r.leaf.owner).openOrderCount =
      m.core.globalEventSequence + (m.seats r.leaf.owner).openOrderCount := by
  have hc := h.cancelled.openOrderCount
  rw [h.core]
  dsimp only
  omega

/-- After an order was taken out, all could have been cancelled exactly if the others can. -/
theorem clears_iff (hm : m.Tradable) :
    ((m'.seats r.leaf.owner).openOrderCount ≠ 0 → m'.Clears r.leaf.owner) ↔
      m.Clears r.leaf.owner := by
  have hl : m'.core.vaultLiability = m.core.vaultLiability := by rw [h.core]
  constructor
  · intro hot
    refine ⟨h.removes.liability, fun s r' hr' ho => ?_, ?_, ?_⟩
    · rcases h.mem_orders hm.valid hr' with rfl | hr'
      · exact h.removes.priced
      · refine h.priced_iff.1 ((hot fun hz => ?_).priced s r' hr' ho)
        have hn := (h.tradable hm).agrees.owned_eq_nil_of_count hz s
        exact owned_eq_nil_iff.1 hn r' hr' ho
    · rw [← h.margin_eq hm.valid]
      by_cases hz : (m'.seats r.leaf.owner).openOrderCount = 0
      · have hn := (h.tradable hm).agrees.owned_eq_nil_of_count hz
        rw [held_eq_zero hn, sub_zero]
        exact (((h.tradable hm).stored.seats r.leaf.owner).range .margin (by decide)).1
      · exact (hot hz).margin
    · by_cases hz : (m'.seats r.leaf.owner).openOrderCount = 0
      · rw [← h.sequence_eq, hz, h.core]
        exact h.removes.sequence
      · exact h.sequence_eq ▸ (hot hz).sequence
  · intro ha _
    constructor
    · exact hl ▸ ha.liability
    · intro s r' hr' ho
      have hmem := mem_of_le (h.cancelled.orders_le hm.valid s) hr'
      exact h.priced_iff.2 (ha.priced s r' hmem ho)
    · exact h.margin_eq hm.valid ▸ ha.margin
    · exact h.sequence_eq ▸ ha.sequence

end

end Market.Took

namespace Market.Tradable

theorem removes_of_clears (hm : m.Tradable) (hr : r ∈ m.orders side)
    (h : m.Clears r.leaf.owner) : m.Removes r := by
  refine ⟨h.liability, h.priced side r hr rfl, ?_, ?_⟩
  · have hle := hm.valid.share_le_held hr m.core.config.effective.initialMarginBps r.leaf.owner
      .margin
    have hma := h.margin
    simp only [Resting.share, if_true, orderShare] at hle
    unfold Resting.margin
    omega
  · have hc := hm.openOrderCount_ne hr
    have hs := h.sequence
    omega

end Market.Tradable

theorem run_cancelNext {more : Bool}
    (hn : nextOwned m i = some (side, r.tree, r.leaf)) :
    cancelNext ctx i m = .ok more m' ↔ more = true ∧ ∃ config reserve,
      readV3RiskConfig m.core = .ok config ∧
      v3OrderReserve r.leaf r.tree (v3ReserveOracle m.core) config = .ok reserve ∧
      removeOrder ctx i side r.tree r.leaf.key r.leaf reserve m = .ok () m' := by
  rw [cancelNext, run_asking_bind, id, hn]
  simp only [run_lift_bind]
  constructor
  · rintro ⟨config, hr, reserve, hres, h⟩
    obtain ⟨⟨⟩, m₁, hre, he⟩ := run_bind_eq_ok.1 h
    obtain ⟨rfl, rfl⟩ := run_pure_eq_ok.1 he
    exact ⟨rfl, config, reserve, hr, hres, hre⟩
  · rintro ⟨rfl, config, reserve, hr, hres, hre⟩
    exact ⟨config, hr, reserve, hres, run_bind_eq_ok.2 ⟨(), m', hre, rfl⟩⟩

namespace Market.Tradable

theorem took_of_cancelNext {more : Bool} (hm : m.Tradable) (hr : r ∈ m.orders side)
    (hn : nextOwned m r.leaf.owner = some (side, r.tree, r.leaf))
    (h : cancelNext ctx r.leaf.owner m = .ok more m') : more = true ∧ Took r side m m' := by
  obtain ⟨hmo, config, reserve, hread, hres, hre⟩ := (run_cancelNext hn).1 h
  refine ⟨hmo, hr, ?_, removeOrder_core hre,
    (hm.removes_iff hr ctx).1 ⟨config, reserve, m', hread, hres, hre⟩⟩
  exact removeOrder_eq_ok (hm.valid.find_eq_ok hr) (hm.valid.leaf_eq hr) rfl hread hres hre

theorem cancelNext_of_clears (hm : m.Tradable) (hr : r ∈ m.orders side)
    (hn : nextOwned m r.leaf.owner = some (side, r.tree, r.leaf))
    (h : m.Clears r.leaf.owner) (ctx : Context) :
    ∃ m', cancelNext ctx r.leaf.owner m = .ok true m' := by
  obtain ⟨config, reserve, m', hs⟩ := (hm.removes_iff hr ctx).2 (hm.removes_of_clears hr h)
  exact ⟨m', (run_cancelNext hn).2 ⟨rfl, config, reserve, hs⟩⟩

/-- Given room for all orders of the seat, the loop empties it exactly under the conditions on all
of them. -/
theorem cancelUpTo_iff (hm : m.Tradable) (hmax : (m.seats i).openOrderCount ≤ max) :
    (∃ m', cancelUpTo ctx i max m = .ok () m' ∧ ∀ side, m'.owned side i = []) ↔
      ((m.seats i).openOrderCount ≠ 0 → m.Clears i) := by
  induction max generalizing m with
  | zero =>
    have hz : (m.seats i).openOrderCount = 0 := by omega
    exact iff_of_true ⟨m, rfl, hm.agrees.owned_eq_nil_of_count hz⟩ fun hne => absurd hz hne
  | succ max ih =>
    cases hn : nextOwned m i with
    | none =>
      have hno (s : Side) : m.owned s i = [] :=
        owned_eq_nil_iff.2 fun r hr => hm.valid.owner_ne_of_nextOwned hn hr
      have hs : cancelNext ctx i m = .ok false m := by
        rw [cancelNext, run_asking_bind, id, hn]
        rfl
      refine iff_of_true ⟨m, run_bind_eq_ok.2 ⟨false, m, hs, rfl⟩, hno⟩ fun hne => ?_
      have hc := hm.ordered_eq i (k := .count) (by decide)
      rw [held_eq_zero hno] at hc
      simp only [TraderSeat.ordered] at hc
      exact absurd (by omega) hne
    | some found =>
      obtain ⟨side, tree, leaf⟩ := found
      obtain ⟨r, hr, rfl, rfl, rfl⟩ := hm.valid.mem_of_nextOwned hn
      have hne := hm.openOrderCount_ne hr
      rw [imp_iff_right hne]
      constructor
      · rintro ⟨m', h, hno⟩
        obtain ⟨more, m₁, hs, h⟩ := run_bind_eq_ok.1 h
        obtain ⟨rfl, ht⟩ := hm.took_of_cancelNext hr hn hs
        have hc := ht.cancelled.openOrderCount
        exact (ht.clears_iff hm).1 ((ih (ht.tradable hm) (by omega)).1 ⟨m', h, hno⟩)
      · intro hcl
        obtain ⟨m₁, hs⟩ := hm.cancelNext_of_clears hr hn hcl ctx
        obtain ⟨-, ht⟩ := hm.took_of_cancelNext hr hn hs
        have hc := ht.cancelled.openOrderCount
        obtain ⟨m', h, hno⟩ := (ih (ht.tradable hm) (by omega)).2 ((ht.clears_iff hm).2 hcl)
        exact ⟨m', run_bind_eq_ok.2 ⟨true, m₁, hs, h⟩, hno⟩

theorem cancelAllV3_iff (hm : m.Tradable) (hr : r ∈ m.orders side)
    (hs : ctx.signer = (m.seats r.leaf.owner).trader)
    (hmax : (m.seats r.leaf.owner).openOrderCount ≤ max) :
    (∃ m', cancelAllV3 ctx r.leaf.owner max 0 m = .ok () m' ∧
      ∀ s, m'.owned s r.leaf.owner = []) ↔ m.Clears r.leaf.owner := by
  have hne := hm.openOrderCount_ne hr
  constructor
  · rintro ⟨m', h, hn⟩
    simp only [cancelAllV3, run_rules] at h
    obtain ⟨-, _, -, session, -, h⟩ := h
    obtain ⟨⟨⟩, m₁, hc, h⟩ := run_bind_eq_ok.1 h
    have hb := (sameLedgers_of_consumeSession h).books
    refine (hm.cancelUpTo_iff hmax).1 ⟨m₁, hc, fun s => ?_⟩ hne
    rw [← hn s, owned, owned, hb]
  · intro hcl
    obtain ⟨m', h, hn⟩ := (hm.cancelUpTo_iff hmax).2 fun _ => hcl
    refine ⟨m', ?_, hn⟩
    simp only [cancelAllV3, run_rules]
    exact ⟨by omega, _, hm.seat_eq hr, none, hm.validateV3TradeAccounts_owner hr hs rfl,
      run_bind_eq_ok.2 ⟨(), m', h, rfl⟩⟩

end Market.Tradable

/-! ## Reachable markets -/

theorem World.tradable_of_run (hi : w₀.Initial) (hr : Run Action.Accepted w₀ as w)
    (hm : w.live.core.mode = 1) (hd : w.live.core.delegationStatus = .delegated)
    (hid : w.live.core.commitPhase = .idle) : w.live.Tradable where
  valid := valid_of_run hi hr
  agrees := agrees_of_run hi hr
  stored := stored_of_run hi hr
  configured := configured_of_run hi hr hd
  mode := hm
  delegated := hd
  idle := hid

/-- In every reachable state that is delegated, idle and open, the owner of a resting order can
cancel it, or all orders of the seat, exactly under these conditions. A single cancellation takes
out that order and no other. -/
theorem owner_cancels_iff (hinit : w₀.Initial) (hrun : Run Action.Accepted w₀ as w)
    (hmode : w.live.core.mode = 1) (hdelegated : w.live.core.delegationStatus = .delegated)
    (hidle : w.live.core.commitPhase = .idle) (hr : r ∈ w.live.orders side)
    (hsigner : ctx.signer = (w.live.seats r.leaf.owner).trader) :
    ((∃ m', cancelOrderV3 ctx r.leaf.owner r.leaf.key 0 w.live = .ok () m' ∧
        w.live.orders side = r ::ₘ m'.orders side ∧
        m'.orders side.opposite = w.live.orders side.opposite) ↔ w.live.Cancels r) ∧
      ∀ max, (w.live.seats r.leaf.owner).openOrderCount ≤ max →
        ((∃ m', cancelAllV3 ctx r.leaf.owner max 0 w.live = .ok () m' ∧
          ∀ s, m'.owned s r.leaf.owner = []) ↔ w.live.Clears r.leaf.owner) := by
  have hm := tradable_of_run hinit hrun hmode hdelegated hidle
  refine ⟨?_, fun max hmax => hm.cancelAllV3_iff hr hsigner hmax⟩
  rw [← hm.cancelOrderV3_iff hr hsigner]
  constructor
  · rintro ⟨m', h, -⟩
    exact ⟨m', h⟩
  · rintro ⟨m', h⟩
    exact ⟨m', h, hm.valid.orders_of_cancelOrderV3 hr h⟩

/-- Trader 7 bids 2 at 100 below the price of the oracle. -/
def pegOrder : PlaceOrderData :=
  { limitOrder .bid 0 2 ⟨-100, by decide⟩ with tree := 1, pegLimit := 2000 }

/-- The order rests in a market that is priced by the snapshot on L1, after some updates of the
price in the core. -/
def pegRun (updates : List Action) : List Action :=
  fundRun 10000 1000 ++ updates ++
    [.placeOrderV3 (call 7 1000) pegOrder]

def priceUpdate : Action :=
  .consumeOracleUpdateV3 (call 5 1000)
    { feedId := 4, channel := 1, exponent := 0, price := 1000, confidence := 0
      session := 0, envelopeTimestampUs := 1000000, feedUpdateTimestampUs := 1000000 }

def pegResting : Resting where
  tree := .oraclePegged
  handle := 0
  leaf :=
    { side := .bid
      owner := 0
      key := offsetTimeKey .bid ⟨-100, by decide⟩ 1
      quantity := 2
      expiresAt := 100
      pegLimit := 2000
      clientOrderId := 0
      priceOrOffset := ⟨-100, by decide⟩
      sequence := 1
      postOnly := false
      reservePrice := 900 }

theorem owner_cancels_iff_of_pegRun :
    (∃ m', cancelOrderV3 (call 7 1000) 0 pegResting.leaf.key 0
        (genesis.after (pegRun [priceUpdate])).live = .ok () m' ∧
      (genesis.after (pegRun [priceUpdate])).live.orders .bid = pegResting ::ₘ m'.orders .bid ∧
      m'.orders .ask = (genesis.after (pegRun [priceUpdate])).live.orders .ask) ∧
    ∃ m', cancelAllV3 (call 7 1000) 0 255 0
        (genesis.after (pegRun [priceUpdate])).live = .ok () m' ∧ ∀ s, m'.owned s 0 = [] := by
  have hrun : Run Action.Accepted genesis (pegRun [priceUpdate])
      (genesis.after (pegRun [priceUpdate])) := run_accepted (by decide +kernel)
  have hr : pegResting ∈ (genesis.after (pegRun [priceUpdate])).live.orders .bid :=
    mem_contents.2 (by decide +kernel)
  have hs : (call 7 1000).signer =
      ((genesis.after (pegRun [priceUpdate])).live.seats pegResting.leaf.owner).trader := by
    decide +kernel
  have hp : pegResting.Priced (genesis.after (pegRun [priceUpdate])).live.core :=
    ⟨fun _ => by decide +kernel, fun _ => by decide +kernel, by decide +kernel⟩
  have hc : (genesis.after (pegRun [priceUpdate])).live.Cancels pegResting :=
    ⟨⟨by decide +kernel, hp, by decide +kernel, by decide +kernel⟩, fun _ => by decide +kernel⟩
  have hb : (genesis.after (pegRun [priceUpdate])).live.orders .bid = {pegResting} := by
    decide +kernel
  have hask : (genesis.after (pegRun [priceUpdate])).live.orders .ask = 0 := by
    decide +kernel
  have hcl : (genesis.after (pegRun [priceUpdate])).live.Clears pegResting.leaf.owner := by
    refine ⟨by decide +kernel, fun side r hmem _ => ?_, by decide +kernel, by decide +kernel⟩
    cases side with
    | bid =>
      rw [hb] at hmem
      rwa [mem_singleton.1 hmem]
    | ask =>
      rw [hask] at hmem
      exact absurd hmem (notMem_zero r)
  obtain ⟨ho, ha⟩ := owner_cancels_iff genesis_initial hrun (by decide +kernel)
    (by decide +kernel) (by decide +kernel) hr hs
  exact ⟨ho.2 hc, (ha 255 (by decide +kernel)).2 hcl⟩

/-- In a market that is priced by the snapshot on L1 only, a pegged order is accepted and rests, and
its owner cannot cancel it in either way. -/
theorem owner_cannot_cancel : ∃ w₀ as w r, w₀.Initial ∧ Run Action.Accepted w₀ as w ∧
    w.live.core.mode = 1 ∧ w.live.core.delegationStatus = .delegated ∧
    w.live.core.commitPhase = .idle ∧ r ∈ w.live.orders .bid ∧
    ∀ ctx, ctx.signer = (w.live.seats r.leaf.owner).trader →
      (¬∃ m', cancelOrderV3 ctx r.leaf.owner r.leaf.key 0 w.live = .ok () m') ∧
      ∀ max, (w.live.seats r.leaf.owner).openOrderCount ≤ max →
        ¬∃ m', cancelAllV3 ctx r.leaf.owner max 0 w.live = .ok () m' ∧
          ∀ s, m'.owned s r.leaf.owner = [] := by
  have hrun : Run Action.Accepted genesis (pegRun []) (genesis.after (pegRun [])) :=
    run_accepted (by decide +kernel)
  have hmo : (genesis.after (pegRun [])).live.core.mode = 1 := by decide +kernel
  have hd : (genesis.after (pegRun [])).live.core.delegationStatus = .delegated := by
    decide +kernel
  have hi : (genesis.after (pegRun [])).live.core.commitPhase = .idle := by
    decide +kernel
  have hr : pegResting ∈ (genesis.after (pegRun [])).live.orders .bid :=
    mem_contents.2 (by decide +kernel)
  have hp : ¬0 < (genesis.after (pegRun [])).live.core.oraclePrice.val := by
    decide +kernel
  have hm := tradable_of_run genesis_initial hrun hmo hd hi
  refine ⟨genesis, pegRun [], _, pegResting, genesis_initial, hrun, hmo, hd,
    hi, hr, fun ctx hs => ⟨fun h => ?_, fun max hmax h => ?_⟩⟩
  · exact hp (((hm.cancelOrderV3_iff hr hs).1 h).priced.oracle rfl)
  · exact hp ((((hm.cancelAllV3_iff hr hs hmax).1 h).priced .bid _ hr rfl).oracle rfl)

end Equinox
