import Equinox.Book.Reach
import Equinox.Market.Walks

/-! # Crossed books

An order that rests does not cross the other side if it has used up every maker
it reaches. It has not if more makers are in reach than one instruction may use,
or if it passes by orders of its own seat.
-/

namespace Equinox

open Foundation CritBit PagedBookV3 List World Market

variable {a : Action} {m m' : Market} {ctx : Context} {order : PlaceOrderData} {actions now : ℕ}
  {oracle : I64} {behavior : SelfTradeBehavior} {prepared : PreparedOrder}
  {uses : List (Maker × Use)} {side : Side} {tree : TreeKind} {leaf : LeafNode} {r : Resting}
  {x y : Maker} {price : I64} {replaced : Option Key}

/-- Every bid that can execute is below every ask that can execute. -/
def Market.Uncrossed (m : Market) (oracle : I64) (now : ℕ) : Prop :=
  ∀ x ∈ m.makers .bid oracle now none, ∀ y ∈ m.makers .ask oracle now none,
    x.price.val < y.price.val

instance (m : Market) (oracle : I64) (now : ℕ) : Decidable (m.Uncrossed oracle now) := by
  unfold Uncrossed; infer_instance

/-- An order rests nothing, or no maker it reaches is left: they fit into one instruction, and none
is an order of its own seat that it only passes by. -/
def PlaceOrderData.Clears (order : PlaceOrderData) (taker : Taker) (reached : List Maker) : Prop :=
  order.immediateOrCancel = true ∨
    order.quantity ≤ ((reached.take maxFillsPerInstruction).map taker.takes).sum ∨
    (reached.length ≤ maxFillsPerInstruction ∧
      ¬(taker.selfTradeBehavior = .decrementTake ∧ ∃ x ∈ reached, x.leaf.owner = taker.owner))

/-- The taker an order is planned as, and the makers it reaches. -/
def Market.reached (m : Market) (ctx : Context) (order : PlaceOrderData) (replaced : Option Key) :
    Except ProgramError (Taker × List Maker) := do
  let (side, tree) ← order.shape ctx.now
  let oracle ← oraclePriceAfterFreshness ctx m.core
  let price ← order.effectivePrice tree oracle
  let behavior ← order.selfTradeBehavior
  let taker := order.taker side behavior price
  pure (taker, taker.reached (m.makers side.opposite oracle ctx.now replaced))

def Action.Clears (m : Market) (a : Action) : Prop :=
  match a.ordering with
  | none => True
  | some (ctx, order, replaced) =>
    match m.reached ctx order replaced with
    | .ok (taker, reached) => order.Clears taker reached
    | .error _ => True

instance (order : PlaceOrderData) (taker : Taker) (reached : List Maker) :
    Decidable (order.Clears taker reached) := by
  unfold PlaceOrderData.Clears; infer_instance

instance (m : Market) (a : Action) : Decidable (a.Clears m) := by
  unfold Action.Clears
  split
  · infer_instance
  · split <;> infer_instance

theorem Market.mem_makers_none : x ∈ m.makers side oracle now none ↔
    x.resting ∈ m.orders side ∧
      executablePrice x.leaf x.tree side (some oracle) now = some x.price := by
  rw [makers_none, mem_makers_iff]
  rfl

theorem Market.uncrossed_iff_crosses (side : Side) : m.Uncrossed oracle now ↔
    ∀ x ∈ m.makers side oracle now none, ∀ y ∈ m.makers side.opposite oracle now none,
      crosses side x.price.val y.price.val = false := by
  cases side with
  | bid => simp only [Uncrossed, Side.opposite, crosses, decide_eq_false_iff_not, not_le]
  | ask =>
    simp only [Uncrossed, Side.opposite, crosses, decide_eq_false_iff_not, not_le]
    exact ⟨fun h x hx y hy => h y hy x hx, fun h x hx y hy => h y hy x hx⟩

theorem Market.Uncrossed.of_subset (h : m.Uncrossed oracle now)
    (hsub : ∀ side, ∀ x ∈ m'.makers side oracle now none,
      ∃ y ∈ m.makers side oracle now none, y.price = x.price) : m'.Uncrossed oracle now := by
  intro x hx y hy
  obtain ⟨x', hx', hpx⟩ := hsub .bid x hx
  obtain ⟨y', hy', hpy⟩ := hsub .ask y hy
  rw [← hpx, ← hpy]
  exact h x' hx' y' hy'

theorem executablePrice_shrink {o : Option I64} {q : ℕ} (hq : q ≠ 0)
    (h : executablePrice leaf tree side o now = some price) :
    executablePrice { leaf with quantity := q } tree side o now = some price := by
  obtain ⟨-, -, he, hsi⟩ := executablePrice_eq_some h
  have hl (n : ℕ) (hn : n ≠ 0) : ¬(n = 0 ∨ leaf.expiresAt ≤ now ∨ leaf.side ≠ side) := by
    rintro (h | h | h)
    · exact hn h
    · omega
    · exact h hsi
  unfold executablePrice at h ⊢
  split at h
  · simp at h
  · rw [if_neg (hl q hq)]
    cases tree with
    | fixed => exact h
    | oraclePegged =>
      dsimp only at h ⊢
      split at h
      · rename_i p hs
        cases o with
        | none => simp [peggedState] at hs; split at hs <;> simp at hs
        | some oracle => rw [peggedState_shrink hq leaf.reservePrice hs]; exact h
      all_goals simp at h

theorem Market.Valid.orders_nodup (hm : m.Valid) (side : Side) : (m.orders side).Nodup :=
  .of_map _ (distinctSequences_iff.1 (hm.distinctSequences side))

theorem Market.Valid.maker_ext (hm : m.Valid) (hx : x ∈ m.makers side oracle now none)
    (hy : y ∈ m.makers side oracle now none) (h : x.resting = y.resting) : x = y := by
  rw [makers_none, ← (hm.wellFormed side).queue_eq_makers (hm.distinctSequences side)] at hx hy
  exact (hm.wellFormed side).place_inj hx hy (congrArg (fun r => (r.tree, r.handle)) h)

namespace Market.Placed

section

variable (h : Placed ctx order actions oracle behavior prepared uses m m')

include h

theorem mem_makers_none {u : Maker × Use} (hu : u ∈ uses) :
    u.1 ∈ m.makers prepared.side.opposite oracle ctx.now none := by
  rw [makers_none]
  exact h.mem_makers hu

theorem rests_eq_false_iff : order.rests prepared.plan = false ↔
    order.immediateOrCancel = true ∨ order.quantity ≤ (uses.map consumed).sum := by
  simp only [PlaceOrderData.rests, h.takerRemaining_eq, Bool.and_eq_false_iff,
    decide_eq_false_iff_not, Bool.not_eq_false', not_lt, Nat.le_zero, Nat.sub_eq_zero_iff_le]
  exact or_comm

end

variable (h : Placed ctx order actions oracle behavior prepared uses m m') (hm : m.Valid)

include h hm

theorem maker_before (hy : y ∈ m'.makers prepared.side.opposite oracle ctx.now none) :
    ∃ z ∈ m.makers prepared.side.opposite oracle ctx.now none, z.price = y.price := by
  obtain ⟨hmem, hp⟩ := Market.mem_makers_none.1 hy
  have hb : y.resting ∈ m.orders prepared.side.opposite + (uses.map leftIn).sum := by
    rw [← (h.exchanged hm).2]
    exact Multiset.mem_add.2 (.inl hmem)
  rcases Multiset.mem_add.1 hb with hold | hleft
  · exact ⟨y, Market.mem_makers_none.2 ⟨hold, hp⟩, rfl⟩
  · obtain ⟨z, n, hu, hne, heq⟩ := mem_leftIn hleft
    have hz := h.mem_makers_none hu
    have hle := h.walk.filled_le hu
    obtain ⟨ht, -, hl⟩ := (Resting.mk.injEq ..).mp heq
    have hs := executablePrice_shrink (q := z.leaf.quantity - n) (by omega)
      (Market.mem_makers_none.1 hz).2
    change y.tree = z.tree at ht
    change y.leaf = { z.leaf with quantity := z.leaf.quantity - n } at hl
    rw [hl, ht, hs] at hp
    exact ⟨z, hz, Option.some.inj hp⟩

/-- If the order rests, the makers it used are gone whole. -/
theorem mem_opposite (hmo : (uses.map consumed).sum < order.quantity) :
    r ∈ m'.orders prepared.side.opposite ↔ r ∈ m.orders prepared.side.opposite ∧
      ∀ x use, (x, use) ∈ uses → x.resting = r → use = .passed := by
  have hl : (uses.map leftIn).sum = 0 := by
    refine sum_eq_zero fun s hs => ?_
    obtain ⟨⟨x, use⟩, hu, rfl⟩ := mem_map.1 hs
    cases use with
    | cancelled | passed => rfl
    | filled n => exact if_pos (h.walk.filled_eq hmo hu)
  have hsum := (h.exchanged hm).2
  rw [hl, add_zero] at hsum
  have hnd := hm.orders_nodup prepared.side.opposite
  rw [← hsum, Multiset.nodup_add] at hnd
  have hg : r ∈ (uses.map goneIn).sum ↔
      ∃ x use, (x, use) ∈ uses ∧ x.resting = r ∧ use ≠ .passed := by
    rw [mem_sum_map]
    constructor
    · rintro ⟨⟨x, use⟩, hu, hr⟩
      cases use with
      | passed => simp [goneIn] at hr
      | cancelled | filled _ => exact ⟨x, _, hu, (Multiset.mem_singleton.1 hr).symm, by simp⟩
    · rintro ⟨x, use, hu, rfl, hne⟩
      refine ⟨(x, use), hu, ?_⟩
      cases use with
      | passed => exact absurd rfl hne
      | cancelled | filled _ => exact Multiset.mem_singleton_self _
  rw [← hsum, Multiset.mem_add]
  constructor
  · intro hr
    refine ⟨.inl hr, fun x use hu hx => ?_⟩
    by_contra hne
    exact Multiset.disjoint_left.1 hnd.2.2 hr (hg.2 ⟨x, use, hu, hx, hne⟩)
  · rintro ⟨hr | hr, hp⟩
    · exact hr
    · obtain ⟨x, use, hu, hx, hne⟩ := hg.1 hr
      exact absurd (hp x use hu hx) hne

/-- The makers that the order reaches and leaves are those beyond its room and those it passes. -/
theorem exists_left_iff (hmo : (uses.map consumed).sum < order.quantity)
    {reached : List Maker}
    (hr : (order.taker prepared.side behavior prepared.effectivePrice).reached
      (m.makers prepared.side.opposite oracle ctx.now none) = reached) :
    (∃ y ∈ reached, y.resting ∈ m'.orders prepared.side.opposite) ↔
      maxFillsPerInstruction < reached.length ∨
        (behavior = .decrementTake ∧ ∃ x ∈ reached, x.leaf.owner = order.seatIndex) := by
  have hus : uses.map Prod.fst = reached.take maxFillsPerInstruction := by
    rw [← hr, makers_none]
    exact h.walk.map_fst_eq hmo
  have hma : ∀ y ∈ reached, y ∈ m.makers prepared.side.opposite oracle ctx.now none := by
    rw [← hr]
    exact fun y hy => (takeWhile_sublist _).subset hy
  have hnd : reached.Nodup := by
    have ha : (((m.books prepared.side.opposite).makers prepared.side.opposite (some oracle)
        ctx.now).map Maker.resting).Nodup :=
      makers_resting_nodup (hm.distinctSequences prepared.side.opposite)
    rw [← hr, makers_none]
    exact ha.of_map.sublist (takeWhile_sublist _)
  have hk (y : Maker) (hy : y ∈ reached) (hp : ∀ use, (y, use) ∈ uses → use = .passed) :
      y.resting ∈ m'.orders prepared.side.opposite := by
    refine (h.mem_opposite hm hmo).2 ⟨(Market.mem_makers_none.1 (hma y hy)).1, ?_⟩
    intro x use hu hx
    obtain rfl := hm.maker_ext (h.mem_makers_none hu) (hma y hy) hx
    exact hp use hu
  constructor
  · rintro ⟨y, hy, hke⟩
    rw [or_iff_not_imp_left, not_lt]
    intro hlen
    rw [take_of_length_le hlen] at hus
    rw [← hus] at hy
    obtain ⟨⟨x, use⟩, hu, rfl⟩ := mem_map.1 hy
    have hpa := ((h.mem_opposite hm hmo).1 hke).2 x use hu rfl
    obtain ⟨ho, hb⟩ := (h.walk.passed_iff hu).1 hpa
    exact ⟨hb, x, by rw [← hus]; exact hy, ho⟩
  · intro hor
    by_cases hlen : maxFillsPerInstruction < reached.length
    · refine ⟨reached[maxFillsPerInstruction], getElem_mem hlen, hk _
        (getElem_mem hlen) fun use hu => ?_⟩
      have hmem : reached[maxFillsPerInstruction] ∈ reached.take maxFillsPerInstruction := by
        rw [← hus]
        exact mem_map_of_mem hu
      obtain ⟨j, hj, heq⟩ := mem_take_iff_getElem.1 hmem
      have := (hnd.getElem_inj_iff).1 heq
      omega
    · obtain ⟨hb, x, hx, ho⟩ := hor.resolve_left hlen
      exact ⟨x, hx, hk x hx fun use hu => (h.walk.passed_iff hu).2 ⟨ho, hb⟩⟩

/-- If the order rests, only its own leaf can cross. -/
theorem uncrossed_iff_of_rests (hun : m.Uncrossed oracle ctx.now)
    (hres : order.rests prepared.plan = true)
    (hmo : (uses.map consumed).sum < order.quantity) : m'.Uncrossed oracle ctx.now ↔
      ¬∃ y ∈ (order.taker prepared.side behavior prepared.effectivePrice).reached
        (m.makers prepared.side.opposite oracle ctx.now none),
          y.resting ∈ m'.orders prepared.side.opposite := by
  obtain ⟨hf, -⟩ | ⟨-, hpos, -, handle, hor⟩ := h.rested hm
  · rw [hres] at hf
    simp at hf
  have hr (y : Maker) : y ∈ (order.taker prepared.side behavior
      prepared.effectivePrice).reached (m.makers prepared.side.opposite oracle ctx.now none) ↔
        y ∈ m.makers prepared.side.opposite oracle ctx.now none ∧
          crosses prepared.side prepared.effectivePrice.val y.price.val = true := by
    rw [makers_none]
    exact (order.taker prepared.side behavior prepared.effectivePrice).mem_reached
      (hm.distinctSequences prepared.side.opposite)
  have ho (y : Maker) : y ∈ m'.makers prepared.side.opposite oracle ctx.now none ↔
      y ∈ m.makers prepared.side.opposite oracle ctx.now none ∧
        y.resting ∈ m'.orders prepared.side.opposite := by
    rw [Market.mem_makers_none, Market.mem_makers_none]
    constructor
    · exact fun ⟨hmem, hp⟩ => ⟨⟨((h.mem_opposite hm hmo).1 hmem).1, hp⟩, hmem⟩
    · exact fun ⟨⟨_, hp⟩, hmem⟩ => ⟨hmem, hp⟩
  rw [uncrossed_iff_crosses prepared.side]
  constructor
  · rintro hc ⟨y, hy, hk⟩
    obtain ⟨hmem, hre⟩ := (hr y).1 hy
    have hown : (⟨prepared.tree, handle, { prepared.leaf with
        quantity := prepared.plan.takerRemaining }, prepared.effectivePrice⟩ : Maker) ∈
          m'.makers prepared.side oracle ctx.now none := by
      rw [Market.mem_makers_none, hor]
      exact ⟨Multiset.mem_cons_self _ _, h.prepares.executablePrice_eq hpos⟩
    have := hc _ hown y ((ho y).2 ⟨hmem, hk⟩)
    rw [hre] at this
    simp at this
  · intro hno z hz y hy
    obtain ⟨hy, hk⟩ := (ho y).1 hy
    obtain ⟨hmem, hpr⟩ := Market.mem_makers_none.1 hz
    rw [hor, Multiset.mem_cons] at hmem
    rcases hmem with heq | hmem
    · obtain ⟨ht, -, hl⟩ := (Resting.mk.injEq ..).mp heq
      rw [show z.tree = prepared.tree from ht, show z.leaf = { prepared.leaf with
        quantity := prepared.plan.takerRemaining } from hl,
        h.prepares.executablePrice_eq hpos] at hpr
      rw [← Option.some.inj hpr, ← Bool.not_eq_true]
      exact fun hc => hno ⟨y, (hr y).2 ⟨hy, hc⟩, hk⟩
    · exact (uncrossed_iff_crosses prepared.side).1 hun z
        (Market.mem_makers_none.2 ⟨hmem, hpr⟩) y hy

/-- An order keeps the book uncrossed exactly when it clears what it reaches. -/
theorem uncrossed_iff_clears (hun : m.Uncrossed oracle ctx.now) : m'.Uncrossed oracle ctx.now ↔
    order.Clears (order.taker prepared.side behavior prepared.effectivePrice)
      ((order.taker prepared.side behavior prepared.effectivePrice).reached
        (m.makers prepared.side.opposite oracle ctx.now none)) := by
  have he := h.walk.exhausted_iff
  rw [← makers_none] at he
  cases hr : order.rests prepared.plan with
  | false =>
    refine iff_of_true (hun.of_subset fun s z hz => ?_) ?_
    · rcases prepared.side.eq_or_eq_opposite s with rfl | rfl
      · rcases h.rested hm with ⟨-, hb⟩ | ⟨ht, -⟩
        · rw [makers_none, hb, ← makers_none] at hz
          exact ⟨z, hz, rfl⟩
        · rw [hr] at ht
          simp at ht
      · exact h.maker_before hm hz
    · rcases h.rests_eq_false_iff.1 hr with hi | hd
      · exact .inl hi
      · exact .inr (.inl (he.1 hd))
  | true =>
    have hn : ¬(order.immediateOrCancel = true ∨ order.quantity ≤ (uses.map consumed).sum) := by
      rw [← h.rests_eq_false_iff, hr]
      simp
    obtain ⟨hi, hmo⟩ := not_or.1 hn
    rw [h.uncrossed_iff_of_rests hm hun hr (not_le.1 hmo),
      h.exists_left_iff hm (not_le.1 hmo) rfl, not_or, not_lt]
    constructor
    · exact fun hcl => .inr (.inr hcl)
    · rintro (hc | hd | hcl)
      · exact absurd hc hi
      · exact absurd (he.2 hd) hmo
      · exact hcl

end Market.Placed

/-- An accepted order or replacement leaves an uncrossed book uncrossed exactly when it rests
nothing or uses up all the makers it reaches. -/
theorem uncrossed_iff (hm : m.Valid) (ha : a.ordering = some (ctx, order, replaced))
    (horacle : oraclePriceAfterFreshness ctx m.core = .ok oracle)
    (hun : m.Uncrossed oracle ctx.now) (h : a.Trades m m') :
    m'.Uncrossed oracle ctx.now ↔ a.Clears m := by
  obtain ⟨m₁, _, oracle', behavior, prepared, uses, hc, hpl, -⟩ := h.ordered hm ha
  have hp := hpl.prepares
  obtain rfl : oracle = oracle' := by
    simpa [hc.oracle_eq, horacle] using hp.oracle_eq
  have hma (s : Side) : m₁.makers s oracle ctx.now none = m.makers s oracle ctx.now replaced :=
    hc.makers_eq hm s oracle ctx.now
  have hun₁ : m₁.Uncrossed oracle ctx.now := by
    refine hun.of_subset fun s z hz => ⟨z, ?_, rfl⟩
    rw [hma] at hz
    rw [makers_none]
    exact mem_of_mem_filter hz
  rw [hpl.uncrossed_iff_clears (hc.valid hm) hun₁, hma]
  simp only [Action.Clears, ha, reached, hp.shape, horacle, hp.price,
    hp.behavior_eq, ok_bind, pure, Except.pure]

def fiveAsks : List Action :=
  fundRun 100000 1000 ++ replicate 5
    (.placeOrderV3 (call 8 1000) (limitOrder .ask 1 1 1000))

def bidAtAsks (quantity : ℕ) : Action :=
  .placeOrderV3 (call 7 1000)
    (limitOrder .bid 0 quantity 1000)

theorem uncrossed_iff_of_fiveAsks : ∃ m', (bidAtAsks 3).Trades (genesis.after fiveAsks).live
    m' ∧ m'.Uncrossed 1000 (call 7 1000).now := by
  have hr : Run Action.Accepted genesis fiveAsks (genesis.after fiveAsks) :=
    run_accepted (by decide +kernel)
  have hv := valid_of_run genesis_initial hr
  have hp : placeOrderV3 (call 7 1000)
      (limitOrder .bid 0 3 1000) (genesis.after fiveAsks).live =
        .ok () (finalState _) := eq_ok_of_isOk (by decide +kernel)
  have hor : (bidAtAsks 3).ordering = some (call 7 1000, limitOrder .bid 0 3 1000, none) := rfl
  have ho : oraclePriceAfterFreshness (call 7 1000)
      (genesis.after fiveAsks).live.core = .ok 1000 := by decide +kernel
  have ht := Action.Trades.placed hp
  exact ⟨_, ht, (uncrossed_iff hv hor ho (by decide +kernel) ht).2 (by decide +kernel)⟩

/-- A bid for 10 uses four of the five asks and rests at the price of the fifth. -/
theorem crossed_by_bid : ∃ w₀ as w w', w₀.Initial ∧ Run Action.Accepted w₀ as w ∧
    (bidAtAsks 10).Accepted w w' ∧ w.live.Uncrossed 1000 0 ∧ ¬w'.live.Uncrossed 1000 0 := by
  have hr : genesis.accepts (fun _ _ => True) fiveAsks = true ∧
      (genesis.after fiveAsks).accepts (fun _ _ => True) [bidAtAsks 10] = true ∧
      (genesis.after fiveAsks).live.Uncrossed 1000 0 ∧
      ¬((genesis.after fiveAsks).after [bidAtAsks 10]).live.Uncrossed 1000 0 := by
    decide +kernel
  obtain ⟨hrun, hbid, hb, ha⟩ := hr
  exact ⟨genesis, fiveAsks, _, _, genesis_initial, run_accepted hrun,
    accepted_of_accepts hbid, hb, ha⟩

end Equinox
