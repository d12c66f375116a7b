import Equinox.Market.Orders

/-! # The makers an instruction reaches

Which makers an order or a replacement uses, as a function of the market before
it. A replacement first cancels an order of its own seat, so it walks over the
makers that remain.
-/

namespace Equinox

open Foundation CritBit PagedBookV3 Multiset Market

variable {a : Action} {w w' : World} {m m' m'' : Market} {ctx : Context}
  {order : PlaceOrderData} {actions i : ℕ} {oracle : I64} {behavior : SelfTradeBehavior}
  {prepared : PreparedOrder} {side : Side}
  {tree : TreeKind} {leaf : LeafNode} {r : Resting} {replaced : Option Key}

/-- The makers of one side, without the order that is to be replaced. -/
def Market.makers (m : Market) (side : Side) (oracle : I64) (now : ℕ) (replaced : Option Key) :
    List Maker :=
  ((m.books side).makers side (some oracle) now).filter fun x => some x.leaf.key ≠ replaced

/-- What an order would do with the makers of the other side. -/
def Market.usedMakers (m : Market) (ctx : Context) (order : PlaceOrderData)
    (replaced : Option Key) : Except ProgramError (List (Maker × Use)) := do
  let (side, tree) ← order.shape ctx.now
  let oracle ← oraclePriceAfterFreshness ctx m.core
  let price ← order.effectivePrice tree oracle
  let behavior ← order.selfTradeBehavior
  (order.taker side behavior price).uses maxFillsPerInstruction order.quantity
    (m.makers side.opposite oracle ctx.now replaced)

/-- The order an instruction places, and the key of the one it replaces. -/
def Action.ordering : Action → Option (Context × PlaceOrderData × Option Key)
  | placeOrderV3 ctx order => some (ctx, order, none)
  | replaceOrderV3 ctx key order => some (ctx, order, some key)
  | _ => none

/-- What an instruction does with the makers it reaches, one after the other. -/
def Action.uses (m : Market) (a : Action) : List (Maker × Use) :=
  match a.ordering with
  | none => []
  | some (ctx, order, replaced) =>
    match m.usedMakers ctx order replaced with
    | .ok uses => uses
    | .error _ => []

theorem Market.makers_none (m : Market) (side : Side) (oracle : I64) (now : ℕ) :
    m.makers side oracle now none = (m.books side).makers side (some oracle) now := by
  simp [makers]

/-! ## Makers after a cancellation -/

theorem PagedBookV3.mem_makers_iff {b : PagedBookV3} {x : Maker} {o : Option I64} {now : ℕ} :
    x ∈ b.makers side o now ↔ x.resting ∈ b.contents ∧
      executablePrice x.leaf x.tree side o now = some x.price := by
  rw [mem_makers, mem_contents]
  rfl

theorem PagedBookV3.makers_eq_filter {b b' : PagedBookV3} (keep : LeafNode → Bool) {o : Option I64}
    {now : ℕ} (hs : b.DistinctSequences) (hs' : b'.DistinctSequences)
    (hmem : ∀ r, r ∈ b'.contents ↔ r ∈ b.contents ∧ keep r.leaf = true) :
    b'.makers side o now = (b.makers side o now).filter fun x => keep x.leaf := by
  have : Std.Irrefl fun x y : Maker => x.rank side < y.rank side := ⟨fun _ => lt_irrefl _⟩
  have : Std.Antisymm fun x y : Maker => x.rank side < y.rank side :=
    ⟨fun _ _ h h' => absurd h (lt_asymm h')⟩
  refine List.Pairwise.eq_of_mem_iff (makers_sorted hs') ((makers_sorted hs).filter _) fun x => ?_
  rw [List.mem_filter, mem_makers_iff, mem_makers_iff, hmem x.resting]
  exact and_right_comm

namespace Market.Cancelled

variable (h : Cancelled i side tree leaf m m') (hm : m.Valid)

include h hm

theorem orders_add : ∃ handle, m.orders .bid + m.orders .ask =
    ⟨tree, handle, leaf⟩ ::ₘ (m'.orders .bid + m'.orders .ask) := by
  obtain ⟨-, handle, ho⟩ := h.orders_eq hm
  refine ⟨handle, ?_⟩
  have hot : m'.orders side.opposite = m.orders side.opposite := by
    rw [orders, h.books_of_ne side.opposite_ne]
    rfl
  rw [← m.orders_add side, ← m'.orders_add side, ho, hot, cons_add]

theorem mem_orders (s : Side) : r ∈ m'.orders s ↔ r ∈ m.orders s ∧ r.leaf.key ≠ leaf.key := by
  obtain ⟨-, handle, ho⟩ := h.orders_eq hm
  have hl : (⟨tree, handle, leaf⟩ : Resting).Valid side :=
    hm.resting side _ (ho ▸ mem_cons_self _ _)
  constructor
  · intro hr
    have hr' := mem_of_le (h.orders_le hm s) hr
    refine ⟨hr', fun hk => ?_⟩
    obtain ⟨_, hadd⟩ := h.orders_add hm
    have hnd := hm.distinct
    rw [hadd, map_cons, nodup_cons] at hnd
    refine hnd.1 (mem_map.2 ⟨r, ?_, Fin.ext ?_⟩)
    · cases s with
      | bid => exact mem_add.2 (.inl hr)
      | ask => exact mem_add.2 (.inr hr)
    · rw [← (hm.resting s r hr').keyed, hk]
      exact hl.keyed
  · rintro ⟨hr, hk⟩
    by_cases hs : s = side
    · subst hs
      rw [ho] at hr
      exact (mem_cons.1 hr).resolve_left fun heq => hk (by rw [heq])
    · rw [orders, h.books_of_ne hs]
      exact hr

theorem makers_eq (s : Side) (oracle : I64) (now : ℕ) :
    (m'.books s).makers s (some oracle) now = m.makers s oracle now (some leaf.key) := by
  have hk (r : Resting) : r ∈ (m'.books s).contents ↔
      r ∈ (m.books s).contents ∧ decide (r.leaf.key ≠ leaf.key) = true := by
    rw [decide_eq_true_eq]
    exact h.mem_orders hm s
  rw [makers_eq_filter (fun x => decide (x.key ≠ leaf.key)) (hm.distinctSequences s)
    ((h.valid hm).distinctSequences s) hk, makers]
  simp

end Market.Cancelled

/-! ## Orders and replacements -/

/-- The market on which an instruction places its order: a replacement has cancelled first. -/
inductive Market.Cleared (m : Market) (i : ℕ) : Option Key → Market → Prop
  | unchanged : Cleared m i none m
  | cancelled {side : Side} {tree : TreeKind} {leaf : LeafNode} {m₁ m₂ : Market}
    (cancel : Cancelled i side tree leaf m m₁) (same : m₁.SameLedgers m₂) :
    Cleared m i (some leaf.key) m₂

namespace Market.Cleared

variable (h : Cleared m i replaced m')

include h

theorem traded : m.Traded m' := by
  cases h with
  | unchanged => exact .of_seats_eq rfl rfl
  | cancelled cancel same => exact cancel.traded.trans same.traded

theorem valid (hm : m.Valid) : m'.Valid := by
  cases h with
  | unchanged => exact hm
  | cancelled cancel same => exact same.valid (cancel.valid hm)

theorem makers_eq (hm : m.Valid) (s : Side) (oracle : I64) (now : ℕ) :
    m'.makers s oracle now none = m.makers s oracle now replaced := by
  cases h with
  | unchanged => rfl
  | cancelled cancel same => rw [makers_none, same.books, cancel.makers_eq hm]

theorem oracle_eq (ctx : Context) :
    oraclePriceAfterFreshness ctx m'.core = oraclePriceAfterFreshness ctx m.core := by
  obtain ⟨_, _, _, _, -, -, -, hc⟩ := h.traded.core
  rw [hc]
  rfl

end Market.Cleared

theorem Market.Placed.uses_market {uses : List (Maker × Use)}
    (h : Placed ctx order actions oracle behavior prepared uses m' m'')
    (hc : Cleared m order.seatIndex replaced m') (hm : m.Valid) :
    m.usedMakers ctx order replaced = .ok uses := by
  have heq := h.uses_eq
  rw [← makers_none, hc.makers_eq hm] at heq
  have ho := h.prepares.oracle_eq
  rw [hc.oracle_eq] at ho
  simp only [usedMakers, h.prepares.shape, ho, h.prepares.price, h.prepares.behavior_eq, ok_bind]
  exact heq

theorem Action.uses_eq {uses : List (Maker × Use)} (ha : a.ordering = some (ctx, order, replaced))
    (hc : Cleared m order.seatIndex replaced m')
    (h : Placed ctx order actions oracle behavior prepared uses m' m'') (hm : m.Valid) :
    a.uses m = uses := by
  simp only [Action.uses, ha, h.uses_market hc hm]

theorem find_key {b : PagedBookV3} {key : Key} {handle : ℕ} (hb : b.WellFormed)
    (hf : b.find tree key = .ok handle) (hl : b.leaf handle = .ok leaf) : leaf.key = key := by
  obtain ⟨leaf', hmem, hk⟩ := hb.find_eq_ok.1 hf
  obtain rfl : leaf = leaf' := by simpa [hl] using hb.leaf_eq hmem
  exact hk

theorem Action.Accepted.trades {o : Context × PlaceOrderData × Option Key}
    (h : a.Accepted w w') (ha : a.ordering = some o) : a.Trades w.live w'.live := by
  cases a with
  | placeOrderV3 =>
    obtain ⟨m, hm, rfl⟩ := h.of_handler rfl
    exact .placed hm
  | replaceOrderV3 =>
    obtain ⟨m, hm, rfl⟩ := h.of_handler rfl
    exact .replaced hm
  | _ => simp [ordering] at ha

theorem Action.Trades.ordered (h : a.Trades m m') (hm : m.Valid)
    (ha : a.ordering = some (ctx, order, replaced)) :
    ∃ m₁ actions oracle behavior prepared uses, Cleared m order.seatIndex replaced m₁ ∧
      Placed ctx order actions oracle behavior prepared uses m₁ m' ∧ a.uses m = uses := by
  cases h with
  | placed h =>
    simp only [ordering, Option.some.injEq, Prod.mk.injEq] at ha
    obtain ⟨rfl, rfl, rfl⟩ := ha
    obtain ⟨_, _, _, _, hp⟩ := hm.placed h
    exact ⟨_, _, _, _, _, _, .unchanged, hp, uses_eq rfl .unchanged hp hm⟩
  | replaced h =>
    simp only [ordering, Option.some.injEq, Prod.mk.injEq] at ha
    obtain ⟨rfl, rfl, rfl⟩ := ha
    obtain ⟨m₁, _, ⟨side, tree, leaf, m₀, hfo, hca, hs⟩, hpl⟩ := replaceOrderV3_eq_ok h
    obtain ⟨_, hf, hl, -⟩ := findOwned_eq_ok hfo
    obtain rfl := find_key (hm.wellFormed side) hf hl
    have hc := Cleared.cancelled hca hs
    obtain ⟨_, _, _, _, hp⟩ := (hc.valid hm).placed hpl
    exact ⟨_, _, _, _, _, _, hc, hp, uses_eq rfl hc hp hm⟩
  | cancelled | cancelledAll => simp [ordering] at ha

theorem Action.Trades.cancelling {P : Market → Prop} (h : a.Trades m m') (ha : a.ordering = none)
    (hca : ∀ m₁ m₂ i side tree leaf, P m₁ → Cancelled i side tree leaf m₁ m₂ → P m₂)
    (hsa : ∀ m₁ m₂, P m₁ → m₁.SameLedgers m₂ → P m₂) (hm : P m) : P m' := by
  cases h with
  | placed | replaced => simp [ordering] at ha
  | cancelled h =>
    obtain ⟨_, _, _, _, -, hc, hs⟩ := cancelOrderV3WithAction_eq_ok h
    exact hsa _ _ (hca _ _ _ _ _ _ hm hc) hs
  | cancelledAll h =>
    exact cancelAllV3_induction (fun _ _ _ _ _ hp hc => hca _ _ _ _ _ _ hp hc) hsa hm h

end Equinox
